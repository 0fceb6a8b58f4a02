import Lox.CommandLine.Arguments
import Lox.CommandLine.File
import Lox.Session
import Lox.Syntax.Polish

/-!
# Performing commands

What a command writes, and the code with which it ends. The contents of files and the whole of the
input are given; nothing here reads them.
-/

namespace Lox.CommandLine

/-- How a command ends. -/
structure Finish where
  exit : Nat
  stdout : List UInt8
  stderr : String
deriving DecidableEq, Repr

def exitUnreadable : Nat := 1
def exitUsage : Nat := 64
def exitStatic : Nat := 65
def exitRuntime : Nat := 70

/-- The report of a failure that is not about the source text. -/
def failureReport (context cause : String) : String :=
  s!"Error: {context}\n\nCaused by:\n    {cause}\n"

def lines (texts : List String) : String := String.join (texts.map (· ++ "\n"))

/-- Ends with texts for both streams. -/
def Finish.ofTexts (exit : Nat) (stdout stderr : List String) : Finish :=
  { exit, stdout := Utf8.encode (lines stdout), stderr := lines stderr }

def unreadable (name : String) (fault : FileFault) : Finish :=
  { exit := exitUnreadable, stdout := [], stderr := failureReport (fault.context name) fault.cause }

def tokenize (json : Bool) (source : String) : Finish :=
  let items := Item.ofSource source
  let errors := errorsOf items
  .ofTexts (if errors.isEmpty then 0 else exitStatic)
    ((tokensOf items).map fun t => if json then t.json else t.text) (errors.map Error.text)

/-- An expression is shown only if nothing is wrong with the source. -/
def parse (reversed : Bool) (source : String) : Finish :=
  let items := Item.ofSource source
  let parsed := parseExpression (tokensOf items) 0
  let errors := errorsOf items ++ parsed.errors
  match parsed.tree, errors with
  | some e, [] => .ofTexts 0 [if reversed then e.reversePolish else e.polish] []
  | _, _ => .ofTexts exitStatic [] (errors.map Error.text)

def exitOf : RunStatus → Nat
  | .ok => 0
  | .staticError => exitStatic
  | .runtimeError => exitRuntime

def newSession (stdin : List UInt8) (clock : Nat) : Session :=
  .start (.start (.ofStream stdin) .unlimited clock)

def run (fuel : Nat) (warnings : Bool) (source : String) (stdin : List UInt8) (clock : Nat) : Option Finish := do
  let (report, s) ← (newSession stdin clock).run fuel source
  return { exit := exitOf report.status, stdout := s.written, stderr := lines (report.texts warnings) }

/-- Prompts for lines and runs each. A session goes on after an error in a line; a line that is no
text ends it. -/
def promptLoop (fuel : Nat) (warnings : Bool) : (limit : Nat) → Session → (stderr : String) → Option Finish
  | 0, _, _ => none
  | limit + 1, s, stderr => do
    let (line, s) := (s.say "> ").promptLine
    if line.isEmpty then
      return { exit := 0, stdout := (s.say "\n").written, stderr }
    else
      match Utf8.decode line with
      | .error _ =>
        let report := failureReport "Failed to read from stdin" "stream did not contain valid UTF-8"
        return { exit := exitUnreadable, stdout := s.written, stderr := stderr ++ report }
      | .ok source =>
        let (report, s) ← s.run fuel source
        promptLoop fuel warnings limit s (stderr ++ lines (report.texts warnings))

/-- No input has more lines than octets. -/
def prompt (fuel : Nat) (warnings : Bool) (stdin : List UInt8) (clock : Nat) : Option Finish :=
  promptLoop fuel warnings (stdin.length + 1) (newSession stdin clock) ""

def Command.file? : Command → Option String
  | .tokenize file _ => some file
  | .parse file _ => some file
  | .run file => some file
  | .prompt => none

/-- Does something with a source text, if the file has one. -/
def withSource (file : String) (contents : Except FileFault (List UInt8)) (f : String → Option Finish) : Option Finish :=
  match sourceOf contents with
  | .ok source => f source
  | .error fault => some (unreadable file fault)

/-- Performs a command. There is no answer when a program uses up the fuel. -/
def Invocation.perform (i : Invocation) (fuel : Nat) (contents : String → Except FileFault (List UInt8))
    (stdin : List UInt8) (clock : Nat) : Option Finish :=
  match i.command with
  | .tokenize file json => withSource file (contents file) fun source => some (tokenize json source)
  | .parse file reversed => withSource file (contents file) fun source => some (parse reversed source)
  | .run file => withSource file (contents file) fun source => run fuel i.warnings source stdin clock
  | .prompt => prompt fuel i.warnings stdin clock

def versionText : String := "rox 0.1.0"

def helpTexts : List String :=
  ["Usage: rox [--log] [--no-warnings] COMMAND",
   "",
   "  tokenize FILE [--json]  list the tokens of a file",
   "  parse FILE [--rpn]      show the expression in a file",
   "  run FILE                run a file",
   "  repl                    run the lines of the input"]

/-- Answers a request. -/
def Request.answer (r : Request) (fuel : Nat) (contents : String → Except FileFault (List UInt8))
    (stdin : List UInt8) (clock : Nat) : Option Finish :=
  match r with
  | .perform i => i.perform fuel contents stdin clock
  | .help => some (.ofTexts 0 helpTexts [])
  | .version => some (.ofTexts 0 [versionText] [])
  | .misuse => some (.ofTexts exitUsage [] helpTexts)

end Lox.CommandLine
