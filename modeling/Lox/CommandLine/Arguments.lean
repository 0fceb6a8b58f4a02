/-!
# Command line arguments

A command with its options, a request for help or for the version, or a usage error. Options may
stand before or after a file name, `--` ends them, and none may be given twice in one place. The
switches for the log and for warnings can stand before the command as well as after it.
-/

namespace Lox.CommandLine

inductive Command where
  /-- Lists the tokens of a file. -/
  | tokenize (file : String) (json : Bool)
  /-- Shows the expression that a file holds. -/
  | parse (file : String) (reversed : Bool)
  | run (file : String)
  /-- Runs the lines of the input one by one. -/
  | prompt
deriving DecidableEq, Repr

structure Invocation where
  command : Command
  warnings : Bool
deriving DecidableEq, Repr

inductive Request where
  | perform (invocation : Invocation)
  | help
  | version
  | misuse
deriving DecidableEq, Repr

inductive Verb where
  | tokenize | parse | run | prompt
deriving DecidableEq, Repr

def Verb.ofText? : String → Option Verb
  | "tokenize" => some .tokenize
  | "parse" => some .parse
  | "run" => some .run
  | "repl" => some .prompt
  | _ => none

def Verb.takesFile : Verb → Bool
  | .prompt => false
  | _ => true

inductive Switch where
  | log | noWarnings | json | reversed | help | version
deriving DecidableEq, Repr

/-- How an argument reads as long as options are not over. -/
inductive Argument where
  | plain (text : String)
  | option (o : Switch)
  | unknownOption
  | endOfOptions
deriving DecidableEq, Repr

/-- Letters after a short option do not matter: both of them act at once. -/
def Argument.ofText (text : String) : Argument :=
  match text.toList with
  | ['-', '-'] => .endOfOptions
  | '-' :: '-' :: _ =>
    match text with
    | "--log" => .option .log
    | "--no-warnings" => .option .noWarnings
    | "--json" => .option .json
    | "--rpn" => .option .reversed
    | "--help" => .option .help
    | "--version" => .option .version
    | _ => .unknownOption
  | '-' :: 'h' :: _ => .option .help
  | '-' :: 'V' :: _ => .option .version
  | '-' :: _ :: _ => .unknownOption
  | _ => .plain text

/-- What has been read in one place. -/
structure Gathered where
  options : List Switch := []
  file : Option String := none

/-- The command that the arguments after its name complete. `quiet` says that warnings are
switched off before the name. -/
def Verb.complete (verb : Verb) (quiet : Bool) (g : Gathered) : Request :=
  let warnings := !quiet && !g.options.contains .noWarnings
  match verb, g.file with
  | .tokenize, some file => .perform ⟨.tokenize file (g.options.contains .json), warnings⟩
  | .parse, some file => .perform ⟨.parse file (g.options.contains .reversed), warnings⟩
  | .run, some file => .perform ⟨.run file, warnings⟩
  | .prompt, _ => .perform ⟨.prompt, warnings⟩
  | _, none => .misuse

/-- The switches that a command knows; help is for all of them. -/
def Verb.knows (verb : Verb) : Switch → Bool
  | .log => true
  | .noWarnings => true
  | .json => verb = .tokenize
  | .reversed => verb = .parse
  | .help => false
  | .version => false

/-- Reads what follows the name of a command. `plain` says that options are over. -/
def Verb.read (verb : Verb) (quiet : Bool) (g : Gathered) (plain : Bool) : List String → Request
  | [] => verb.complete quiet g
  | arg :: rest =>
    match if plain then .plain arg else Argument.ofText arg with
    | .endOfOptions => verb.read quiet g true rest
    | .option .help => .help
    | .option o =>
      if verb.knows o && !g.options.contains o then
        verb.read quiet { g with options := o :: g.options } plain rest
      else .misuse
    | .unknownOption => .misuse
    | .plain file =>
      if verb.takesFile && g.file.isNone && file ≠ "" then
        verb.read quiet { g with file := some file } plain rest
      else .misuse

/-- The names after `help` have to name a command. -/
def readHelp : List String → Request
  | [] => .help
  | [name] => if (Verb.ofText? name).isSome || name = "help" then .help else .misuse
  | _ => .misuse

/-- Reads the arguments up to the name of a command. -/
def readFrom (options : List Switch) : List String → Request
  | [] => .misuse
  | arg :: rest =>
    match Verb.ofText? arg, Argument.ofText arg with
    | some verb, _ => verb.read (options.contains .noWarnings) {} false rest
    | none, .option .help => .help
    | none, .option .version => .version
    | none, .option o =>
      if (o = .log || o = .noWarnings) && !options.contains o then readFrom (o :: options) rest
      else .misuse
    | none, .plain "help" => readHelp rest
    | none, _ => .misuse

def read (arguments : List String) : Request := readFrom [] arguments

end Lox.CommandLine
