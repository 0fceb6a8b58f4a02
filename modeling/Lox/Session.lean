import Lox.Source.Item
import Lox.Syntax.Grammar
import Lox.Scope.Resolve
import Lox.Evaluate

/-!
# Sessions

A session runs one program after another on one machine. A program runs only if it has no static
error. Identities go on from program to program, so that those of an earlier one, which a function
may still hold, are not given out again.
-/

namespace Lox

inductive RunStatus where
  | ok
  /-- Nothing ran. -/
  | staticError
  | runtimeError
deriving DecidableEq, Repr

/-- How a run ended, and what was found on the way. -/
structure Report where
  status : RunStatus
  errors : List Error
  warnings : List Warning
deriving DecidableEq

/-- The texts of the warnings, if they are wanted, and of the errors. -/
def Report.texts (warnings : Bool) (r : Report) : List String :=
  (if warnings then r.warnings.map Warning.text else []) ++ r.errors.map Error.text

/-- A program that may run: its statements and the bindings of their variables. -/
structure Checked where
  program : List Stmt
  table : BindingTable

/-- What the static phases make of a source text. -/
structure Analysis where
  /-- There is none if there are errors. -/
  checked : Option Checked
  errors : List Error
  warnings : List Warning
  nextId : NodeId

/-- Names are resolved only in a program without lexical and syntax errors. -/
def analyze (source : String) (nextId : NodeId) : Analysis :=
  let items := Item.ofSource source
  let parsed := parseProgram (tokensOf items) nextId
  let errors := errorsOf items ++ parsed.errors
  let nextId := parsed.nextId
  if errors.isEmpty then
    let r := resolveProgram parsed.tree
    if r.errors.isEmpty then
      { checked := some { program := parsed.tree, table := r.table }, errors := [], warnings := r.warnings, nextId }
    else { checked := none, errors := r.errors, warnings := r.warnings, nextId }
  else { checked := none, errors, warnings := [], nextId }

structure Session where
  machine : Machine
  nextId : NodeId

namespace Session

def start (machine : Machine) : Session := { machine, nextId := 0 }

/-- Runs a source text. There is no answer when the fuel is used up. -/
def run (fuel : Nat) (source : String) (s : Session) : Option (Report × Session) :=
  let a := analyze source s.nextId
  match a.checked with
  | none => some ({ status := .staticError, errors := a.errors, warnings := a.warnings }, { s with nextId := a.nextId })
  | some c =>
    match Eval.interpret fuel c.program c.table s.machine with
    | .done _ machine =>
      some ({ status := .ok, errors := [], warnings := a.warnings }, { machine, nextId := a.nextId })
    | .failed e machine =>
      some ({ status := .runtimeError, errors := [e], warnings := a.warnings }, { machine, nextId := a.nextId })
    | .exhausted => none

/-- Calls a value from outside of any program. -/
def call (fuel : Nat) (callee : Value) (arguments : List Value) (line : Nat) (s : Session) :
    Option (Except Error Value × Session) :=
  match Eval.call fuel callee arguments line s.machine with
  | .done v machine => some (.ok v, { s with machine })
  | .failed e machine => some (.error e, { s with machine })
  | .exhausted => none

/-! ## Between runs -/

/-- All that the session has written. -/
def written (s : Session) : List UInt8 := s.machine.output.written.toList

/-- Writes to the output of the session's programs. -/
def say (text : String) (s : Session) : Session :=
  { s with machine := { s.machine with output := (s.machine.output.write text).2 } }

/-- The next line of the input that no program has taken over. -/
def promptLine (s : Session) : List UInt8 × Session :=
  let (line, input) := s.machine.input.promptLine
  (line, { s with machine := { s.machine with input } })

end Session

end Lox
