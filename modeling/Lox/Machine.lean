import Lox.Outcome
import Lox.Store
import Lox.Scope.Table
import Lox.Console.Input
import Lox.Console.Sink

/-!
# The machine

All that a program can change or see: the store, the environment that is in scope, how many calls
are going on, the binding tables of all programs so far, the input and output, and the clock.
Scopes and calls put the environment and the count back, whatever way they end.
-/

namespace Lox

structure Machine where
  store : Store
  env : Env
  /-- Calls that have started and not ended. -/
  depth : Nat
  bindings : BindingTable
  input : Input
  output : Sink
  /-- Milliseconds. -/
  clock : Nat

/-- The first frame is the global one. -/
def globalEnv : Env := [0]

/-- The global variables before anything runs. -/
def initialGlobals : Frame :=
  Native.all.foldl (fun frame fn => frame.insert fn.name (.native fn)) .empty

/-- The most calls that can go on at a time. -/
def maxDepth : Nat := 1000

namespace Machine

def start (input : Input) (output : Sink) (clock : Nat) : Machine where
  store := (Store.empty.extend initialGlobals []).2
  env := globalEnv
  depth := 0
  bindings := .empty
  input := input
  output := output
  clock := clock

/-- The value of a global variable. -/
def global? (m : Machine) (name : String) : Option Value := m.store.readAt globalEnv 0 name

end Machine

abbrev Eval := Run Machine Error

/-- How a statement ends. -/
inductive Flow where
  | completed
  | returned (v : Value)
  | broke

namespace Eval

section
variable {α : Type}

def fail (line : Nat) (fault : RuntimeFault) : Eval α := Run.fail (.runtime line fault)

def ofExcept (line : Nat) (x : Except RuntimeFault α) : Eval α :=
  match x with
  | .ok a => pure a
  | .error fault => fail line fault

/-- Runs in another environment. -/
@[inline] def within (env : Env) (body : Eval α) : Eval α := fun m =>
  let outer := m.env
  match body { m with env } with
  | .done a m' => .done a { m' with env := outer }
  | .failed e m' => .failed e { m' with env := outer }
  | .exhausted => .exhausted

/-- Runs as one more call, unless that would be one too many. -/
@[inline] def asCall (line : Nat) (body : Eval α) : Eval α := fun m =>
  if maxDepth ≤ m.depth then .failed (.runtime line .stackOverflow) m
  else
    let outer := m.depth
    match body { m with depth := outer + 1 } with
    | .done a m' => .done a { m' with depth := outer }
    | .failed e m' => .failed e { m' with depth := outer }
    | .exhausted => .exhausted

end

/-! ## Variables -/

def undefined (name : Name) : RuntimeFault := .naming (.undefined name.text)

/-- A bound occurrence means the variable at its distance, any other a global one. -/
def lookUp (id : NodeId) (name : Name) : Eval Value := fun m =>
  let found := match m.bindings.get? id with
    | some distance => m.store.readAt m.env distance name.text
    | none => m.global? name.text
  match found with
  | some v => .done v m
  | none => .failed (.runtime name.line (undefined name)) m

/-- Enters a variable in a frame, or overwrites it there. -/
def setVar (id : FrameId) (name : String) (v : Value) : Eval Unit :=
  Run.update fun m => { m with store := m.store.setVar id name v }

/-- The frame whose variable a bound or global occurrence means. -/
def slotOf? (id : NodeId) (name : Name) : Eval (Option FrameId) := Run.read fun m =>
  match m.bindings.get? id with
  | some distance => m.store.slotAt? m.env distance name.text
  | none => m.store.slotAt? globalEnv 0 name.text

def assign (id : NodeId) (name : Name) (v : Value) : Eval Unit := do
  match ← slotOf? id name with
  | some frame => setVar frame name.text v
  | none => fail name.line (undefined name)

def define (name : Name) (v : Value) : Eval Unit := do
  match ← Run.read fun m => m.store.freeSlot? m.env name.text with
  | some frame => setVar frame name.text v
  | none => fail name.line (.naming (.alreadyDefined name.text))

/-- Overwrites a variable that is declared already. -/
def overwrite (name : Name) (v : Value) : Eval Unit := do
  match ← Run.read fun m => m.store.slot? m.env name.text with
  | some frame => setVar frame name.text v
  | none => fail name.line (undefined name)

/-- The environment with a new frame inside it. -/
def newFrame (frame : Frame) (env : Env) : Eval Env := fun m =>
  let (env, store) := m.store.extend frame env
  .done env { m with store }

/-! ## Objects -/

def freshSerial : Eval Nat := fun m =>
  let (serial, store) := m.store.freshSerial
  .done serial { m with store }

def newFunction (closure : Closure) : Eval FunctionObject := do
  return { serial := ← freshSerial, closure }

def newInstance (cls : Class) : Eval Instance := fun m =>
  let (i, store) := m.store.construct cls
  .done i { m with store }

def field? (i : Instance) (name : String) : Eval (Option Value) := Run.read (·.store.field? i name)

def setField (i : Instance) (name : String) (v : Value) : Eval Unit :=
  Run.update fun m => { m with store := m.store.setField i name v }

/-- The function that a declaration stands for, with what is in scope here. -/
def closureHere (name : Name) (routine : Routine) : Eval Closure :=
  Run.read fun m => { name, routine, isGetter := false, isInitializer := false, env := m.env }

/-- A method with `this` in a frame of its own. -/
def bindThis (method : Closure) (receiver : Instance) : Eval Closure := do
  let env ← newFrame (Dict.empty.insert "this" (.object receiver)) method.env
  return { method with env }

/-- The methods of one class declaration; of two with one name the later one counts. -/
def methodTable (env : Env) (initializers : Bool) : List Method → Dict FunctionObject → Eval (Dict FunctionObject)
  | [], table => pure table
  | m :: ms, table => do
    let isInitializer := initializers && m.name.text = "init"
    let f ← newFunction { name := m.name, routine := m.routine, isGetter := m.isGetter, isInitializer, env }
    methodTable env initializers ms (table.insert m.name.text f)

/-- The environment of the members of a class. With a superclass they see one more frame, which
holds `super`. -/
def memberEnv (superclass : Option Class) : Eval Env := do
  let here ← Run.read Machine.env
  match superclass with
  | some parent => newFrame (Dict.empty.insert "super" (.klass parent)) here
  | none => return here

/-- The class that a declaration makes. -/
def newClass (name : Name) (superclass : Option Class) (methods statics : List Method) : Eval Class := do
  let env ← memberEnv superclass
  let methods ← methodTable env true methods .empty
  let statics ← methodTable env false statics .empty
  let serial ← freshSerial
  let ancestors := (superclass.map Class.lineage).getD []
  return { layer := { serial, name := name.text, methods, statics }, ancestors }

/-- The class from which `super` starts to search. -/
def superClass (id : NodeId) (line : Nat) : Eval Class := fun m =>
  match (m.bindings.get? id).bind fun distance => m.store.readAt m.env distance "super" with
  | some (.klass c) => .done c m
  | _ => .failed (.runtime line .unresolvedSuper) m

/-- `this` lies one frame inside `super`. -/
def superReceiver (id : NodeId) (line : Nat) : Eval Instance := fun m =>
  let found := match m.bindings.get? id with
    | some (distance + 1) => m.store.readAt m.env distance "this"
    | _ => none
  match found with
  | some (.object i) => .done i m
  | _ => .failed (.runtime line .unresolvedThis) m

/-- What a call of an initializer gives. -/
def receiverOf (c : Closure) : Eval Value := fun m =>
  match m.store.readAt c.env 0 "this" with
  | some v => .done v m
  | none => .failed (.runtime c.name.line .unresolvedThis) m

/-! ## Input and output -/

/-- Writes a line; what becomes of a failure is up to the caller. -/
def writeLine (text : String) (fault : OutputFault → Error) : Eval Unit := fun m =>
  match m.output.write (text ++ "\n") with
  | (true, output) => .done () { m with output }
  | (false, output) => .failed (fault .sinkFull) { m with output }

/-- The next line of the input, or `nil` at its end. -/
def readLine (line : Nat) : Eval Value := fun m =>
  let (bytes, input) := m.input.programLine
  let m := { m with input }
  match bytes, Utf8.decode bytes with
  | [], _ => .done .nil m
  | _, .ok text => .done (.string (String.ofList (trimLineEnds text.toList))) m
  | _, .error _ => .failed (.runtime line .inputNotText) m

/-- The time in seconds. Every reading takes a millisecond. -/
def readClock : Eval Value :=
  Run.step fun m => (.number (Float.ofNat m.clock / 1000), { m with clock := m.clock + 1 })

def callNative (fn : Native) (arguments : List Value) (line : Nat) : Eval Value :=
  match fn, arguments with
  | .clock, _ => readClock
  | .read, _ => readLine line
  | .print, v :: _ => do
    writeLine v.text fun fault => .runtime line (.outputNotWritten fault)
    return .nil
  | .print, [] => return .nil
  | .breakpoint, _ => return .nil

end Eval

end Lox
