import Lox.Value

/-!
# The store

Frames hold the variables of one activation of a scope, and field tables those of one instance.
Both are only ever added, at the next free place. An environment is a chain of frames, the
innermost first, so a shared outer frame is one frame in several chains.
-/

namespace Lox

abbrev Frame := Dict Value

structure Store where
  frames : Array Frame
  fields : Array (Dict Value)
  nextSerial : Nat

namespace Store

def empty : Store := { frames := #[], fields := #[], nextSerial := 0 }

/-! ## Frames and environments -/

/-- A new frame inside the given environment. -/
def extend (s : Store) (frame : Frame) (env : Env) : Env × Store :=
  (s.frames.size :: env, { s with frames := s.frames.push frame })

def frame? (s : Store) (id : FrameId) : Option Frame := s.frames[id]?

/-- The variable of a frame. -/
def var? (s : Store) (id : FrameId) (name : String) : Option Value := (s.frame? id).bind (·.get? name)

/-- Enters the variable in a frame, or overwrites it there. -/
def setVar (s : Store) (id : FrameId) (name : String) (v : Value) : Store :=
  { s with frames := s.frames.modify id (·.insert name v) }

/-- The frame `distance` links out. -/
def ancestor? (env : Env) (distance : Nat) : Option FrameId := env[distance]?

/-- The variable of the frame `distance` links out, and of no other. -/
def readAt (s : Store) (env : Env) (distance : Nat) (name : String) : Option Value :=
  (ancestor? env distance).bind (s.var? · name)

/-- The frame `distance` links out, if it has the variable. -/
def slotAt? (s : Store) (env : Env) (distance : Nat) (name : String) : Option FrameId :=
  (ancestor? env distance).filter fun id => (s.var? id name).isSome

/-- Overwrites the variable of the frame `distance` links out, if that frame has it. -/
def writeAt (s : Store) (env : Env) (distance : Nat) (name : String) (v : Value) : Option Store :=
  (s.slotAt? env distance name).map fun id => s.setVar id name v

/-- The innermost frame with the variable. -/
def slot? (s : Store) (env : Env) (name : String) : Option FrameId :=
  env.find? fun id => (s.var? id name).isSome

/-- The variable as the environment sees it. -/
def read (s : Store) (env : Env) (name : String) : Except NameFault Value :=
  match env.findSome? (s.var? · name) with
  | some v => .ok v
  | none => .error (.undefined name)

/-- Overwrites the variable that the environment sees. -/
def write (s : Store) (env : Env) (name : String) (v : Value) : Except NameFault Store :=
  match s.slot? env name with
  | some id => .ok (s.setVar id name v)
  | none => .error (.undefined name)

/-- Enters the variable in the innermost frame, whether or not it is there. -/
def insert (s : Store) (env : Env) (name : String) (v : Value) : Store :=
  match env with
  | [] => s
  | id :: _ => s.setVar id name v

/-- The innermost frame, unless it has the variable already. -/
def freeSlot? (s : Store) (env : Env) (name : String) : Option FrameId :=
  env.head?.filter fun id => (s.var? id name).isNone

/-- Declares the variable in the innermost frame, which must not have it yet. -/
def define (s : Store) (env : Env) (name : String) (v : Value) : Except NameFault Store :=
  match s.freeSlot? env name with
  | some id => .ok (s.setVar id name v)
  | none => .error (.alreadyDefined name)

/-- The names declared in the innermost frame, in the order of their characters. -/
def names (s : Store) (env : Env) : List String :=
  match env with
  | [] => []
  | id :: _ => (((s.frame? id).map Dict.names).getD []).mergeSort fun a b => decide (a ≤ b)

/-! ## Objects -/

/-- An identity that nothing has yet. -/
def freshSerial (s : Store) : Nat × Store := (s.nextSerial, { s with nextSerial := s.nextSerial + 1 })

/-- A new instance without fields. -/
def construct (s : Store) (cls : Class) : Instance × Store :=
  ({ id := s.fields.size, cls }, { s with fields := s.fields.push .empty })

def field? (s : Store) (i : Instance) (name : String) : Option Value :=
  s.fields[i.id]?.bind (·.get? name)

def setField (s : Store) (i : Instance) (name : String) (v : Value) : Store :=
  { s with fields := s.fields.modify i.id (·.insert name v) }

end Store

end Lox
