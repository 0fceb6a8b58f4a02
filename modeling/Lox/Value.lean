import Lox.Dict
import Lox.Diagnostic
import Lox.Syntax.Basic

/-!
# Values

Numbers, strings and truth values are equal by content. Functions, classes, bound methods and
instances have an identity: a serial number that is given out once. The variables that a function
sees and the fields of an instance are not in the value but in the store.
-/

namespace Lox

/-- Functions that the host provides. -/
inductive Native where
  | clock | read | print | breakpoint
deriving DecidableEq, Repr

namespace Native

def all : List Native := [.clock, .read, .print, .breakpoint]

def name : Native → String
  | clock => "clock"
  | read => "read"
  | print => "print"
  | breakpoint => "breakpoint"

def arity : Native → Nat
  | print => 1
  | _ => 0

end Native

abbrev FrameId := Nat

/-- The frames that code sees, the innermost first. -/
abbrev Env := List FrameId

/-- A routine with the frames around its declaration. -/
structure Closure where
  name : Name
  routine : Routine
  isGetter : Bool
  /-- Its calls give `this`. -/
  isInitializer : Bool
  env : Env

def Closure.arity (c : Closure) : Nat := c.routine.arity

structure FunctionObject where
  serial : Nat
  closure : Closure

/-- What one class declaration adds to the classes it inherits from. -/
structure ClassLayer where
  serial : Nat
  name : String
  methods : Dict FunctionObject
  statics : Dict FunctionObject

/-- A class with its ancestors, the nearest first. -/
structure Class where
  layer : ClassLayer
  ancestors : List ClassLayer

namespace Class

def name (c : Class) : String := c.layer.name

def serial (c : Class) : Nat := c.layer.serial

def lineage (c : Class) : List ClassLayer := c.layer :: c.ancestors

/-- The method of the nearest class that has one of this name. -/
def method? (c : Class) (name : String) : Option FunctionObject :=
  c.lineage.findSome? (·.methods.get? name)

def static? (c : Class) (name : String) : Option FunctionObject :=
  c.lineage.findSome? (·.statics.get? name)

def initializer? (c : Class) : Option FunctionObject := c.method? "init"

/-- A class is called with the arguments of its initializer. -/
def arity (c : Class) : Nat := (c.initializer?.map (·.closure.arity)).getD 0

end Class

/-- An object. Its fields are in the store under `id`. -/
structure Instance where
  id : Nat
  cls : Class

structure BoundMethod where
  serial : Nat
  receiver : Instance
  method : Closure

inductive Value where
  | nil
  | bool (b : Bool)
  | number (x : Float)
  | string (s : String)
  | native (fn : Native)
  | function (f : FunctionObject)
  | klass (c : Class)
  | bound (m : BoundMethod)
  | object (i : Instance)

/-- What happens when a value is called. -/
inductive Callee where
  | native (fn : Native)
  | closure (c : Closure)
  | construct (c : Class)

def Callee.arity : Callee → Nat
  | .native fn => fn.arity
  | .closure c => c.arity
  | .construct c => c.arity

namespace Value

def ofLiteral : Literal → Value
  | .nil => nil
  | .bool b => bool b
  | .number x => number x
  | .string s => string s

/-- Only `nil` and `false` do not count as true. -/
def isTruthy : Value → Bool
  | nil => false
  | bool b => b
  | _ => true

/-- What printing shows. -/
def text : Value → String
  | nil => "nil"
  | bool true => "true"
  | bool false => "false"
  | number x => Number.Form.value.text x
  | string s => s
  | native fn => "<native fn " ++ fn.name ++ ">"
  | function f => "<fn " ++ f.closure.name.text ++ ">"
  | klass c => "<class " ++ c.name ++ ">"
  | bound m => "<bound method " ++ m.receiver.cls.name ++ "." ++ m.method.name.text ++ ">"
  | object i => "<" ++ i.cls.name ++ " instance>"

/-- The equality of the language. A number that is not a number differs from itself. -/
def same : Value → Value → Bool
  | nil, nil => true
  | bool a, bool b => a == b
  | number x, number y => x == y
  | string s, string t => s == t
  | native a, native b => a == b
  | function f, function g => f.serial == g.serial
  | klass c, klass d => c.serial == d.serial
  | bound m, bound n => m.serial == n.serial
  | object i, object j => i.id == j.id
  | _, _ => false

def callee? : Value → Option Callee
  | native fn => some (.native fn)
  | function f => some (.closure f.closure)
  | klass c => some (.construct c)
  | bound m => some (.closure m.method)
  | _ => none

def arity? (v : Value) : Option Nat := v.callee?.map Callee.arity

end Value

/-- What the operator gives for one operand. -/
def Mark.applyUnary : Mark → Value → Except RuntimeFault Value
  | .bang, v => .ok (.bool (!v.isTruthy))
  | .minus, .number x => .ok (.number (-x))
  | .minus, _ => .error .operandNotNumber
  | _, _ => .error .invalidUnaryOperator

/-- Arithmetic and order. Nothing is divided by zero, of either sign. -/
def Mark.onNumbers (op : Mark) (x y : Float) : Except RuntimeFault Value :=
  match op with
  | .plus => .ok (.number (x + y))
  | .minus => .ok (.number (x - y))
  | .star => .ok (.number (x * y))
  | .slash => if y == 0 then .error .divisionByZero else .ok (.number (x / y))
  | .percent => if y == 0 then .error .divisionByZero else .ok (.number (Number.remainder x y))
  | .greater => .ok (.bool (decide (y < x)))
  | .greaterEqual => .ok (.bool (decide (y ≤ x)))
  | .less => .ok (.bool (decide (x < y)))
  | .lessEqual => .ok (.bool (decide (x ≤ y)))
  | _ => .error .invalidBinaryOperator

/-- What the operator gives for two operands. Any two values can be compared for equality, two
strings can be joined, and all else is for numbers. -/
def Mark.applyBinary (op : Mark) (left right : Value) : Except RuntimeFault Value :=
  match op, left, right with
  | .equalEqual, v, w => .ok (.bool (v.same w))
  | .bangEqual, v, w => .ok (.bool (!v.same w))
  | .plus, .string s, .string t => .ok (.string (s ++ t))
  | op, .number x, .number y => op.onNumbers x y
  | .plus, _, _ => .error .operandsNotAddable
  | _, _, _ => .error .operandsNotNumbers

/-- The right operand is not needed after this left one. -/
def LogicalOp.shortCircuits : LogicalOp → Value → Bool
  | .or, v => v.isTruthy
  | .and, v => !v.isTruthy

end Lox
