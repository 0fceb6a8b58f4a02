import Lox.Token

/-!
# Syntax trees

Expressions and statements of a program. A node that stands for a variable has an identity of its
own, so that two occurrences of one name can be told apart. Every node that an error can point at
has a line. An operator is the mark that was read for it; that some marks are no operators is for
the evaluation to find.
-/

namespace Lox

/-- The identity of an occurrence of a variable, of `this` or of `super`. -/
abbrev NodeId := Nat

/-- A name and the line on which it is written. -/
structure Name where
  text : String
  line : Nat
deriving DecidableEq, Repr

/-- The operators that may leave their right side unevaluated. -/
inductive LogicalOp where
  | and | or
deriving DecidableEq, Repr

def LogicalOp.symbol : LogicalOp → String
  | .and => "and"
  | .or => "or"

inductive Literal where
  | nil
  | bool (b : Bool)
  | number (x : Float)
  | string (s : String)
deriving DecidableEq

/-- How a value is returned: by the keyword, or as the expression that is a function's body. -/
inductive ReturnForm where
  | keyword | expressionBody
deriving DecidableEq, Repr

def ReturnForm.symbol : ReturnForm → String
  | .keyword => "return"
  | .expressionBody => ":"

/-- An occurrence of a variable. -/
structure Reference where
  id : NodeId
  name : Name
deriving DecidableEq, Repr

mutual

inductive Expr where
  | literal (value : Literal)
  | unary (op : Mark) (line : Nat) (operand : Expr)
  | binary (op : Mark) (line : Nat) (left right : Expr)
  | logical (op : LogicalOp) (line : Nat) (left right : Expr)
  | group (inner : Expr)
  | var (id : NodeId) (name : Name)
  | assign (id : NodeId) (name : Name) (value : Expr)
  /-- The line is that of the closing parenthesis. -/
  | call (callee : Expr) (line : Nat) (arguments : List Expr)
  /-- The line is that of `fun`. -/
  | lambda (line : Nat) (routine : Routine)
  | get (object : Expr) (name : Name)
  | set (object : Expr) (name : Name) (value : Expr)
  | this (id : NodeId) (line : Nat)
  | super (id : NodeId) (line : Nat) (method : Name)

inductive Stmt where
  | expr (e : Expr)
  | print (e : Expr)
  | varDecl (name : Name) (initializer : Option Expr)
  | block (body : List Stmt)
  | branch (condition : Expr) (thenBranch : Stmt) (elseBranch : Option Stmt)
  | loop (condition : Expr) (body : Stmt)
  | funDecl (name : Name) (routine : Routine)
  | returns (form : ReturnForm) (line : Nat) (value : Option Expr)
  | breaks (line : Nat)
  | classDecl (name : Name) (superclass : Option Reference) (methods statics : List Method)

/-- What functions, methods and lambdas have in common. -/
structure Routine where
  params : List Name
  body : List Stmt

/-- A member of a class. A getter has no parameter list and runs when it is read. -/
structure Method where
  name : Name
  isGetter : Bool
  routine : Routine

end

def Routine.arity (r : Routine) : Nat := r.params.length

/-- The line to blame for an expression; a literal has none. -/
def Expr.line : Expr → Nat
  | .literal _ => 0
  | .unary _ line _ => line
  | .binary _ line _ _ => line
  | .logical _ line _ _ => line
  | .group inner => inner.line
  | .var _ name => name.line
  | .assign _ name _ => name.line
  | .call _ line _ => line
  | .lambda line _ => line
  | .get _ name => name.line
  | .set _ name _ => name.line
  | .this _ line => line
  | .super _ line _ => line

end Lox
