import Lox.Proofs.Scope.Lexical

/-!
# Where the nodes of a tree stand

All expressions, statements and functions in a tree, each with its position: the loops, functions and class
members that it lies in, and the local scopes around it.
-/

namespace Lox

/-- What a node can lie in. -/
inductive Enclosure where
  /-- The body of a loop. -/
  | loop
  /-- A declared function or a lambda. -/
  | function
  | member (superclass : Option Reference) (isStatic : Bool) (m : Method)

structure Position where
  /-- What the node lies in, the innermost first. -/
  within : List Enclosure := []
  scopes : Scopes := []

namespace Enclosure

/-- It has a function body of its own. -/
def isBody : Enclosure → Bool
  | .loop => false
  | .function => true
  | .member _ _ _ => true

def isMember : Enclosure → Bool
  | .loop => false
  | .function => false
  | .member _ _ _ => true

/-- An instance method named `init`. -/
def IsInitializer : Enclosure → Prop
  | .member _ false m => m.name.text = "init"
  | _ => False

end Enclosure

namespace Position

def enter (pos : Position) (e : Enclosure) : Position := { pos with within := e :: pos.within }

def inside (pos : Position) (s : LocalScope) : Position := { pos with scopes := s :: pos.scopes }

def declare (pos : Position) (names : List String) : Position := { pos with scopes := pos.scopes.declare names }

def enterInitializer (pos : Position) (name : String) : Position :=
  { pos with scopes := pos.scopes.enterInitializer name }

def derive (pos : Position) (decl : Stmt) (superclass : Option Reference) : Position :=
  { pos with scopes := pos.scopes.derive decl superclass }

/-- The function or member in whose body the node directly lies. -/
def body? (pos : Position) : Option Enclosure := pos.within.find? Enclosure.isBody

/-- The member of the innermost class around the node. -/
def member? (pos : Position) : Option Enclosure := pos.within.find? Enclosure.isMember

/-- A loop of the same function body lies around the node. -/
def InLoop (pos : Position) : Prop := .loop ∈ pos.within.takeWhile (!·.isBody)

/-- The innermost local scope declares the variable, and the node lies in its initializer. -/
def Initializes (pos : Position) (x : String) : Prop := ∃ s ∈ pos.scopes.head?, s.pending = some x

end Position

inductive Node where
  | expr (e : Expr)
  | stmt (st : Stmt)
  | routine (r : Routine)

/-! ## All nodes -/

mutual

def Expr.nodes : Expr → Position → List (Node × Position)
  | .literal value, pos => [(.expr (.literal value), pos)]
  | .unary op line operand, pos => (.expr (.unary op line operand), pos) :: operand.nodes pos
  | .binary op line left right, pos => (.expr (.binary op line left right), pos) :: (left.nodes pos ++ right.nodes pos)
  | .logical op line left right, pos => (.expr (.logical op line left right), pos) :: (left.nodes pos ++ right.nodes pos)
  | .group inner, pos => (.expr (.group inner), pos) :: inner.nodes pos
  | .var id name, pos => [(.expr (.var id name), pos)]
  | .assign id name value, pos => (.expr (.assign id name value), pos) :: value.nodes pos
  | .call callee line arguments, pos =>
    (.expr (.call callee line arguments), pos) :: (callee.nodes pos ++ nodesExprs arguments pos)
  | .lambda line routine, pos => (.expr (.lambda line routine), pos) :: routine.nodes (pos.enter .function)
  | .get object name, pos => (.expr (.get object name), pos) :: object.nodes pos
  | .set object name value, pos => (.expr (.set object name value), pos) :: (object.nodes pos ++ value.nodes pos)
  | .this id line, pos => [(.expr (.this id line), pos)]
  | .super id line method, pos => [(.expr (.super id line method), pos)]

def nodesExprs : List Expr → Position → List (Node × Position)
  | [], _ => []
  | e :: es, pos => e.nodes pos ++ nodesExprs es pos

/-- A superclass is a variable that stands inside no member. -/
def Stmt.nodes : Stmt → Position → List (Node × Position)
  | .expr e, pos => (.stmt (.expr e), pos) :: e.nodes pos
  | .print e, pos => (.stmt (.print e), pos) :: e.nodes pos
  | .varDecl name none, pos => [(.stmt (.varDecl name none), pos)]
  | .varDecl name (some e), pos => (.stmt (.varDecl name (some e)), pos) :: e.nodes (pos.enterInitializer name.text)
  | .block body, pos => (.stmt (.block body), pos) :: nodesStmts body (pos.inside (.ofBlock body))
  | .branch condition thenBranch none, pos =>
    (.stmt (.branch condition thenBranch none), pos) :: (condition.nodes pos ++ thenBranch.nodes pos)
  | .branch condition thenBranch (some elseBranch), pos =>
    (.stmt (.branch condition thenBranch (some elseBranch)), pos) ::
      (condition.nodes pos ++ thenBranch.nodes pos ++ elseBranch.nodes (pos.declare thenBranch.declares))
  | .loop condition body, pos =>
    (.stmt (.loop condition body), pos) :: (condition.nodes pos ++ body.nodes (pos.enter .loop))
  | .funDecl name routine, pos =>
    (.stmt (.funDecl name routine), pos) :: routine.nodes ((pos.declare [name.text]).enter .function)
  | .returns form line none, pos => [(.stmt (.returns form line none), pos)]
  | .returns form line (some e), pos => (.stmt (.returns form line (some e)), pos) :: e.nodes pos
  | .breaks line, pos => [(.stmt (.breaks line), pos)]
  | .classDecl name superclass methods statics, pos =>
    let decl : Stmt := .classDecl name superclass methods statics
    let around := pos.declare [name.text]
    let members := around.derive decl superclass
    (.stmt decl, pos) :: ((superclass.map fun ref => (Node.expr (.var ref.id ref.name), around)).toList ++
      nodesMethods statics superclass true members ++
      nodesMethods methods superclass false (members.inside (.ofReceiver decl)))

def nodesStmts : List Stmt → Position → List (Node × Position)
  | [], _ => []
  | st :: sts, pos => st.nodes pos ++ nodesStmts sts (pos.declare st.declares)

def Routine.nodes : Routine → Position → List (Node × Position)
  | ⟨params, body⟩, pos => (.routine ⟨params, body⟩, pos) :: nodesStmts body (pos.inside (.ofRoutine ⟨params, body⟩))

def Method.nodes : Method → (superclass : Option Reference) → (isStatic : Bool) → Position → List (Node × Position)
  | ⟨name, isGetter, routine⟩, superclass, isStatic, pos =>
    routine.nodes (pos.enter (.member superclass isStatic ⟨name, isGetter, routine⟩))

def nodesMethods : List Method → (superclass : Option Reference) → (isStatic : Bool) → Position → List (Node × Position)
  | [], _, _, _ => []
  | m :: ms, superclass, isStatic, pos => m.nodes superclass isStatic pos ++ nodesMethods ms superclass isStatic pos

end

/-- The nodes of a program. It lies in nothing. -/
def programNodes (program : List Stmt) : List (Node × Position) := nodesStmts program {}

/-! ## Local scopes -/

/-- The names that a statement declares in the scope in which it stands, in their order. -/
def Stmt.declaredNames : Stmt → List Name
  | .varDecl name _ => [name]
  | .funDecl name _ => [name]
  | .classDecl name _ _ _ => [name]
  | .branch _ thenBranch none => thenBranch.declaredNames
  | .branch _ thenBranch (some elseBranch) => thenBranch.declaredNames ++ elseBranch.declaredNames
  | .loop _ body => body.declaredNames
  | .expr _ => []
  | .print _ => []
  | .block _ => []
  | .returns _ _ _ => []
  | .breaks _ => []

def declaredNamesBy (sts : List Stmt) : List Name := sts.flatMap Stmt.declaredNames

theorem Stmt.declares_eq : ∀ st : Stmt, st.declares = (st.declaredNames.map Name.text).reverse
  | .varDecl _ _ => rfl
  | .funDecl _ _ => rfl
  | .classDecl _ _ _ _ => rfl
  | .branch _ thenBranch none => thenBranch.declares_eq
  | .branch _ thenBranch (some elseBranch) => by
    simp [Stmt.declares, Stmt.declaredNames, thenBranch.declares_eq, elseBranch.declares_eq]
  | .loop _ body => body.declares_eq
  | .expr _ => rfl
  | .print _ => rfl
  | .block _ => rfl
  | .returns _ _ _ => rfl
  | .breaks _ => rfl

theorem declaredBy_eq (sts : List Stmt) : declaredBy sts = ((declaredNamesBy sts).map Name.text).reverse := by
  induction sts with
  | nil => rfl
  | cons st sts ih => simp [declaredBy, declaredNamesBy, ih, st.declares_eq]

/-- A part of a tree that is one local scope: a block, or the parameters and the body of a function. -/
structure Region where
  /-- What stands directly in it, in the order of the text. -/
  declared : List Name
  /-- The occurrences in it, those in the scopes inside it too. -/
  occurrences : List Occurrence
  /-- How many scopes lie around it. -/
  level : Nat

def Node.region? : Node → Position → Option Region
  | .stmt (.block body), pos =>
    some ⟨declaredNamesBy body, occurrencesStmts body (.ofBlock body :: pos.scopes), pos.scopes.length⟩
  | .routine r, pos => some ⟨r.params ++ declaredNamesBy r.body, r.occurrences pos.scopes, pos.scopes.length⟩
  | _, _ => none

/-- The local scopes of a program, but for those that only hold `this` or `super`. -/
def programRegions (program : List Stmt) : List Region := (programNodes program).filterMap fun n => n.1.region? n.2

end Lox
