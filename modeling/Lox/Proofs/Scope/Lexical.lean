import Lox.Syntax.Basic

/-!
# Lexical scopes

Which local scopes lie around each occurrence of a variable in a tree, and which of its names each
of them declares before that occurrence. Nothing here is state: the scopes of an occurrence are
read off the tree.
-/

namespace Lox

/-- What opens a local scope. -/
inductive Opener where
  | block (body : List Stmt)
  /-- The parameters and the body. -/
  | routine (r : Routine)
  /-- `this`, around the instance methods of a class declaration. -/
  | receiver (decl : Stmt)
  /-- `super`, around all members of a class declaration. -/
  | parent (decl : Stmt)

structure LocalScope where
  opener : Opener
  /-- The names declared before the occurrence, the latest first. -/
  names : List String
  /-- The variable in whose initializer the occurrence lies. -/
  pending : Option String

namespace LocalScope

def ofBlock (body : List Stmt) : LocalScope := { opener := .block body, names := [], pending := none }

def ofRoutine (r : Routine) : LocalScope :=
  { opener := .routine r, names := (r.params.map Name.text).reverse, pending := none }

def ofReceiver (decl : Stmt) : LocalScope := { opener := .receiver decl, names := ["this"], pending := none }

def ofParent (decl : Stmt) : LocalScope := { opener := .parent decl, names := ["super"], pending := none }

end LocalScope

/-- Local scopes, the innermost first. What is in none of them is global. -/
abbrev Scopes := List LocalScope

namespace Scopes

/-- The names are declared in the innermost scope. -/
def declare (names : List String) : Scopes → Scopes
  | [] => []
  | s :: outer => { s with names := names ++ s.names } :: outer

/-- The variable is declared, and its initializer begins. -/
def enterInitializer (name : String) : Scopes → Scopes
  | [] => []
  | s :: outer => { s with names := name :: s.names, pending := some name } :: outer

/-- The scope of `super`, where there is a superclass. -/
def derive (decl : Stmt) (superclass : Option Reference) (outer : Scopes) : Scopes :=
  if superclass.isSome then .ofParent decl :: outer else outer

/-- How many scopes lie inside the innermost one that declares the name. -/
def depth? (scopes : Scopes) (name : String) : Option Nat := scopes.findIdx? (name ∈ ·.names)

@[simp] theorem declare_nil (scopes : Scopes) : declare [] scopes = scopes := by
  cases scopes <;> rfl

theorem declare_append (xs ys : List String) (scopes : Scopes) :
    declare ys (declare xs scopes) = declare (ys ++ xs) scopes := by
  cases scopes <;> simp [declare]

theorem depth?_cons_of_mem {s : LocalScope} {name : String} (h : name ∈ s.names) (outer : Scopes) :
    depth? (s :: outer) name = some 0 := by
  simp [depth?, List.findIdx?_cons, h]

theorem depth?_cons_of_not_mem {s : LocalScope} {name : String} (h : name ∉ s.names) (outer : Scopes) :
    depth? (s :: outer) name = (depth? outer name).map (· + 1) := by
  simp [depth?, List.findIdx?_cons, h]

end Scopes

/-- A node that stands for a variable, `this` or `super`, with the scopes around it. -/
structure Occurrence where
  id : NodeId
  name : String
  scopes : Scopes

namespace Occurrence

def depth? (o : Occurrence) : Option Nat := o.scopes.depth? o.name

/-- The scope `d` links out declares the name, and no scope inside it does. -/
def BoundAt (o : Occurrence) (d : Nat) : Prop :=
  (∃ s, o.scopes[d]? = some s ∧ o.name ∈ s.names) ∧ ∀ j < d, ∀ s, o.scopes[j]? = some s → o.name ∉ s.names

theorem depth?_eq_some_iff {o : Occurrence} {d : Nat} : o.depth? = some d ↔ o.BoundAt d := by
  unfold depth? Scopes.depth? BoundAt
  rw [List.findIdx?_eq_some_iff_getElem]
  constructor
  · intro h
    obtain ⟨h, hd, hj⟩ := h
    refine ⟨⟨o.scopes[d], List.getElem?_eq_getElem h, by simpa using hd⟩, ?_⟩
    intro j hjd s hs
    obtain ⟨hjl, rfl⟩ := List.getElem?_eq_some_iff.mp hs
    simpa using hj j hjd
  · intro h
    obtain ⟨⟨s, hs, hn⟩, hj⟩ := h
    obtain ⟨h, rfl⟩ := List.getElem?_eq_some_iff.mp hs
    refine ⟨h, by simpa using hn, fun j hjd => ?_⟩
    simpa using hj j hjd _ (List.getElem?_eq_getElem (Nat.lt_trans hjd h))

theorem depth?_eq_none_iff {o : Occurrence} : o.depth? = none ↔ ∀ s ∈ o.scopes, o.name ∉ s.names := by
  simp [depth?, Scopes.depth?, List.findIdx?_eq_none_iff]

end Occurrence

/-- The names that a statement declares in the scope in which it stands. -/
def Stmt.declares : Stmt → List String
  | .varDecl name _ => [name.text]
  | .funDecl name _ => [name.text]
  | .classDecl name _ _ _ => [name.text]
  | .branch _ thenBranch none => thenBranch.declares
  | .branch _ thenBranch (some elseBranch) => elseBranch.declares ++ thenBranch.declares
  | .loop _ body => body.declares
  | .expr _ => []
  | .print _ => []
  | .block _ => []
  | .returns _ _ _ => []
  | .breaks _ => []

def declaredBy : List Stmt → List String
  | [] => []
  | st :: sts => declaredBy sts ++ st.declares

/-! ## All occurrences, in the order in which they are met -/

mutual

def Expr.occurrences : Expr → Scopes → List Occurrence
  | .literal _, _ => []
  | .unary _ _ operand, scopes => operand.occurrences scopes
  | .binary _ _ left right, scopes => left.occurrences scopes ++ right.occurrences scopes
  | .logical _ _ left right, scopes => left.occurrences scopes ++ right.occurrences scopes
  | .group inner, scopes => inner.occurrences scopes
  | .var id name, scopes => [⟨id, name.text, scopes⟩]
  | .assign id name value, scopes => value.occurrences scopes ++ [⟨id, name.text, scopes⟩]
  | .call callee _ arguments, scopes => callee.occurrences scopes ++ occurrencesExprs arguments scopes
  | .lambda _ routine, scopes => routine.occurrences scopes
  | .get object _, scopes => object.occurrences scopes
  | .set object _ value, scopes => object.occurrences scopes ++ value.occurrences scopes
  | .this id _, scopes => [⟨id, "this", scopes⟩]
  | .super id _ _, scopes => [⟨id, "super", scopes⟩]

def occurrencesExprs : List Expr → Scopes → List Occurrence
  | [], _ => []
  | e :: es, scopes => e.occurrences scopes ++ occurrencesExprs es scopes

/-- A variable counts as declared before its initializer, a function before its body, and a class
before its superclass and members. -/
def Stmt.occurrences : Stmt → Scopes → List Occurrence
  | .expr e, scopes => e.occurrences scopes
  | .print e, scopes => e.occurrences scopes
  | .varDecl _ none, _ => []
  | .varDecl name (some e), scopes => e.occurrences (scopes.enterInitializer name.text)
  | .block body, scopes => occurrencesStmts body (.ofBlock body :: scopes)
  | .branch condition thenBranch none, scopes =>
    condition.occurrences scopes ++ thenBranch.occurrences scopes
  | .branch condition thenBranch (some elseBranch), scopes =>
    condition.occurrences scopes ++ thenBranch.occurrences scopes ++
      elseBranch.occurrences (scopes.declare thenBranch.declares)
  | .loop condition body, scopes => condition.occurrences scopes ++ body.occurrences scopes
  | .funDecl name routine, scopes => routine.occurrences (scopes.declare [name.text])
  | .returns _ _ none, _ => []
  | .returns _ _ (some e), scopes => e.occurrences scopes
  | .breaks _, _ => []
  | .classDecl name superclass methods statics, scopes =>
    let decl : Stmt := .classDecl name superclass methods statics
    let around := scopes.declare [name.text]
    let members := around.derive decl superclass
    (superclass.map fun ref => (⟨ref.id, ref.name.text, around⟩ : Occurrence)).toList ++
      occurrencesMethods statics members ++ occurrencesMethods methods (.ofReceiver decl :: members)

def occurrencesStmts : List Stmt → Scopes → List Occurrence
  | [], _ => []
  | st :: sts, scopes => st.occurrences scopes ++ occurrencesStmts sts (scopes.declare st.declares)

def Routine.occurrences : Routine → Scopes → List Occurrence
  | ⟨params, body⟩, scopes => occurrencesStmts body (.ofRoutine ⟨params, body⟩ :: scopes)

def Method.occurrences : Method → Scopes → List Occurrence
  | ⟨_, _, routine⟩, scopes => routine.occurrences scopes

def occurrencesMethods : List Method → Scopes → List Occurrence
  | [], _ => []
  | m :: ms, scopes => m.occurrences scopes ++ occurrencesMethods ms scopes

end

/-- The occurrences in a program. No local scope lies around a program. -/
def programOccurrences (program : List Stmt) : List Occurrence := occurrencesStmts program []

end Lox
