import Lox.Proofs.Syntax.Proper
import Lox.Proofs.Scope.Nodes

/-!
# Code that does the same

Twins are the same code, but for the groups and the identities in it. Of two nodes that correspond it may be asked that they
are tied to each other, and of a scope in the first tree that it declares its names in a certain way.
-/

namespace Lox

/-- What is asked of twins. -/
structure Ties where
  /-- The identities of two nodes that correspond. -/
  ids : NodeId → NodeId → Prop
  /-- What a block declares, or a function with its parameters. -/
  scope : List Name → Prop

section
variable (T : Ties)

structure Reference.Twin (r r' : Reference) : Prop where
  ids : T.ids r.id r'.id
  name : r'.name = r.name

mutual

inductive Expr.Twin : Expr → Expr → Prop where
  | literal (v : Literal) : Expr.Twin (.literal v) (.literal v)
  | unary {op line e e'} : Expr.Twin e e' → Expr.Twin (.unary op line e) (.unary op line e')
  | binary {op line l l' r r'} : Expr.Twin l l' → Expr.Twin r r' → Expr.Twin (.binary op line l r) (.binary op line l' r')
  | logical {op line l l' r r'} : Expr.Twin l l' → Expr.Twin r r' → Expr.Twin (.logical op line l r) (.logical op line l' r')
  | groupLeft {e e'} : Expr.Twin e e' → Expr.Twin (.group e) e'
  | groupRight {e e'} : Expr.Twin e e' → Expr.Twin e (.group e')
  | var {id id' name} : T.ids id id' → Expr.Twin (.var id name) (.var id' name)
  | assign {id id' name e e'} : Expr.Twin e e' → T.ids id id' → Expr.Twin (.assign id name e) (.assign id' name e')
  | call {f f' line args args'} : Expr.Twin f f' → TwinExprs args args' → Expr.Twin (.call f line args) (.call f' line args')
  | lambda {line r r'} : Routine.Twin r r' → Expr.Twin (.lambda line r) (.lambda line r')
  | get {e e' name} : Expr.Twin e e' → Expr.Twin (.get e name) (.get e' name)
  | set {e e' name v v'} : Expr.Twin e e' → Expr.Twin v v' → Expr.Twin (.set e name v) (.set e' name v')
  | this {id id' line} : T.ids id id' → Expr.Twin (.this id line) (.this id' line)
  | super {id id' line method} : T.ids id id' → Expr.Twin (.super id line method) (.super id' line method)

inductive TwinExprs : List Expr → List Expr → Prop where
  | nil : TwinExprs [] []
  | cons {e e' es es'} : Expr.Twin e e' → TwinExprs es es' → TwinExprs (e :: es) (e' :: es')

inductive Stmt.Twin : Stmt → Stmt → Prop where
  | expr {e e'} : Expr.Twin e e' → Stmt.Twin (.expr e) (.expr e')
  | print {e e'} : Expr.Twin e e' → Stmt.Twin (.print e) (.print e')
  | declared (name : Name) : Stmt.Twin (.varDecl name none) (.varDecl name none)
  | initialized {name e e'} : Expr.Twin e e' → Stmt.Twin (.varDecl name (some e)) (.varDecl name (some e'))
  | block {sts sts'} : T.scope (declaredNamesBy sts) → TwinStmts sts sts' → Stmt.Twin (.block sts) (.block sts')
  | branch {c c' st st'} : Expr.Twin c c' → Stmt.Twin st st' → Stmt.Twin (.branch c st none) (.branch c' st' none)
  | branches {c c' st st' other other'} : Expr.Twin c c' → Stmt.Twin st st' → Stmt.Twin other other' →
    Stmt.Twin (.branch c st (some other)) (.branch c' st' (some other'))
  | loop {c c' st st'} : Expr.Twin c c' → Stmt.Twin st st' → Stmt.Twin (.loop c st) (.loop c' st')
  | funDecl {name r r'} : Routine.Twin r r' → Stmt.Twin (.funDecl name r) (.funDecl name r')
  | returns (form : ReturnForm) (line : Nat) : Stmt.Twin (.returns form line none) (.returns form line none)
  | returned {form line e e'} : Expr.Twin e e' → Stmt.Twin (.returns form line (some e)) (.returns form line (some e'))
  | breaks (line : Nat) : Stmt.Twin (.breaks line) (.breaks line)
  | classDecl {name ref ref' ms ms' ss ss'} : Option.Rel (Reference.Twin T) ref ref' → TwinMethods ms ms' →
    TwinMethods ss ss' → Stmt.Twin (.classDecl name ref ms ss) (.classDecl name ref' ms' ss')

inductive TwinStmts : List Stmt → List Stmt → Prop where
  | nil : TwinStmts [] []
  | cons {st st' sts sts'} : Stmt.Twin st st' → TwinStmts sts sts' → TwinStmts (st :: sts) (st' :: sts')

inductive Routine.Twin : Routine → Routine → Prop where
  | mk {params body body'} : T.scope (params ++ declaredNamesBy body) → TwinStmts body body' →
    Routine.Twin ⟨params, body⟩ ⟨params, body'⟩

inductive TwinMethods : List Method → List Method → Prop where
  | nil : TwinMethods [] []
  | cons {name isGetter r r' ms ms'} : Routine.Twin r r' → TwinMethods ms ms' →
    TwinMethods (⟨name, isGetter, r⟩ :: ms) (⟨name, isGetter, r'⟩ :: ms')

end

end

variable {T : Ties}

theorem Routine.Twin.params {r r' : Routine} : r.Twin T r' → r'.params = r.params
  | .mk _ _ => rfl

theorem Routine.Twin.body {r r' : Routine} : r.Twin T r' → TwinStmts T r.body r'.body
  | .mk _ h => h

theorem Routine.Twin.scope {r r' : Routine} : r.Twin T r' → T.scope (r.params ++ declaredNamesBy r.body)
  | .mk h _ => h

theorem TwinStmts.of_append : ∀ {before after sts : List Stmt}, TwinStmts T (before ++ after) sts →
    ∃ before' after', TwinStmts T before before' ∧ TwinStmts T after after'
  | [], _, sts, h => ⟨[], sts, .nil, h⟩
  | _ :: _, _, _, .cons hst h =>
    have ⟨before', after', hb, ha⟩ := TwinStmts.of_append h
    ⟨_ :: before', after', .cons hst hb, ha⟩

/-! ## Every piece of code is its own twin -/

/-- The nodes are tied to themselves, and the scopes declare their names as asked. -/
structure Ties.Suit (T : Ties) (ids : List NodeId) (nodes : List (Node × Position)) : Prop where
  ids : ∀ i ∈ ids, T.ids i i
  scopes : ∀ n ∈ nodes, ∀ s ∈ n.1.region? n.2, T.scope s.declared

namespace Ties.Suit

variable {is js : List NodeId} {ns ms : List (Node × Position)} {n : Node × Position}

theorem left (h : T.Suit (is ++ js) (ns ++ ms)) : T.Suit is ns :=
  ⟨fun i hi => h.ids i (List.mem_append_left _ hi), fun n hn => h.scopes n (List.mem_append_left _ hn)⟩

theorem right (h : T.Suit (is ++ js) (ns ++ ms)) : T.Suit js ms :=
  ⟨fun i hi => h.ids i (List.mem_append_right _ hi), fun n hn => h.scopes n (List.mem_append_right _ hn)⟩

theorem tail (h : T.Suit is (n :: ns)) : T.Suit is ns := ⟨h.ids, fun n hn => h.scopes n (.tail _ hn)⟩

theorem ids_left (h : T.Suit (is ++ js) ns) : T.Suit is ns := ⟨fun i hi => h.ids i (List.mem_append_left _ hi), h.scopes⟩

end Ties.Suit

mutual

theorem Expr.twin_self : ∀ (e : Expr) {pos : Position}, T.Suit e.ids (e.nodes pos) → e.Twin T e
  | .literal v, _, _ => .literal v
  | .unary _ _ e, _, h => .unary (e.twin_self h.tail)
  | .binary _ _ l r, _, h => .binary (l.twin_self h.tail.left) (r.twin_self h.tail.right)
  | .logical _ _ l r, _, h => .logical (l.twin_self h.tail.left) (r.twin_self h.tail.right)
  | .group e, _, h => .groupLeft (.groupRight (e.twin_self h.tail))
  | .var _ _, _, h => .var (h.ids _ (.head _))
  | .assign id _ e, _, h =>
    .assign (e.twin_self h.tail.ids_left) (h.ids id (List.mem_append_right _ (.head _)))
  | .call f _ args, _, h => .call (f.twin_self h.tail.left) (twinExprs_self args h.tail.right)
  | .lambda _ r, _, h => .lambda (r.twin_self h.tail)
  | .get e _, _, h => .get (e.twin_self h.tail)
  | .set e _ v, _, h => .set (e.twin_self h.tail.left) (v.twin_self h.tail.right)
  | .this _ _, _, h => .this (h.ids _ (.head _))
  | .super _ _ _, _, h => .super (h.ids _ (.head _))

theorem twinExprs_self : ∀ (es : List Expr) {pos : Position}, T.Suit (idsExprs es) (nodesExprs es pos) → TwinExprs T es es
  | [], _, _ => .nil
  | e :: es, _, h => .cons (e.twin_self h.left) (twinExprs_self es h.right)

theorem Stmt.twin_self : ∀ (st : Stmt) {pos : Position}, T.Suit st.ids (st.nodes pos) → st.Twin T st
  | .expr e, _, h => .expr (e.twin_self h.tail)
  | .print e, _, h => .print (e.twin_self h.tail)
  | .varDecl name none, _, _ => .declared name
  | .varDecl _ (some e), _, h => .initialized (e.twin_self h.tail)
  | .block sts, _, h => .block (h.scopes _ (.head _) _ rfl) (twinStmts_self sts h.tail)
  | .branch c st none, _, h => .branch (c.twin_self h.tail.left) (st.twin_self h.tail.right)
  | .branch c st (some other), _, h =>
    .branches (c.twin_self h.tail.left.left) (st.twin_self h.tail.left.right) (other.twin_self h.tail.right)
  | .loop c st, _, h => .loop (c.twin_self h.tail.left) (st.twin_self h.tail.right)
  | .funDecl _ r, _, h => .funDecl (r.twin_self h.tail)
  | .returns form line none, _, _ => .returns form line
  | .returns _ _ (some e), _, h => .returned (e.twin_self h.tail)
  | .breaks line, _, _ => .breaks line
  | .classDecl _ none ms ss, _, h =>
    .classDecl .none (twinMethods_self ms h.tail.right) (twinMethods_self ss h.tail.left.right)
  | .classDecl _ (some ref) ms ss, _, h =>
    .classDecl (.some ⟨h.ids ref.id (.head _), rfl⟩) (twinMethods_self ms h.tail.right) (twinMethods_self ss h.tail.left.right)

theorem twinStmts_self : ∀ (sts : List Stmt) {pos : Position}, T.Suit (idsStmts sts) (nodesStmts sts pos) → TwinStmts T sts sts
  | [], _, _ => .nil
  | st :: sts, _, h => .cons (st.twin_self h.left) (twinStmts_self sts h.right)

theorem Routine.twin_self : ∀ (r : Routine) {pos : Position}, T.Suit r.ids (r.nodes pos) → r.Twin T r
  | ⟨_, body⟩, _, h => .mk (h.scopes _ (.head _) _ rfl) (twinStmts_self body h.tail)

theorem twinMethods_self : ∀ (ms : List Method) {superclass : Option Reference} {isStatic : Bool} {pos : Position},
    T.Suit (idsMethods ms) (nodesMethods ms superclass isStatic pos) → TwinMethods T ms ms
  | [], _, _, _, _ => .nil
  | ⟨_, _, r⟩ :: ms, _, _, _, h => .cons (r.twin_self h.left) (twinMethods_self ms h.right)

end

end Lox
