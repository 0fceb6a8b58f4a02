import Lox.Proofs.Syntax.Proper
import Lox.Proofs.Syntax.Relined
import Lox.Syntax.Fresh

/-!
# Trees with other lines and identities

The same code with every line in it replaced, and every identity. A copy with fresh identities can be taken before or
after, if the identities are moved.
-/

namespace Lox

/-- Other lines and other identities for the same code. -/
structure Recoding where
  lineOf : Nat → Nat
  idOf : NodeId → NodeId

namespace Recoding

def same : Recoding := ⟨id, id⟩

/-- First the second one, then the first one. -/
def comp (σ ρ : Recoding) : Recoding := ⟨σ.lineOf ∘ ρ.lineOf, σ.idOf ∘ ρ.idOf⟩

end Recoding

variable (ρ σ : Recoding)

def Reference.recoded (ref : Reference) : Reference := { id := ρ.idOf ref.id, name := ref.name.relined ρ.lineOf }

mutual

def Expr.recoded : Expr → Expr
  | .literal value => .literal value
  | .unary op line operand => .unary op (ρ.lineOf line) operand.recoded
  | .binary op line left right => .binary op (ρ.lineOf line) left.recoded right.recoded
  | .logical op line left right => .logical op (ρ.lineOf line) left.recoded right.recoded
  | .group inner => .group inner.recoded
  | .var id name => .var (ρ.idOf id) (name.relined ρ.lineOf)
  | .assign id name value => .assign (ρ.idOf id) (name.relined ρ.lineOf) value.recoded
  | .call callee line arguments => .call callee.recoded (ρ.lineOf line) (recodedExprs arguments)
  | .lambda line routine => .lambda (ρ.lineOf line) routine.recoded
  | .get object name => .get object.recoded (name.relined ρ.lineOf)
  | .set object name value => .set object.recoded (name.relined ρ.lineOf) value.recoded
  | .this id line => .this (ρ.idOf id) (ρ.lineOf line)
  | .super id line method => .super (ρ.idOf id) (ρ.lineOf line) (method.relined ρ.lineOf)

def recodedExprs : List Expr → List Expr
  | [] => []
  | e :: es => e.recoded :: recodedExprs es

def Stmt.recoded : Stmt → Stmt
  | .expr e => .expr e.recoded
  | .print e => .print e.recoded
  | .varDecl name none => .varDecl (name.relined ρ.lineOf) none
  | .varDecl name (some e) => .varDecl (name.relined ρ.lineOf) (some e.recoded)
  | .block body => .block (recodedStmts body)
  | .branch condition thenBranch none => .branch condition.recoded thenBranch.recoded none
  | .branch condition thenBranch (some elseBranch) =>
    .branch condition.recoded thenBranch.recoded (some elseBranch.recoded)
  | .loop condition body => .loop condition.recoded body.recoded
  | .funDecl name routine => .funDecl (name.relined ρ.lineOf) routine.recoded
  | .returns form line none => .returns form (ρ.lineOf line) none
  | .returns form line (some e) => .returns form (ρ.lineOf line) (some e.recoded)
  | .breaks line => .breaks (ρ.lineOf line)
  | .classDecl name superclass methods statics =>
    .classDecl (name.relined ρ.lineOf) (superclass.map (Reference.recoded ρ)) (recodedMethods methods) (recodedMethods statics)

def recodedStmts : List Stmt → List Stmt
  | [] => []
  | st :: sts => st.recoded :: recodedStmts sts

def Routine.recoded : Routine → Routine
  | ⟨params, body⟩ => ⟨params.map (Name.relined ρ.lineOf), recodedStmts body⟩

def Method.recoded : Method → Method
  | ⟨name, isGetter, routine⟩ => ⟨name.relined ρ.lineOf, isGetter, routine.recoded⟩

def recodedMethods : List Method → List Method
  | [] => []
  | m :: ms => m.recoded :: recodedMethods ms

end

/-! ## Code that stays -/

mutual

@[simp] theorem Expr.recoded_same : ∀ e : Expr, e.recoded .same = e
  | .literal _ => rfl
  | .unary _ _ e => congrArg (Expr.unary _ _) e.recoded_same
  | .binary _ _ l r => congrArg₂ (Expr.binary _ _) l.recoded_same r.recoded_same
  | .logical _ _ l r => congrArg₂ (Expr.logical _ _) l.recoded_same r.recoded_same
  | .group e => congrArg Expr.group e.recoded_same
  | .var _ _ => rfl
  | .assign _ _ e => congrArg (Expr.assign _ _) e.recoded_same
  | .call e _ es => congrArg₂ (Expr.call · _ ·) e.recoded_same (recodedExprs_same es)
  | .lambda _ r => congrArg (Expr.lambda _) r.recoded_same
  | .get e _ => congrArg (Expr.get · _) e.recoded_same
  | .set e _ v => congrArg₂ (Expr.set · _ ·) e.recoded_same v.recoded_same
  | .this _ _ => rfl
  | .super _ _ _ => rfl

@[simp] theorem recodedExprs_same : ∀ es : List Expr, recodedExprs .same es = es
  | [] => rfl
  | e :: es => congrArg₂ List.cons e.recoded_same (recodedExprs_same es)

@[simp] theorem Stmt.recoded_same : ∀ st : Stmt, st.recoded .same = st
  | .expr e => congrArg Stmt.expr e.recoded_same
  | .print e => congrArg Stmt.print e.recoded_same
  | .varDecl _ none => rfl
  | .varDecl _ (some e) => congrArg (fun e => Stmt.varDecl _ (some e)) e.recoded_same
  | .block sts => congrArg Stmt.block (recodedStmts_same sts)
  | .branch c st none => congrArg₂ (Stmt.branch · · none) c.recoded_same st.recoded_same
  | .branch c st (some st') => by rw [Stmt.recoded, c.recoded_same, st.recoded_same, st'.recoded_same]
  | .loop c st => congrArg₂ Stmt.loop c.recoded_same st.recoded_same
  | .funDecl _ r => congrArg (Stmt.funDecl _) r.recoded_same
  | .returns _ _ none => rfl
  | .returns _ _ (some e) => congrArg (fun e => Stmt.returns _ _ (some e)) e.recoded_same
  | .breaks _ => rfl
  | .classDecl _ none ms ss => congrArg₂ (Stmt.classDecl _ none · ·) (recodedMethods_same ms) (recodedMethods_same ss)
  | .classDecl _ (some ref) ms ss =>
    congrArg₂ (Stmt.classDecl _ (some ref) · ·) (recodedMethods_same ms) (recodedMethods_same ss)

@[simp] theorem recodedStmts_same : ∀ sts : List Stmt, recodedStmts .same sts = sts
  | [] => rfl
  | st :: sts => congrArg₂ List.cons st.recoded_same (recodedStmts_same sts)

@[simp] theorem Routine.recoded_same : ∀ r : Routine, r.recoded .same = r
  | ⟨params, body⟩ => congrArg₂ Routine.mk (List.map_id params) (recodedStmts_same body)

@[simp] theorem Method.recoded_same : ∀ m : Method, m.recoded .same = m
  | ⟨_, _, r⟩ => congrArg (Method.mk _ _) r.recoded_same

@[simp] theorem recodedMethods_same : ∀ ms : List Method, recodedMethods .same ms = ms
  | [] => rfl
  | m :: ms => congrArg₂ List.cons m.recoded_same (recodedMethods_same ms)

end

/-! ## Code replaced twice -/

mutual

theorem Expr.recoded_comp : ∀ e : Expr, (e.recoded ρ).recoded σ = e.recoded (σ.comp ρ)
  | .literal _ => rfl
  | .unary _ _ e => congrArg (Expr.unary _ _) e.recoded_comp
  | .binary _ _ l r => congrArg₂ (Expr.binary _ _) l.recoded_comp r.recoded_comp
  | .logical _ _ l r => congrArg₂ (Expr.logical _ _) l.recoded_comp r.recoded_comp
  | .group e => congrArg Expr.group e.recoded_comp
  | .var _ _ => rfl
  | .assign _ _ e => congrArg (Expr.assign _ _) e.recoded_comp
  | .call e _ es => congrArg₂ (Expr.call · _ ·) e.recoded_comp (recodedExprs_comp es)
  | .lambda _ r => congrArg (Expr.lambda _) r.recoded_comp
  | .get e _ => congrArg (Expr.get · _) e.recoded_comp
  | .set e _ v => congrArg₂ (Expr.set · _ ·) e.recoded_comp v.recoded_comp
  | .this _ _ => rfl
  | .super _ _ _ => rfl

theorem recodedExprs_comp : ∀ es : List Expr, recodedExprs σ (recodedExprs ρ es) = recodedExprs (σ.comp ρ) es
  | [] => rfl
  | e :: es => congrArg₂ List.cons e.recoded_comp (recodedExprs_comp es)

theorem Stmt.recoded_comp : ∀ st : Stmt, (st.recoded ρ).recoded σ = st.recoded (σ.comp ρ)
  | .expr e => congrArg Stmt.expr e.recoded_comp
  | .print e => congrArg Stmt.print e.recoded_comp
  | .varDecl _ none => rfl
  | .varDecl _ (some e) => congrArg (fun e => Stmt.varDecl _ (some e)) e.recoded_comp
  | .block sts => congrArg Stmt.block (recodedStmts_comp sts)
  | .branch c st none => congrArg₂ (Stmt.branch · · none) c.recoded_comp st.recoded_comp
  | .branch c st (some st') => by rw [Stmt.recoded, Stmt.recoded, Stmt.recoded, c.recoded_comp, st.recoded_comp, st'.recoded_comp]
  | .loop c st => congrArg₂ Stmt.loop c.recoded_comp st.recoded_comp
  | .funDecl _ r => congrArg (Stmt.funDecl _) r.recoded_comp
  | .returns _ _ none => rfl
  | .returns _ _ (some e) => congrArg (fun e => Stmt.returns _ _ (some e)) e.recoded_comp
  | .breaks _ => rfl
  | .classDecl _ none ms ss => congrArg₂ (Stmt.classDecl _ none · ·) (recodedMethods_comp ms) (recodedMethods_comp ss)
  | .classDecl _ (some _) ms ss => congrArg₂ (Stmt.classDecl _ _ · ·) (recodedMethods_comp ms) (recodedMethods_comp ss)

theorem recodedStmts_comp : ∀ sts : List Stmt, recodedStmts σ (recodedStmts ρ sts) = recodedStmts (σ.comp ρ) sts
  | [] => rfl
  | st :: sts => congrArg₂ List.cons st.recoded_comp (recodedStmts_comp sts)

theorem Routine.recoded_comp : ∀ r : Routine, (r.recoded ρ).recoded σ = r.recoded (σ.comp ρ)
  | ⟨_, body⟩ => congrArg₂ Routine.mk List.map_map (recodedStmts_comp body)

theorem Method.recoded_comp : ∀ m : Method, (m.recoded ρ).recoded σ = m.recoded (σ.comp ρ)
  | ⟨_, _, r⟩ => congrArg (Method.mk _ _) r.recoded_comp

theorem recodedMethods_comp : ∀ ms : List Method, recodedMethods σ (recodedMethods ρ ms) = recodedMethods (σ.comp ρ) ms
  | [] => rfl
  | m :: ms => congrArg₂ List.cons m.recoded_comp (recodedMethods_comp ms)

end

/-! ## Identities that do not stand in the code -/

section
variable {f : Nat → Nat} {g g' : NodeId → NodeId}

theorem agree_append {xs ys : List NodeId} (h : ∀ id ∈ xs ++ ys, g id = g' id) :
    (∀ id ∈ xs, g id = g' id) ∧ ∀ id ∈ ys, g id = g' id := List.forall_mem_append.mp h

mutual

theorem Expr.recoded_congr : ∀ {e : Expr}, (∀ id ∈ e.ids, g id = g' id) → e.recoded ⟨f, g⟩ = e.recoded ⟨f, g'⟩
  | .literal _, _ => rfl
  | .unary _ _ e, h => congrArg (Expr.unary _ _) (e.recoded_congr h)
  | .binary _ _ l r, h =>
    congrArg₂ (Expr.binary _ _) (l.recoded_congr (agree_append h).1) (r.recoded_congr (agree_append h).2)
  | .logical _ _ l r, h =>
    congrArg₂ (Expr.logical _ _) (l.recoded_congr (agree_append h).1) (r.recoded_congr (agree_append h).2)
  | .group e, h => congrArg Expr.group (e.recoded_congr h)
  | .var _ _, h => congrArg (Expr.var · _) (h _ (.head _))
  | .assign _ _ e, h =>
    congrArg₂ (Expr.assign · _ ·) ((agree_append h).2 _ (.head _)) (e.recoded_congr (agree_append h).1)
  | .call e _ es, h =>
    congrArg₂ (Expr.call · _ ·) (e.recoded_congr (agree_append h).1) (recodedExprs_congr es (agree_append h).2)
  | .lambda _ r, h => congrArg (Expr.lambda _) (r.recoded_congr h)
  | .get e _, h => congrArg (Expr.get · _) (e.recoded_congr h)
  | .set e _ v, h => congrArg₂ (Expr.set · _ ·) (e.recoded_congr (agree_append h).1) (v.recoded_congr (agree_append h).2)
  | .this _ _, h => congrArg (Expr.this · _) (h _ (.head _))
  | .super _ _ _, h => congrArg (Expr.super · _ _) (h _ (.head _))

theorem recodedExprs_congr : ∀ es : List Expr, (∀ id ∈ idsExprs es, g id = g' id) →
    recodedExprs ⟨f, g⟩ es = recodedExprs ⟨f, g'⟩ es
  | [], _ => rfl
  | e :: es, h =>
    congrArg₂ List.cons (e.recoded_congr (agree_append h).1) (recodedExprs_congr es (agree_append h).2)

theorem Stmt.recoded_congr : ∀ {st : Stmt}, (∀ id ∈ st.ids, g id = g' id) → st.recoded ⟨f, g⟩ = st.recoded ⟨f, g'⟩
  | .expr e, h => congrArg Stmt.expr (e.recoded_congr h)
  | .print e, h => congrArg Stmt.print (e.recoded_congr h)
  | .varDecl _ none, _ => rfl
  | .varDecl _ (some e), h => congrArg (fun e => Stmt.varDecl _ (some e)) (e.recoded_congr h)
  | .block sts, h => congrArg Stmt.block (recodedStmts_congr sts h)
  | .branch c st none, h =>
    congrArg₂ (Stmt.branch · · none) (c.recoded_congr (agree_append h).1) (st.recoded_congr (agree_append h).2)
  | .branch c st (some st'), h => by
    obtain ⟨h, helse⟩ := agree_append h
    rw [Stmt.recoded, Stmt.recoded, c.recoded_congr (agree_append h).1, st.recoded_congr (agree_append h).2,
      st'.recoded_congr helse]
  | .loop c st, h => congrArg₂ Stmt.loop (c.recoded_congr (agree_append h).1) (st.recoded_congr (agree_append h).2)
  | .funDecl _ r, h => congrArg (Stmt.funDecl _) (r.recoded_congr h)
  | .returns _ _ none, _ => rfl
  | .returns _ _ (some e), h => congrArg (fun e => Stmt.returns _ _ (some e)) (e.recoded_congr h)
  | .breaks _, _ => rfl
  | .classDecl _ superclass ms ss, h => by
    obtain ⟨h, hms⟩ := agree_append h
    obtain ⟨hsuper, hss⟩ := agree_append h
    have href : superclass.map (Reference.recoded ⟨f, g⟩) = superclass.map (Reference.recoded ⟨f, g'⟩) := by
      cases superclass with
      | none => rfl
      | some ref => exact congrArg (fun id => some (Reference.mk id _)) (hsuper _ (.head _))
    rw [Stmt.recoded, Stmt.recoded, href, recodedMethods_congr ms hms, recodedMethods_congr ss hss]

theorem recodedStmts_congr : ∀ sts : List Stmt, (∀ id ∈ idsStmts sts, g id = g' id) →
    recodedStmts ⟨f, g⟩ sts = recodedStmts ⟨f, g'⟩ sts
  | [], _ => rfl
  | st :: sts, h =>
    congrArg₂ List.cons (st.recoded_congr (agree_append h).1) (recodedStmts_congr sts (agree_append h).2)

theorem Routine.recoded_congr : ∀ {r : Routine}, (∀ id ∈ r.ids, g id = g' id) → r.recoded ⟨f, g⟩ = r.recoded ⟨f, g'⟩
  | ⟨_, body⟩, h => congrArg (Routine.mk _) (recodedStmts_congr body h)

theorem Method.recoded_congr : ∀ {m : Method}, (∀ id ∈ m.ids, g id = g' id) → m.recoded ⟨f, g⟩ = m.recoded ⟨f, g'⟩
  | ⟨_, _, r⟩, h => congrArg (Method.mk _ _) (r.recoded_congr h)

theorem recodedMethods_congr : ∀ ms : List Method, (∀ id ∈ idsMethods ms, g id = g' id) →
    recodedMethods ⟨f, g⟩ ms = recodedMethods ⟨f, g'⟩ ms
  | [], _ => rfl
  | m :: ms, h =>
    congrArg₂ List.cons (m.recoded_congr (agree_append h).1) (recodedMethods_congr ms (agree_append h).2)

end

end

/-! ## Copies with fresh identities -/

section
variable (f : Nat → Nat) (k : Nat)

mutual

theorem Expr.fresh_recoded : ∀ (e : Expr) (n : NodeId),
    (e.recoded ⟨f, (· + k)⟩).fresh (n + k) = ((e.fresh n).1.recoded ⟨f, (· + k)⟩, (e.fresh n).2 + k)
  | .literal _, _ => rfl
  | .unary _ _ e, n => by simp only [Expr.recoded, Expr.fresh, e.fresh_recoded]
  | .binary _ _ l r, n => by simp only [Expr.recoded, Expr.fresh, l.fresh_recoded, r.fresh_recoded]
  | .logical _ _ l r, n => by simp only [Expr.recoded, Expr.fresh, l.fresh_recoded, r.fresh_recoded]
  | .group e, n => by simp only [Expr.recoded, Expr.fresh, e.fresh_recoded]
  | .var _ _, n => by simp only [Expr.recoded, Expr.fresh, Nat.add_right_comm n k]
  | .assign _ _ e, n => by simp only [Expr.recoded, Expr.fresh, e.fresh_recoded, Nat.add_right_comm _ k]
  | .call e _ es, n => by simp only [Expr.recoded, Expr.fresh, e.fresh_recoded, freshExprs_recoded es]
  | .lambda _ r, n => by simp only [Expr.recoded, Expr.fresh, r.fresh_recoded]
  | .get e _, n => by simp only [Expr.recoded, Expr.fresh, e.fresh_recoded]
  | .set e _ v, n => by simp only [Expr.recoded, Expr.fresh, e.fresh_recoded, v.fresh_recoded]
  | .this _ _, n => by simp only [Expr.recoded, Expr.fresh, Nat.add_right_comm n k]
  | .super _ _ _, n => by simp only [Expr.recoded, Expr.fresh, Nat.add_right_comm n k]

theorem freshExprs_recoded : ∀ (es : List Expr) (n : NodeId),
    freshExprs (recodedExprs ⟨f, (· + k)⟩ es) (n + k) = (recodedExprs ⟨f, (· + k)⟩ (freshExprs es n).1, (freshExprs es n).2 + k)
  | [], _ => rfl
  | e :: es, n => by simp only [recodedExprs, freshExprs, e.fresh_recoded, freshExprs_recoded es]

theorem Stmt.fresh_recoded : ∀ (st : Stmt) (n : NodeId),
    (st.recoded ⟨f, (· + k)⟩).fresh (n + k) = ((st.fresh n).1.recoded ⟨f, (· + k)⟩, (st.fresh n).2 + k)
  | .expr e, n => by simp only [Stmt.recoded, Stmt.fresh, e.fresh_recoded]
  | .print e, n => by simp only [Stmt.recoded, Stmt.fresh, e.fresh_recoded]
  | .varDecl _ none, _ => rfl
  | .varDecl _ (some e), n => by simp only [Stmt.recoded, Stmt.fresh, e.fresh_recoded]
  | .block sts, n => by simp only [Stmt.recoded, Stmt.fresh, freshStmts_recoded sts]
  | .branch c st none, n => by simp only [Stmt.recoded, Stmt.fresh, c.fresh_recoded, st.fresh_recoded]
  | .branch c st (some st'), n => by
    simp only [Stmt.recoded, Stmt.fresh, c.fresh_recoded, st.fresh_recoded, st'.fresh_recoded]
  | .loop c st, n => by simp only [Stmt.recoded, Stmt.fresh, c.fresh_recoded, st.fresh_recoded]
  | .funDecl _ r, n => by simp only [Stmt.recoded, Stmt.fresh, r.fresh_recoded]
  | .returns _ _ none, _ => rfl
  | .returns _ _ (some e), n => by simp only [Stmt.recoded, Stmt.fresh, e.fresh_recoded]
  | .breaks _, _ => rfl
  | .classDecl _ none ms ss, n => by
    simp only [Stmt.recoded, Option.map_none, Stmt.fresh, freshMethods_recoded ms, freshMethods_recoded ss]
  | .classDecl _ (some _) ms ss, n => by
    simp only [Stmt.recoded, Option.map_some, Stmt.fresh, Nat.add_right_comm n k, freshMethods_recoded ms,
      freshMethods_recoded ss]
    rfl

theorem freshStmts_recoded : ∀ (sts : List Stmt) (n : NodeId),
    freshStmts (recodedStmts ⟨f, (· + k)⟩ sts) (n + k) =
      (recodedStmts ⟨f, (· + k)⟩ (freshStmts sts n).1, (freshStmts sts n).2 + k)
  | [], _ => rfl
  | st :: sts, n => by simp only [recodedStmts, freshStmts, st.fresh_recoded, freshStmts_recoded sts]

theorem Routine.fresh_recoded : ∀ (r : Routine) (n : NodeId),
    (r.recoded ⟨f, (· + k)⟩).fresh (n + k) = ((r.fresh n).1.recoded ⟨f, (· + k)⟩, (r.fresh n).2 + k)
  | ⟨_, body⟩, n => by simp only [Routine.recoded, Routine.fresh, freshStmts_recoded body]

theorem Method.fresh_recoded : ∀ (m : Method) (n : NodeId),
    (m.recoded ⟨f, (· + k)⟩).fresh (n + k) = ((m.fresh n).1.recoded ⟨f, (· + k)⟩, (m.fresh n).2 + k)
  | ⟨_, _, r⟩, n => by simp only [Method.recoded, Method.fresh, r.fresh_recoded]

theorem freshMethods_recoded : ∀ (ms : List Method) (n : NodeId),
    freshMethods (recodedMethods ⟨f, (· + k)⟩ ms) (n + k) =
      (recodedMethods ⟨f, (· + k)⟩ (freshMethods ms n).1, (freshMethods ms n).2 + k)
  | [], _ => rfl
  | m :: ms, n => by simp only [recodedMethods, freshMethods, m.fresh_recoded, freshMethods_recoded ms]

end

/-! ## Other lines only -/

mutual

theorem Expr.relined_eq : ∀ e : Expr, e.relined f = e.recoded ⟨f, id⟩
  | .literal _ => rfl
  | .unary _ _ e => congrArg (Expr.unary _ _) e.relined_eq
  | .binary _ _ l r => congrArg₂ (Expr.binary _ _) l.relined_eq r.relined_eq
  | .logical _ _ l r => congrArg₂ (Expr.logical _ _) l.relined_eq r.relined_eq
  | .group e => congrArg Expr.group e.relined_eq
  | .var _ _ => rfl
  | .assign _ _ e => congrArg (Expr.assign _ _) e.relined_eq
  | .call e _ es => congrArg₂ (Expr.call · _ ·) e.relined_eq (relinedExprs_eq es)
  | .lambda _ r => congrArg (Expr.lambda _) r.relined_eq
  | .get e _ => congrArg (Expr.get · _) e.relined_eq
  | .set e _ v => congrArg₂ (Expr.set · _ ·) e.relined_eq v.relined_eq
  | .this _ _ => rfl
  | .super _ _ _ => rfl

theorem relinedExprs_eq : ∀ es : List Expr, relinedExprs f es = recodedExprs ⟨f, id⟩ es
  | [] => rfl
  | e :: es => congrArg₂ List.cons e.relined_eq (relinedExprs_eq es)

theorem Stmt.relined_eq : ∀ st : Stmt, st.relined f = st.recoded ⟨f, id⟩
  | .expr e => congrArg Stmt.expr e.relined_eq
  | .print e => congrArg Stmt.print e.relined_eq
  | .varDecl _ none => rfl
  | .varDecl _ (some e) => congrArg (fun e => Stmt.varDecl _ (some e)) e.relined_eq
  | .block sts => congrArg Stmt.block (relinedStmts_eq sts)
  | .branch c st none => congrArg₂ (Stmt.branch · · none) c.relined_eq st.relined_eq
  | .branch c st (some st') => by rw [Stmt.relined, Stmt.recoded, c.relined_eq, st.relined_eq, st'.relined_eq]
  | .loop c st => congrArg₂ Stmt.loop c.relined_eq st.relined_eq
  | .funDecl _ r => congrArg (Stmt.funDecl _) r.relined_eq
  | .returns _ _ none => rfl
  | .returns _ _ (some e) => congrArg (fun e => Stmt.returns _ _ (some e)) e.relined_eq
  | .breaks _ => rfl
  | .classDecl _ _ ms ss => congrArg₂ (Stmt.classDecl _ _ · ·) (relinedMethods_eq ms) (relinedMethods_eq ss)

theorem relinedStmts_eq : ∀ sts : List Stmt, relinedStmts f sts = recodedStmts ⟨f, id⟩ sts
  | [] => rfl
  | st :: sts => congrArg₂ List.cons st.relined_eq (relinedStmts_eq sts)

theorem Routine.relined_eq : ∀ r : Routine, r.relined f = r.recoded ⟨f, id⟩
  | ⟨_, body⟩ => congrArg (Routine.mk _) (relinedStmts_eq body)

theorem Method.relined_eq : ∀ m : Method, m.relined f = m.recoded ⟨f, id⟩
  | ⟨_, _, r⟩ => congrArg (Method.mk _ _) r.relined_eq

theorem relinedMethods_eq : ∀ ms : List Method, relinedMethods f ms = recodedMethods ⟨f, id⟩ ms
  | [] => rfl
  | m :: ms => congrArg₂ List.cons m.relined_eq (relinedMethods_eq ms)

end

@[simp] theorem relinedStmts_id (sts : List Stmt) : relinedStmts id sts = sts :=
  (relinedStmts_eq id sts).trans (recodedStmts_same sts)

theorem relinedStmts_comp (g : Nat → Nat) (sts : List Stmt) :
    relinedStmts g (relinedStmts f sts) = relinedStmts (g ∘ f) sts := by
  rw [relinedStmts_eq, relinedStmts_eq, relinedStmts_eq]
  exact recodedStmts_comp ⟨f, id⟩ ⟨g, id⟩ sts

theorem Expr.fresh_relined (e : Expr) (n : NodeId) : (e.relined f).fresh n = ((e.fresh n).1.relined f, (e.fresh n).2) := by
  rw [e.relined_eq, (e.fresh n).1.relined_eq]
  exact e.fresh_recoded f 0 n

end

end Lox
