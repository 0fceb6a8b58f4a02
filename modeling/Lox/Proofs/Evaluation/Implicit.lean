import Lox.Proofs.Evaluation.Frames
import Mathlib.Data.List.Basic

/-!
# Scopes of `this` and `super`

The scopes that bind `this` and `super` do so from their beginning, and no other scope ever declares them. So the nearest
frame that has one of them is that of the nearest scope that does.
-/

namespace Lox

/-- If the scope declares `this` or `super` at all, it does so from the beginning, and declares nothing else. -/
def LocalScope.Tidy (sc : LocalScope) : Prop :=
  ∀ x, x = "this" ∨ x = "super" → (x ∈ sc.opener.declares → x ∈ sc.names ∧ sc.opener.declares = [x]) ∧ sc.pending ≠ some x

def Scopes.Tidy (Γ : Scopes) : Prop := ∀ sc ∈ Γ, sc.Tidy

section
variable {K : Name → Name → Prop} {Γ : Scopes}

theorem declaredBy_plain : ∀ {sts : List Stmt}, ProperStmts Name.IsPlain K sts → ∀ x ∈ declaredBy sts, x ≠ "this" ∧ x ≠ "super"
  | _ :: _, h, x, hx => by
    rcases List.mem_append.mp hx with hx | hx
    · exact declaredBy_plain h.2 x hx
    · exact h.1.declares_plain x hx

/-- What the scope of a routine declares are its parameters and what its statements declare. -/
theorem Routine.Proper.declares_plain : ∀ {r : Routine}, r.Proper Name.IsPlain K →
    ∀ x ∈ (Opener.routine r).declares, x ≠ "this" ∧ x ≠ "super"
  | ⟨params, body⟩, h, x, hx => by
    rcases List.mem_append.mp hx with hx | hx
    · obtain ⟨p, hp, rfl⟩ := List.mem_map.mp hx
      exact h.1 p hp
    · exact declaredBy_plain h.2 x hx

/-! ## Scopes of a tree -/

/-- A scope that declares plain names only. -/
theorem LocalScope.Tidy.of_plain {sc : LocalScope} (h : ∀ x ∈ sc.opener.declares, x ≠ "this" ∧ x ≠ "super")
    (hp : sc.pending = none) : sc.Tidy := fun x hx =>
  ⟨fun hd => absurd hx (not_or.mpr (h x hd)), by rw [hp]; exact nofun⟩

/-- A scope that declares one name, from the beginning. -/
theorem LocalScope.Tidy.of_one {sc : LocalScope} {y : String} (hd : sc.opener.declares = [y]) (hn : sc.names = [y])
    (hp : sc.pending = none) : sc.Tidy := by
  refine fun x _ => ⟨fun hx => ?_, by rw [hp]; exact nofun⟩
  rw [hd] at hx
  obtain rfl := List.mem_singleton.mp hx
  exact ⟨by rw [hn]; exact hx, hd⟩

namespace Scopes.Tidy

theorem cons {sc : LocalScope} (hs : sc.Tidy) (h : Γ.Tidy) : Tidy (sc :: Γ) := List.forall_mem_cons.mpr ⟨hs, h⟩

theorem declare (h : Γ.Tidy) (names : List String) : (Γ.declare names).Tidy := by
  cases Γ with
  | nil => exact h
  | cons sc Γ =>
    obtain ⟨hs, h⟩ := List.forall_mem_cons.mp h
    exact cons (fun x hx => ⟨fun hd => ((hs x hx).1 hd).imp_left (List.mem_append_right _), (hs x hx).2⟩) h

theorem enterInitializer (h : Γ.Tidy) {name : Name} (hn : name.IsPlain) : (Γ.enterInitializer name.text).Tidy := by
  cases Γ with
  | nil => exact h
  | cons sc Γ =>
    obtain ⟨hs, h⟩ := List.forall_mem_cons.mp h
    refine cons (fun x hx => ⟨fun hd => ((hs x hx).1 hd).imp_left (.tail _), fun heq => ?_⟩) h
    obtain rfl := Option.some.inj heq
    exact hx.elim hn.1 hn.2

theorem receiver (decl : Stmt) (h : Γ.Tidy) : Tidy (.ofReceiver decl :: Γ) := cons (.of_one rfl rfl rfl) h

theorem derive (decl : Stmt) (superclass : Option Reference) (h : Γ.Tidy) : (Γ.derive decl superclass).Tidy := by
  unfold Scopes.derive
  split
  · exact cons (.of_one rfl rfl rfl) h
  · exact h

end Scopes.Tidy

end

section
variable {K : Name → Name → Prop}

mutual

theorem Expr.tidy : ∀ (e : Expr) {Γ : Scopes}, Γ.Tidy → e.Proper Name.IsPlain K → ∀ o ∈ e.occurrences Γ, o.scopes.Tidy
  | .literal _, _, _, _ => nofun
  | .unary _ _ operand, _, h, hp => operand.tidy h hp.2
  | .binary _ _ left right, _, h, hp => List.forall_mem_append.mpr ⟨left.tidy h hp.2.1, right.tidy h hp.2.2⟩
  | .logical _ _ left right, _, h, hp => List.forall_mem_append.mpr ⟨left.tidy h hp.1, right.tidy h hp.2⟩
  | .group inner, _, h, hp => inner.tidy h hp
  | .var _ _, _, h, _ => List.forall_mem_singleton.mpr h
  | .assign _ _ value, _, h, hp => List.forall_mem_append.mpr ⟨value.tidy h hp.2, List.forall_mem_singleton.mpr h⟩
  | .call callee _ arguments, _, h, hp => List.forall_mem_append.mpr ⟨callee.tidy h hp.1, tidy_exprs arguments h hp.2⟩
  | .lambda _ routine, _, h, hp => routine.tidy h hp
  | .get object _, _, h, hp => object.tidy h hp
  | .set object _ value, _, h, hp => List.forall_mem_append.mpr ⟨object.tidy h hp.1, value.tidy h hp.2⟩
  | .this _ _, _, h, _ => List.forall_mem_singleton.mpr h
  | .super _ _ _, _, h, _ => List.forall_mem_singleton.mpr h

theorem tidy_exprs : ∀ (es : List Expr) {Γ : Scopes}, Γ.Tidy → ProperExprs Name.IsPlain K es →
    ∀ o ∈ occurrencesExprs es Γ, o.scopes.Tidy
  | [], _, _, _ => nofun
  | e :: es, _, h, hp => List.forall_mem_append.mpr ⟨e.tidy h hp.1, tidy_exprs es h hp.2⟩

theorem Stmt.tidy : ∀ (st : Stmt) {Γ : Scopes}, Γ.Tidy → st.Proper Name.IsPlain K → ∀ o ∈ st.occurrences Γ, o.scopes.Tidy
  | .expr e, _, h, hp => e.tidy h hp
  | .print e, _, h, hp => e.tidy h hp
  | .varDecl _ none, _, _, _ => nofun
  | .varDecl _ (some e), _, h, hp => e.tidy (h.enterInitializer hp.1) hp.2
  | .block body, _, h, hp => tidy_stmts body (.cons (.of_plain (declaredBy_plain hp) rfl) h) hp
  | .branch condition thenBranch none, _, h, hp =>
    List.forall_mem_append.mpr ⟨condition.tidy h hp.1, thenBranch.tidy h hp.2.1⟩
  | .branch condition thenBranch (some elseBranch), _, h, hp =>
    List.forall_mem_append.mpr ⟨List.forall_mem_append.mpr ⟨condition.tidy h hp.1, thenBranch.tidy h hp.2.1.1⟩,
      elseBranch.tidy (h.declare _) hp.2.2.1⟩
  | .loop condition body, _, h, hp => List.forall_mem_append.mpr ⟨condition.tidy h hp.1, body.tidy h hp.2.1⟩
  | .funDecl _ routine, _, h, hp => routine.tidy (h.declare _) hp.2
  | .returns _ _ none, _, _, _ => nofun
  | .returns _ _ (some e), _, h, hp => e.tidy h hp
  | .breaks _, _, _, _ => nofun
  | .classDecl name superclass methods statics, Γ, h, hp => by
    let decl : Stmt := .classDecl name superclass methods statics
    have around : (Γ.declare [name.text]).Tidy := h.declare _
    have members : ((Γ.declare [name.text]).derive decl superclass).Tidy := around.derive decl superclass
    refine List.forall_mem_append.mpr ⟨List.forall_mem_append.mpr ⟨?_, tidy_methods statics members hp.2.2.2⟩,
      tidy_methods methods (members.receiver decl) hp.2.2.1⟩
    cases superclass with
    | none => exact nofun
    | some ref => exact List.forall_mem_singleton.mpr around

theorem tidy_stmts : ∀ (sts : List Stmt) {Γ : Scopes}, Γ.Tidy → ProperStmts Name.IsPlain K sts →
    ∀ o ∈ occurrencesStmts sts Γ, o.scopes.Tidy
  | [], _, _, _ => nofun
  | st :: sts, _, h, hp => List.forall_mem_append.mpr ⟨st.tidy h hp.1, tidy_stmts sts (h.declare _) hp.2⟩

theorem Routine.tidy : ∀ (r : Routine) {Γ : Scopes}, Γ.Tidy → r.Proper Name.IsPlain K → ∀ o ∈ r.occurrences Γ, o.scopes.Tidy
  | ⟨_, body⟩, _, h, hp => tidy_stmts body (.cons (.of_plain hp.declares_plain rfl) h) hp.2

theorem Method.tidy : ∀ (m : Method) {Γ : Scopes}, Γ.Tidy → m.Proper Name.IsPlain K → ∀ o ∈ m.occurrences Γ, o.scopes.Tidy
  | ⟨_, _, routine⟩, _, h, hp => routine.tidy h hp.2

theorem tidy_methods : ∀ (ms : List Method) {Γ : Scopes}, Γ.Tidy → ProperMethods Name.IsPlain K ms →
    ∀ o ∈ occurrencesMethods ms Γ, o.scopes.Tidy
  | [], _, _, _ => nofun
  | m :: ms, _, h, hp => List.forall_mem_append.mpr ⟨m.tidy h hp.1, tidy_methods ms h hp.2⟩

end

end

/-! ## Environments -/

namespace World

variable {w : World} {s : Store} {env : Env} {Γ : Scopes}

theorem Models.lt (h : w.Models s env Γ) : ∀ f ∈ env, f < s.frames.size := by
  induction h with
  | global h => exact fun f hf => (List.mem_singleton.mp hf) ▸ h
  | scope ha _ ih => exact List.forall_mem_cons.mpr ⟨ha.lt, ih⟩

/-- As many frames lie inside the nearest one that has the name as scopes inside the nearest one that declares it. -/
theorem Models.findIdx? {x : String} (hx : x = "this" ∨ x = "super") (h : w.Models s env Γ)
    (howned : ∀ env opener, w.created env opener → s.Owned env opener) (ht : Γ.Tidy) {d : Nat} (hd : Γ.depth? x = some d) :
    env.findIdx? (fun f => (s.var? f x).isSome) = some d := by
  induction h generalizing d with
  | global _ => cases hd
  | @scope f outer sc Γ ha _ ih =>
    obtain ⟨hs, ht⟩ := List.forall_mem_cons.mp ht
    obtain ⟨hearly, hpending⟩ := hs x hx
    rw [List.findIdx?_cons]
    by_cases hn : x ∈ sc.names
    · rw [Scopes.depth?_cons_of_mem hn] at hd
      rw [if_pos (ha.bound x hn hpending)]
      exact hd
    · have hfree : ¬ (s.var? f x).isSome := fun hb => hn (hearly (howned _ _ ha.created f rfl x hb)).1
      rw [Scopes.depth?_cons_of_not_mem hn] at hd
      obtain ⟨d', hd', rfl⟩ := Option.map_eq_some_iff.mp hd
      rw [if_neg hfree, ih ht hd']
      rfl

end World

end Lox
