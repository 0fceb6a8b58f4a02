import Mathlib.Data.List.Nodup
import Lox.Proofs.Evaluation.Counterpart
import Lox.Proofs.Evaluation.Ordered
import Lox.Proofs.Evaluation.Owned

/-!
# Names are free where they are declared

Where every scope declares different names, a name is not in the frame in scope when the evaluation comes to its declaration,
unless that frame is the one with which the evaluation has begun: each time that a scope is entered it gets a frame of its own,
and but for parameters, which count as declared, there is nothing in it.
-/

namespace Lox

/-- Every scope declares different names. -/
def Ties.distinct : Ties where
  ids := Eq
  scope names := (names.map Name.text).Nodup

/-- The names differ, and the frame in scope is there and has none of them. -/
structure Store.Vacant (s : Store) (env : Env) (names : List String) : Prop where
  nodup : names.Nodup
  frame : ∃ f, env.head? = some f ∧ f < s.frames.size ∧ ∀ x ∈ names, s.var? f x = none

/-- The work consists of statements, so that it can declare names. -/
def Activity.IsStatement : Activity → Prop
  | .stmt _ => True
  | .stmts _ => True
  | .loop _ _ => True
  | _ => False

/-- Statements find the names free that they declare. -/
def Moment.Vacant (x : Moment) : Prop :=
  x.activity.IsStatement → x.machine.store.Vacant x.machine.env x.activity.declares

/-- All scopes that the evaluation comes to declare different names, and loops declare none. -/
structure Moment.Distinct (x : Moment) : Prop where
  twin : x.HasTwin .distinct
  loops : ∀ y c st, x.Reaches y → y.activity = .loop c st → st.declares = []

namespace Store.Vacant

variable {s : Store} {env : Env} {names names' : List String}

theorem sublist (h : s.Vacant env names) (hsub : names'.Sublist names) : s.Vacant env names' where
  nodup := h.nodup.sublist hsub
  frame :=
    have ⟨f, hf, hlt, hnone⟩ := h.frame
    ⟨f, hf, hlt, fun x hx => hnone x (hsub.subset hx)⟩

/-- In a new frame all names are free that it does not begin with. -/
theorem extend {frame : Frame} (hn : names.Nodup) (h : ∀ x ∈ names, frame.get? x = none) (s : Store) (outer : Env) :
    (s.extend frame outer).2.Vacant (s.extend frame outer).1 names where
  nodup := hn
  frame := ⟨s.frames.size, rfl, by simp [Store.extend], fun x hx => by rw [Store.var?_extend, if_pos rfl]; exact h x hx⟩

/-- Names stay free where the work does not declare them. -/
theorem after {n : Nat} {a : Activity} {m m' : Machine} (h : m.store.Vacant m.env names)
    (hd : ∀ x ∈ names, x ∉ a.declares) {r : a.Result} (hr : a.run n m = .done r m') : m'.store.Vacant m'.env names := by
  have he : (a.run n m).EndsIn m' := by rw [hr]; rfl
  obtain ⟨f, hf, hlt, hnone⟩ := h.frame
  have hk := Moment.keeps n a m fun g x hg => by
    obtain rfl : f = g := Option.some.inj (hf.symm.trans hg.1)
    exact hlt
  have henv : m'.env = m.env := hk.env m' he
  have hgains := hk.gains m' (.inl he)
  refine ⟨h.nodup, f, henv ▸ hf, Nat.lt_of_lt_of_le hlt hgains.size, fun x hx => ?_⟩
  by_contra hv
  rcases hgains.names f x hlt (Option.isSome_iff_ne_none.mpr hv) with hv | hmay
  · rw [hnone x hx] at hv
    cases hv
  · exact hd x hx hmay.2

end Store.Vacant

theorem nodup_declaredBy {sts : List Stmt} (h : ((declaredNamesBy sts).map Name.text).Nodup) : (declaredBy sts).Nodup := by
  rw [declaredBy_eq]
  exact List.nodup_reverse.mpr h

namespace Moment

variable {x y : Moment}

theorem Distinct.calls (h : x.Distinct) (hc : x.Calls y) : y.Distinct :=
  ⟨h.twin.calls hc, fun z c st hr => h.loops z c st (.step hc hr)⟩

/-- Statements that the work turns to find their names free in a frame of their own, or they stand in the scope of the work. -/
theorem Distinct.opens_or_stays (h : x.Distinct) (hc : x.Calls y) (hy : y.activity.IsStatement) :
    y.Vacant ∨ y.machine.env = x.machine.env ∧ (x.Vacant → y.Vacant) := by
  obtain ⟨a, m', ha, -⟩ := h.twin
  cases hc with
  | @body n m c args env m₁ hframe =>
    cases ha with
    | runBody hclosure =>
      left
      intro _
      have hs : ((c.routine.params ++ declaredNamesBy c.routine.body).map Name.text).Nodup := hclosure.routine.scope
      rw [List.map_append] at hs
      cases hframe
      refine .extend (nodup_declaredBy hs.of_append_right) (fun x hx => ?_) m.store c.env
      by_contra hv
      have hparam := isSome_of_argumentFrame (Option.isSome_iff_ne_none.mpr hv)
      have hbody : x ∈ declaredBy c.routine.body := hx
      rw [declaredBy_eq, List.mem_reverse] at hbody
      exact List.disjoint_of_nodup_append hs hparam hbody
  | @block n m sts env m₁ hframe =>
    cases ha with
    | stmt hst =>
      cases hst with
      | block hs =>
        left
        intro _
        cases hframe
        exact .extend (nodup_declaredBy hs) (fun _ _ => rfl) m.store m.env
  | @thenBranch n m c st st' v m₁ hv _ =>
    refine .inr ⟨env_of_done (a := .expr c) hv, fun hx _ => ?_⟩
    refine ((hx trivial).sublist ?_).after (a := .expr c) (fun _ _ => List.not_mem_nil) hv
    cases st' with
    | none => exact .refl _
    | some st' => exact List.sublist_append_right _ _
  | @elseBranch n m c st st' v m₁ hv _ =>
    refine .inr ⟨env_of_done (a := .expr c) hv, fun hx _ => ?_⟩
    exact ((hx trivial).sublist (List.sublist_append_left _ _)).after (a := .expr c) (fun _ _ => List.not_mem_nil) hv
  | loop => exact .inr ⟨rfl, fun hx _ => hx trivial⟩
  | first => exact .inr ⟨rfl, fun hx _ => (hx trivial).sublist (List.sublist_append_right _ _)⟩
  | @rest n m st sts m₁ hf =>
    refine .inr ⟨env_of_done (a := .stmt st) hf, fun hx _ => ?_⟩
    have hx : m.store.Vacant m.env (declaredBy sts ++ st.declares) := hx trivial
    exact (hx.sublist (List.sublist_append_left _ _)).after (a := .stmt st)
      (fun _ hl hr => List.disjoint_of_nodup_append hx.nodup hl hr) hf
  | @loopBody n m c st v m₁ hv _ =>
    refine .inr ⟨env_of_done (a := .expr c) hv, fun hx _ => ?_⟩
    exact (hx trivial).after (a := .expr c) (fun _ _ => List.not_mem_nil) hv
  | @again n m c st v m₁ m₂ hv _ hf =>
    have henv := env_of_done (a := .expr c) hv
    have henv' := env_of_done (a := .stmt st) hf
    refine .inr ⟨henv'.trans henv, fun hx _ => ?_⟩
    have hd : st.declares = [] := h.loops _ c st .refl rfl
    have hx₁ := (hx trivial).after (a := .expr c) (fun _ _ => List.not_mem_nil) hv
    refine hx₁.after (a := .stmt st) (fun _ hmem => ?_) hf
    rw [Activity.declares, hd] at hmem
    cases hmem
  | _ => exact hy.elim

theorem Vacant.calls (h : x.Vacant) (hd : x.Distinct) (hc : x.Calls y) : y.Vacant := by
  intro hy
  rcases hd.opens_or_stays hc hy with h' | ⟨-, h'⟩
  · exact h' hy
  · exact h' h hy

/-- Where the evaluation begins in an environment, names are free everywhere else. -/
theorem vacant_or_outside {env : Env} (h : x.Vacant ∨ x.machine.env = env) (hd : x.Distinct) (hr : x.Reaches y) :
    y.Vacant ∨ y.machine.env = env := by
  induction hr with
  | refl => exact h
  | @step x y z hc _ ih =>
    refine ih ?_ (hd.calls hc)
    by_cases hy : y.activity.IsStatement
    · rcases hd.opens_or_stays hc hy with h' | ⟨henv, h'⟩
      · exact .inl h'
      · exact h.imp h' henv.trans
    · exact .inl fun hs => absurd hs hy

end Moment

end Lox
