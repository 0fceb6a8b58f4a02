import Lox.Proofs.Evaluation.Owned
import Lox.Proofs.Evaluation.Reached

/-!
# Walking without the binding table

Where no scope declares the name of an occurrence too late, the nearest frame that has the name is the one that the binding
table means: the frames inside it belong to scopes that never declare the name.
-/

namespace Lox

/-- No scope around the occurrence declares its name later on, and the occurrence is not in the initializer of a variable of
that name. -/
def Occurrence.Unshadowed (o : Occurrence) : Prop :=
  ∀ sc ∈ o.scopes, (o.name ∈ sc.opener.declares → o.name ∈ sc.names) ∧ sc.pending ≠ some o.name

instance (o : Occurrence) : Decidable o.Unshadowed :=
  inferInstanceAs (Decidable (∀ sc ∈ o.scopes, (o.name ∈ sc.opener.declares → o.name ∈ sc.names) ∧ sc.pending ≠ some o.name))

/-! ## Variables and their frames -/

namespace Store

theorem findSome?_eq_bind (s : Store) (x : String) : ∀ env : Env, env.findSome? (s.var? · x) = (s.slot? env x).bind (s.var? · x)
  | [] => rfl
  | f :: outer => by
    cases hv : s.var? f x with
    | none => simpa [slot?, hv] using findSome?_eq_bind s x outer
    | some v => simp [slot?, hv]

theorem slot?_cons (s : Store) (f : FrameId) (outer : Env) (x : String) :
    s.slot? (f :: outer) x = if (s.var? f x).isSome then some f else s.slot? outer x := by
  unfold slot?
  rw [List.find?_cons]
  split <;> simp_all

theorem slotAt?_zero (s : Store) (f : FrameId) (outer : Env) (x : String) :
    s.slotAt? (f :: outer) 0 x = if (s.var? f x).isSome then some f else none := rfl

end Store

/-- The frame whose variable the node means, as the binding table says. -/
def Machine.slotOf? (m : Machine) (id : NodeId) (name : String) : Option FrameId :=
  match m.bindings.get? id with
  | some distance => m.store.slotAt? m.env distance name
  | none => m.store.slotAt? globalEnv 0 name

namespace Eval

variable {m : Machine} {id : NodeId} {name : Name}

theorem lookUp_of_some {v : Value} (h : m.lookUp? id name.text = some v) : lookUp id name m = .done v m := by
  unfold lookUp
  extract_lets found
  have hfound : m.lookUp? id name.text = found := rfl
  rw [← hfound, h]

theorem lookUp_of_none (h : m.lookUp? id name.text = none) :
    lookUp id name m = .failed (.runtime name.line (undefined name)) m := by
  unfold lookUp
  extract_lets found
  have hfound : m.lookUp? id name.text = found := rfl
  rw [← hfound, h]

theorem slotOf?_eq : slotOf? id name m = .done (m.slotOf? id name.text) m := rfl

end Eval

namespace Access

variable {m : Machine} {id : NodeId} {name : Name}

/-- Reading and writing only differ where walking finds another frame. -/
theorem walking_follows (h : m.store.slot? m.env name.text = m.slotOf? id name.text) : walking.Follows id name m where
  read := by
    have hfound : m.env.findSome? (m.store.var? · name.text) = m.lookUp? id name.text := by
      rw [Store.findSome?_eq_bind, h]
      unfold Machine.slotOf? Machine.lookUp? Machine.global?
      cases m.bindings.get? id with
      | some d => exact (Store.readAt_eq_bind ..).symm
      | none => exact (Store.readAt_eq_bind ..).symm
    dsimp only [walking]
    rw [Store.read, hfound]
    cases hv : m.lookUp? id name.text with
    | some v => exact (Eval.lookUp_of_some hv).symm
    | none => exact (Eval.lookUp_of_none hv).symm
  write v := by
    dsimp only [walking]
    rw [Store.write, h, Eval.assign, Run.bind_apply, Eval.slotOf?_eq]
    cases m.slotOf? id name.text <;> rfl

end Access

/-! ## Scopes -/

namespace World

variable {w : World} {s : Store} {m : Machine} {Γ : Scopes} {env : Env} {x : String}

/-- The nearest frame with the name is that of the innermost scope that declares it. -/
theorem Models.slot? (hm : w.Models s env Γ) (howned : ∀ env opener, w.created env opener → s.Owned env opener)
    (hu : ∀ sc ∈ Γ, (x ∈ sc.opener.declares → x ∈ sc.names) ∧ sc.pending ≠ some x) :
    s.slot? env x = match Γ.depth? x with
      | some d => s.slotAt? env d x
      | none => s.slotAt? globalEnv 0 x := by
  induction hm with
  | global _ => exact Store.slot?_cons s 0 [] x
  | @scope f outer sc Γ ha hm ih =>
    have ih := ih fun sc hsc => hu sc (.tail _ hsc)
    obtain ⟨hearly, hpending⟩ := hu sc (.head _)
    by_cases hx : x ∈ sc.names
    · have hbound := ha.bound x hx hpending
      rw [Scopes.depth?_cons_of_mem hx]
      rw [Store.slot?_cons, if_pos hbound]
      exact (Store.slotAt?_zero ..).trans (if_pos hbound) |>.symm
    · have hfree : ¬ (s.var? f x).isSome := fun hs => hx (hearly (howned _ _ ha.created f rfl x hs))
      rw [Scopes.depth?_cons_of_not_mem hx, Store.slot?_cons, if_neg hfree, ih]
      cases Γ.depth? x <;> rfl

/-- Where the occurrence is accessed, walking finds the frame that the binding table means. -/
theorem Accessed.follows {id : NodeId} {name : Name} {scopes : Scopes} (ha : w.Accessed m Γ ⟨id, name.text, scopes⟩)
    (howned : ∀ env opener, w.created env opener → m.store.Owned env opener)
    (hu : Occurrence.Unshadowed ⟨id, name.text, scopes⟩) : Access.walking.Follows id name m := by
  obtain ⟨hat, ho, hscopes⟩ := ha
  refine Access.walking_follows ?_
  rw [Machine.slotOf?, hat.ready.table _ ho]
  rcases hscopes with rfl | ⟨cls, hne, rfl⟩
  · exact hat.models.slot? howned hu
  · have hdepth : Occurrence.depth? ⟨id, name.text, Γ.declare [cls]⟩ = Γ.depth? name.text :=
      Scopes.depth?_declare (by simpa using hne) Γ
    rw [hdepth]
    refine hat.models.slot? howned fun sc hsc => ?_
    cases Γ with
    | nil => cases hsc
    | cons inner Γ =>
      cases hsc with
      | head =>
        obtain ⟨hearly, hpending⟩ := hu _ (.head _)
        exact ⟨fun hx => by simpa [hne] using hearly hx, hpending⟩
      | tail _ hsc => exact hu sc (.tail _ hsc)

end World

end Lox
