import Lox.Proofs.Evaluation.Ready

/-!
# What the operations of the machine keep

Reading and writing variables, making frames, functions and classes, and calling native functions.
-/

namespace Lox

namespace World

variable {w : World} {m : Machine} {Γ : Scopes}

/-! ## Stores -/

section
variable {s : Store} (h : w.StoreReady s)
include h

theorem StoreReady.holds {s' : Store} (hg : s.Grows s') : s.Holds (w.ValueReady s') where
  vars f x v hv := (h.vars f x v hv).grow hg
  fields i x v hv := (h.fields i x v hv).grow hg

/-- The store with new values, but no new frames. -/
theorem StoreReady.of_holds {s' : Store} (hs : s'.Holds (w.ValueReady s')) (hsize : s'.frames.size = s.frames.size) :
    w.StoreReady s' :=
  ⟨hs.vars, hs.fields, fun f hf => h.made f (hsize ▸ hf)⟩

/-- The store with a new frame, which was created for a scope. -/
theorem StoreReady.extend {frame : Frame} (env : Env) (hf : ∀ x v, frame.get? x = some v → w.ValueReady s v)
    (hc : ∃ opener, w.created (s.frames.size :: env) opener) : w.StoreReady (s.extend frame env).2 := by
  have hg := s.extend_grows frame env
  have hs := (h.holds hg).extend env fun x v hv => (hf x v hv).grow hg
  refine ⟨hs.vars, hs.fields, fun f hlt => ?_⟩
  have hlt : f < s.frames.size + 1 := by simpa [Store.extend] using hlt
  rcases Nat.lt_or_eq_of_le (Nat.le_of_lt_succ hlt) with hlt | rfl
  · exact h.made f hlt
  · exact .inr ⟨env, hc⟩

theorem StoreReady.setVar {f : FrameId} {x : String} {v : Value} (hx : x ≠ "this" ∧ x ≠ "super")
    (hv : w.ValueReady (s.setVar f x v) v) : w.StoreReady (s.setVar f x v) :=
  h.of_holds ((h.holds (s.setVar_grows f v hx)).setVar hv) (by simp [Store.setVar])

theorem StoreReady.setField {i : Instance} {x : String} {v : Value} (hv : w.ValueReady s v) :
    w.StoreReady (s.setField i x v) :=
  have hg : s.Grows (s.setField i x v) := .of_frames rfl (Nat.le_refl _)
  h.of_holds ((h.holds hg).setField (hv.grow hg)) rfl

theorem StoreReady.freshSerial : w.StoreReady s.freshSerial.2 :=
  have hg : s.Grows s.freshSerial.2 := .of_frames rfl (Nat.le_succ _)
  h.of_holds (h.holds hg).freshSerial rfl

theorem StoreReady.construct (cls : Class) : w.StoreReady (s.construct cls).2 :=
  have hg : s.Grows (s.construct cls).2 := .of_frames rfl (Nat.le_refl _)
  h.of_holds ((h.holds hg).construct cls) rfl

end

theorem Continues.store {s : Store} (hm : w.MachineReady m) (hs : w.StoreReady s) (hg : m.store.Grows s) :
    w.Continues m { m with store := s } :=
  ⟨⟨hs, hm.table⟩, hg, rfl, rfl, rfl⟩

/-! ## Variables -/

theorem At.frame (h : w.At m Γ) {id : NodeId} {x : String} (ho : w.known ⟨id, x, Γ⟩) {d : Nat}
    (hd : m.bindings.get? id = some d) :
    ∃ f outer sc, m.env.drop d = f :: outer ∧ m.env[d]? = some f ∧ Γ[d]? = some sc ∧ x ∈ sc.names ∧
      w.Activation m.store f outer sc := by
  have hb : Occurrence.depth? ⟨id, x, Γ⟩ = some d := by rw [← h.ready.table _ ho]; exact hd
  obtain ⟨⟨sc, hs, hx⟩, -⟩ := Occurrence.depth?_eq_some_iff.mp hb
  obtain ⟨f, outer, hdrop, hf, ha⟩ := h.models.frame hs
  exact ⟨f, outer, sc, hdrop, hf, hs, hx, ha⟩

theorem readAt_eq {s : Store} {env : Env} {d : Nat} {f : FrameId} (h : env[d]? = some f) (x : String) :
    s.readAt env d x = s.var? f x := by
  simp [Store.readAt, Store.ancestor?, h]

theorem MachineReady.variable (h : w.MachineReady m) {id : NodeId} {x : String} {v : Value}
    (hv : m.lookUp? id x = some v) : w.ValueReady m.store v := by
  have read : ∀ {env d}, m.store.readAt env d x = some v → w.ValueReady m.store v := by
    intro env d hr
    obtain ⟨f, -, hv⟩ := Option.bind_eq_some_iff.mp hr
    exact h.store.vars f x v hv
  unfold Machine.lookUp? at hv
  split at hv
  · exact read hv
  · exact read hv

theorem Ends.lookUp (hm : w.MachineReady m) {id : NodeId} {name : Name} {F : Error → Prop}
    (hf : m.lookUp? id name.text = none → F (.runtime name.line (Eval.undefined name))) :
    w.Ends m F (fun v m' => w.ValueReady m'.store v) (Eval.lookUp id name m) := by
  unfold Eval.lookUp
  extract_lets found
  have hfound : m.lookUp? id name.text = found := rfl
  cases hv : found with
  | some v => exact ⟨.refl hm, hm.variable (hfound.trans hv)⟩
  | none => exact ⟨.refl hm, hf (hfound.trans hv)⟩

theorem At.this (h : w.At m Γ) {id : NodeId} (ho : w.known ⟨id, "this", Γ⟩) : m.lookUp? id "this" ≠ none := by
  obtain ⟨d, hd⟩ := (w.placed _ ho).this rfl
  have hd := (h.ready.table _ ho).trans hd
  obtain ⟨f, outer, sc, -, hf, -, hx, ha⟩ := h.frame ho hd
  obtain ⟨i, hi⟩ := ha.receiver hx
  have hv : m.lookUp? id "this" = some (.object i) := by
    simp only [Machine.lookUp?, hd]
    rw [readAt_eq hf, hi]
  rw [hv]
  exact Option.some_ne_none _

theorem Ends.superClass (h : w.At m Γ) {id : NodeId} (ho : w.known ⟨id, "super", Γ⟩) {line : Nat} {F : Error → Prop} :
    w.Ends m F (fun c m' => m' = m ∧ w.ClassReady m.store c) (Eval.superClass id line m) := by
  obtain ⟨d, -, hd⟩ := (w.placed _ ho).super rfl
  have hd := (h.ready.table _ ho).trans hd
  obtain ⟨f, outer, sc, -, hf, -, hx, ha⟩ := h.frame ho hd
  obtain ⟨c, hc⟩ := ha.parent hx
  have heq : Eval.superClass id line m = .done c m := by
    simp only [Eval.superClass, hd, Option.bind_some]
    rw [readAt_eq hf, hc]
  rw [heq]
  have hv : w.ValueReady m.store (.klass c) := h.ready.store.vars f "super" _ hc
  exact ⟨.refl h.ready, rfl, hv⟩

theorem Ends.superReceiver (h : w.At m Γ) {id : NodeId} (ho : w.known ⟨id, "super", Γ⟩) {line : Nat} {F : Error → Prop} :
    w.Ends m F (fun i m' => m' = m ∧ w.ClassReady m.store i.cls) (Eval.superReceiver id line m) := by
  obtain ⟨d, ht, hd⟩ := (w.placed _ ho).super rfl
  have hd := (h.ready.table _ ho).trans hd
  obtain ⟨⟨sc, hs, hx⟩, -⟩ := (Occurrence.depth?_eq_some_iff (o := ⟨id, "this", Γ⟩)).mp ht
  obtain ⟨f, outer, -, hf, ha⟩ := h.models.frame hs
  obtain ⟨i, hi⟩ := ha.receiver hx
  have heq : Eval.superReceiver id line m = .done i m := by
    simp only [Eval.superReceiver, hd]
    rw [readAt_eq hf, hi]
  rw [heq]
  have hv : w.ValueReady m.store (.object i) := h.ready.store.vars f "this" _ hi
  exact ⟨.refl h.ready, rfl, hv⟩

theorem Ends.receiverOf (hm : w.MachineReady m) {c : Closure} (hc : w.Callable m.store c) (hi : c.isInitializer = true)
    {F : Error → Prop} : w.Ends m F (fun v m' => w.ValueReady m'.store v) (Eval.receiverOf c m) := by
  obtain ⟨Γ, hc⟩ := hc
  obtain ⟨sc, outer, rfl, ht⟩ := hc.initializer hi
  obtain ⟨f, rest, -, hf, ha⟩ := hc.models.frame (d := 0) rfl
  obtain ⟨i, hi⟩ := ha.receiver ht
  have heq : Eval.receiverOf c m = .done (.object i) m := by
    simp only [Eval.receiverOf]
    rw [readAt_eq hf, hi]
  rw [heq]
  exact ⟨.refl hm, hm.store.vars f "this" _ hi⟩

theorem Ends.setVar (hm : w.MachineReady m) {f : FrameId} {x : String} {v : Value} (hx : x ≠ "this" ∧ x ≠ "super")
    (hv : w.ValueReady (m.store.setVar f x v) v) {F : Error → Prop} :
    w.Ends m F (fun _ m' => m'.store = m.store.setVar f x v) (Eval.setVar f x v m) :=
  ⟨.store hm (hm.store.setVar hx hv) (m.store.setVar_grows f v hx), rfl⟩

theorem Ends.assign (hm : w.MachineReady m) {id : NodeId} {name : Name} (hn : name.IsPlain) {v : Value}
    (hv : w.ValueReady m.store v) {F : Error → Prop}
    (hf : m.lookUp? id name.text = none → F (.runtime name.line (Eval.undefined name))) :
    w.Ends m F (fun _ _ => True) (Eval.assign id name v m) := by
  have hslot : ∀ env d, m.store.slotAt? env d name.text = none → m.store.readAt env d name.text = none := by
    intro env d hs
    rw [Store.readAt_eq_bind, hs, Option.bind_none]
  obtain ⟨slot, hs⟩ : ∃ slot, Eval.slotOf? id name m = .done slot m := ⟨_, rfl⟩
  rw [Eval.assign, Run.bind_apply, hs]
  cases slot with
  | some f => exact (Ends.setVar hm hn (hv.grow (m.store.setVar_grows f v hn))).imp (fun _ he => he) fun _ _ _ _ _ => trivial
  | none =>
    refine Ends.fail hm (hf ?_)
    injection hs with hs
    dsimp only at hs
    unfold Machine.lookUp?
    split
    · rename_i d hd
      rw [hd] at hs
      exact hslot _ _ hs
    · rename_i hd
      rw [hd] at hs
      exact hslot _ _ hs

/-- A declaration binds its name in the innermost frame. The value may see that already. -/
theorem Ends.define (h : w.At m Γ) {name : Name} (hn : name.IsPlain) {v : Value} {F : Error → Prop}
    (hv : ∀ s, m.store.Grows s → w.Models s m.env (Γ.declare [name.text]) → w.ValueReady s v)
    (hf : F (.runtime name.line (.naming (.alreadyDefined name.text)))) :
    w.Ends m F (fun _ m' => w.Models m'.store m'.env (Γ.declare [name.text]) ∧
      ∃ f ∈ m'.env.head?, (m'.store.var? f name.text).isSome) (Eval.define name v m) := by
  have hlt : ∀ f ∈ m.env.head?, f < m.store.frames.size := by
    intro f hf
    generalize henv : m.env = env at hf
    have hm := henv ▸ h.models
    cases hm with
    | global hs => cases hf; exact hs
    | scope ha _ => cases hf; exact ha.lt
  unfold Eval.define
  rw [Run.bind_apply]
  simp only [Run.read_apply]
  cases hs : m.store.freeSlot? m.env name.text with
  | some f =>
    obtain ⟨hhead, -⟩ := Option.filter_eq_some_iff.mp hs
    have hb : ∀ g ∈ m.env.head?, ((m.store.setVar f name.text v).var? g name.text).isSome := by
      intro g hg
      obtain rfl : g = f := by rw [hhead] at hg; exact (Option.some.inj hg).symm
      rw [Store.var?_setVar, if_pos ⟨rfl, rfl, hlt g hhead⟩]
      rfl
    have hg := m.store.setVar_grows f v hn
    have hmodels := (h.models.grow hg).declare hn hb
    exact ⟨.store h.ready (h.ready.store.setVar hn (hv _ hg hmodels)) hg, hmodels, f, hhead, hb f hhead⟩
  | none => exact Ends.fail h.ready hf

theorem Ends.overwrite (hm : w.MachineReady m) {name : Name} (hn : name.IsPlain) {v : Value} (hv : w.ValueReady m.store v)
    (hd : ∃ f ∈ m.env.head?, (m.store.var? f name.text).isSome) {F : Error → Prop} :
    w.Ends m F (fun _ _ => True) (Eval.overwrite name v m) := by
  obtain ⟨f, hf, hs⟩ := hd
  have hslot : m.store.slot? m.env name.text = some f := by
    cases henv : m.env with
    | nil => rw [henv] at hf; cases hf
    | cons g outer =>
      rw [henv] at hf
      cases hf
      simp [Store.slot?, hs]
  unfold Eval.overwrite
  rw [Run.bind_apply]
  simp only [Run.read_apply, hslot]
  exact (Ends.setVar hm hn (hv.grow (m.store.setVar_grows f v hn))).imp (fun _ he => he) fun _ _ _ _ _ => trivial

end World

end Lox
