import Lox.Proofs.Scope.Placement
import Lox.Proofs.Evaluation.Moment

/-!
# Environments and scopes

An environment is the run-time side of a list of scopes: frame by frame it was created for them and
holds what they have declared. Values are well made if the environments of their functions are such
sides of the scopes that the functions were resolved in.
-/

namespace Lox

/-- The environments that were created for what opens a scope, and the occurrences of all programs. -/
structure World where
  created : Env → Opener → Prop
  known : Occurrence → Prop
  placed : ∀ o, known o → o.Placed

namespace World

variable (w : World)

/-- The code is proper and its occurrences are known. -/
structure Sees (proper : Prop) (os : List Occurrence) : Prop where
  proper : proper
  known : ∀ o ∈ os, w.known o

def SeesExpr (e : Expr) (Γ : Scopes) : Prop := w.Sees (e.Proper Name.IsPlain Name.Differ) (e.occurrences Γ)

def SeesExprs (es : List Expr) (Γ : Scopes) : Prop :=
  w.Sees (ProperExprs Name.IsPlain Name.Differ es) (occurrencesExprs es Γ)

def SeesStmt (st : Stmt) (Γ : Scopes) : Prop := w.Sees (st.Proper Name.IsPlain Name.Differ) (st.occurrences Γ)

def SeesStmts (sts : List Stmt) (Γ : Scopes) : Prop :=
  w.Sees (ProperStmts Name.IsPlain Name.Differ sts) (occurrencesStmts sts Γ)

def SeesRoutine (r : Routine) (Γ : Scopes) : Prop := w.Sees (r.Proper Name.IsPlain Name.Differ) (r.occurrences Γ)

def SeesMethods (ms : List Method) (Γ : Scopes) : Prop :=
  w.Sees (ProperMethods Name.IsPlain Name.Differ ms) (occurrencesMethods ms Γ)

/-- The frame is an activation of the scope. -/
structure Activation (s : Store) (f : FrameId) (outer : Env) (sc : LocalScope) : Prop where
  lt : f < s.frames.size
  created : w.created (f :: outer) sc.opener
  bound : ∀ x ∈ sc.names, sc.pending ≠ some x → (s.var? f x).isSome
  receiver : "this" ∈ sc.names → ∃ i, s.var? f "this" = some (.object i)
  parent : "super" ∈ sc.names → ∃ c, s.var? f "super" = some (.klass c)

/-- The environment consists of activations of the scopes, around them the global frame. -/
inductive Models (s : Store) : Env → Scopes → Prop where
  | global : 0 < s.frames.size → Models s globalEnv []
  | scope {f outer sc Γ} : w.Activation s f outer sc → Models s outer Γ → Models s (f :: outer) (sc :: Γ)

/-- No initializer is going on in the innermost scope. -/
def Settled (Γ : Scopes) : Prop := ∀ sc ∈ Γ.head?, sc.pending = none

/-! ## Values -/

/-- The closure can be called: its environment is one of the scopes around its code. -/
structure CallableIn (s : Store) (c : Closure) (Γ : Scopes) : Prop where
  models : w.Models s c.env Γ
  sees : w.SeesRoutine c.routine Γ
  initializer : c.isInitializer = true → ∃ sc outer, Γ = sc :: outer ∧ "this" ∈ sc.names
  getter : c.isGetter = true → c.routine.params = []

def Callable (s : Store) (c : Closure) : Prop := ∃ Γ, w.CallableIn s c Γ

/-- The closure is a method of the class declaration, and can be called with `this` around it. -/
structure BindableIn (s : Store) (c : Closure) (Γ : Scopes) (decl : Stmt) : Prop where
  models : w.Models s c.env Γ
  declares : decl.DeclaresMethod c.routine
  sees : w.SeesRoutine c.routine (.ofReceiver decl :: Γ)
  getter : c.isGetter = true → c.routine.params = []

def Bindable (s : Store) (c : Closure) : Prop := ∃ Γ decl, w.BindableIn s c Γ decl

structure LayerReady (s : Store) (layer : ClassLayer) : Prop where
  older : layer.serial < s.nextSerial
  methods : ∀ x f, layer.methods.get? x = some f → w.Bindable s f.closure
  statics : ∀ x f, layer.statics.get? x = some f → w.Callable s f.closure

def ClassReady (s : Store) (c : Class) : Prop := ∀ layer ∈ c.lineage, w.LayerReady s layer

def ValueReady (s : Store) : Value → Prop
  | .nil => True
  | .bool _ => True
  | .number _ => True
  | .string _ => True
  | .native _ => True
  | .function f => w.Callable s f.closure
  | .klass c => w.ClassReady s c
  | .bound m => w.ClassReady s m.receiver.cls ∧ w.Callable s m.method
  | .object i => w.ClassReady s i.cls

/-- All that is stored is ready. -/
structure StoreReady (s : Store) : Prop where
  vars : ∀ f x v, s.var? f x = some v → w.ValueReady s v
  fields : ∀ i x v, s.field? i x = some v → w.ValueReady s v
  /-- All frames but the global one were created for a scope. -/
  made : ∀ f < s.frames.size, f = 0 ∨ ∃ outer opener, w.created (f :: outer) opener

/-- The machine holds ready values, and its bindings are those of the known occurrences. -/
structure MachineReady (m : Machine) : Prop where
  store : w.StoreReady m.store
  table : ∀ o, w.known o → m.bindings.get? o.id = o.depth?

end World

/-! ## Growth -/

/-- Frames are only ever added, names stay bound, and `this` and `super` keep their values. Identities are given out in order. -/
structure Store.Grows (s s' : Store) : Prop where
  size : s.frames.size ≤ s'.frames.size
  serials : s.nextSerial ≤ s'.nextSerial
  bound : ∀ f x, (s.var? f x).isSome → (s'.var? f x).isSome
  implicit : ∀ f x v, x = "this" ∨ x = "super" → s.var? f x = some v → s'.var? f x = some v

namespace Store.Grows

variable {s s' s'' : Store}

theorem refl (s : Store) : Grows s s := ⟨Nat.le_refl _, Nat.le_refl _, fun _ _ => id, fun _ _ _ _ => id⟩

theorem trans (h : Grows s s') (h' : Grows s' s'') : Grows s s'' :=
  ⟨Nat.le_trans h.size h'.size, Nat.le_trans h.serials h'.serials, fun f x hx => h'.bound f x (h.bound f x hx),
    fun f x v hx hv => h'.implicit f x v hx (h.implicit f x v hx hv)⟩

/-- Only the frames and the identities count. -/
theorem of_frames (h : s'.frames = s.frames) (hserials : s.nextSerial ≤ s'.nextSerial) : Grows s s' := by
  refine ⟨Nat.le_of_eq (by rw [h]), hserials, fun f x hx => ?_, fun f x v _ hv => ?_⟩
  · simpa [var?, frame?, h] using hx
  · simpa [var?, frame?, h] using hv

end Store.Grows

namespace Store

/-! ## Variables of a changed store -/

@[simp] theorem var?_extend (s : Store) (frame : Frame) (env : Env) (f : FrameId) (x : String) :
    (s.extend frame env).2.var? f x = if f = s.frames.size then frame.get? x else s.var? f x := by
  simp only [extend, var?, frame?, Array.getElem?_push]
  split <;> rfl

theorem var?_setVar (s : Store) (f g : FrameId) (x y : String) (v : Value) :
    (s.setVar f x v).var? g y = if g = f ∧ y = x ∧ f < s.frames.size then some v else s.var? g y := by
  simp only [setVar, var?, frame?, Array.getElem?_modify]
  by_cases hg : f = g
  · subst hg
    by_cases hf : f < s.frames.size
    · simp only [if_true, Array.getElem?_eq_getElem hf, Option.map_some, Option.bind_some, Dict.get?_insert]
      by_cases hy : y = x <;> simp [hy, hf]
    · simp [hf]
  · simp [hg, Ne.symm hg]

theorem readAt_eq_bind (s : Store) (env : Env) (d : Nat) (x : String) :
    s.readAt env d x = (s.slotAt? env d x).bind (s.var? · x) := by
  unfold readAt slotAt?
  cases ancestor? env d with
  | none => rfl
  | some f =>
    cases hv : s.var? f x with
    | none => simp [Option.filter, hv]
    | some v => simp [Option.filter, hv]

theorem extend_grows (s : Store) (frame : Frame) (env : Env) : Grows s (s.extend frame env).2 := by
  have hlt : ∀ {f x v}, s.var? f x = some v → f ≠ s.frames.size := by
    rintro f x v hv rfl
    simp [var?, frame?] at hv
  refine ⟨by simp [extend], Nat.le_refl _, fun f x hx => ?_, fun f x v _ hv => ?_⟩
  · obtain ⟨v, hv⟩ := Option.isSome_iff_exists.mp hx
    rw [var?_extend, if_neg (hlt hv)]; exact hx
  · rw [var?_extend, if_neg (hlt hv)]; exact hv

theorem setVar_grows (s : Store) (f : FrameId) {x : String} (v : Value) (hx : x ≠ "this" ∧ x ≠ "super") :
    Grows s (s.setVar f x v) := by
  refine ⟨by simp [setVar], Nat.le_refl _, fun g y hy => ?_, fun g y u hy hu => ?_⟩
  · rw [var?_setVar]; split
    · rfl
    · exact hy
  · rw [var?_setVar, if_neg]; · exact hu
    intro h
    obtain ⟨-, rfl, -⟩ := h
    exact hy.elim hx.1 hx.2

end Store

/-! ## What a store holds -/

/-- All values in the store are such values. -/
structure Store.Holds (Q : Value → Prop) (s : Store) : Prop where
  vars : ∀ f x v, s.var? f x = some v → Q v
  fields : ∀ i x v, s.field? i x = some v → Q v

namespace Store.Holds

variable {Q : Value → Prop} {s : Store}

theorem extend (h : s.Holds Q) {frame : Frame} (env : Env) (hf : ∀ x v, frame.get? x = some v → Q v) :
    (s.extend frame env).2.Holds Q where
  vars f x v hv := by
    rw [Store.var?_extend] at hv
    split at hv
    · exact hf x v hv
    · exact h.vars f x v hv
  fields i x v hv := h.fields i x v hv

theorem setVar (h : s.Holds Q) {f : FrameId} {x : String} {v : Value} (hv : Q v) : (s.setVar f x v).Holds Q where
  vars g y u hu := by
    rw [Store.var?_setVar] at hu
    split at hu
    · cases hu; exact hv
    · exact h.vars g y u hu
  fields i y u hu := h.fields i y u hu

theorem setField (h : s.Holds Q) {i : Instance} {x : String} {v : Value} (hv : Q v) : (s.setField i x v).Holds Q where
  vars f y u hu := h.vars f y u hu
  fields j y u hu := by
    simp only [Store.field?, Store.setField, Array.getElem?_modify] at hu
    by_cases hi : i.id = j.id
    · rw [if_pos hi] at hu
      cases hj : s.fields[j.id]? with
      | none => simp [hj] at hu
      | some d =>
        simp only [hj, Option.map_some, Option.bind_some, Dict.get?_insert] at hu
        split at hu
        · cases hu; exact hv
        · exact h.fields j y u (by simpa [Store.field?, hj] using hu)
    · rw [if_neg hi] at hu
      exact h.fields j y u hu

theorem freshSerial (h : s.Holds Q) : s.freshSerial.2.Holds Q := ⟨h.vars, h.fields⟩

theorem construct (h : s.Holds Q) (cls : Class) : (s.construct cls).2.Holds Q where
  vars f x v hv := h.vars f x v hv
  fields i x v hv := by
    simp only [Store.field?, Store.construct, Array.getElem?_push] at hv
    split at hv
    · cases hv
    · exact h.fields i x v hv

theorem readAt (h : s.Holds Q) {env : Env} {d : Nat} {x : String} {v : Value} (hv : s.readAt env d x = some v) : Q v := by
  obtain ⟨f, -, hv⟩ := Option.bind_eq_some_iff.mp hv
  exact h.vars f x v hv

end Store.Holds

/-! ## What growth keeps -/

namespace World

variable {w : World} {s s' : Store}

theorem Activation.grow {f : FrameId} {outer : Env} {sc : LocalScope} (h : w.Activation s f outer sc) (hg : s.Grows s') :
    w.Activation s' f outer sc where
  lt := Nat.lt_of_lt_of_le h.lt hg.size
  created := h.created
  bound x hx hp := hg.bound f x (h.bound x hx hp)
  receiver ht := (h.receiver ht).imp fun _ hi => hg.implicit _ _ _ (.inl rfl) hi
  parent hs := (h.parent hs).imp fun _ hc => hg.implicit _ _ _ (.inr rfl) hc

theorem Models.grow {env : Env} {Γ : Scopes} (h : w.Models s env Γ) (hg : s.Grows s') : w.Models s' env Γ := by
  induction h with
  | global h => exact .global (Nat.lt_of_lt_of_le h hg.size)
  | scope ha _ ih => exact .scope (ha.grow hg) ih

theorem CallableIn.grow {c : Closure} {Γ : Scopes} (h : w.CallableIn s c Γ) (hg : s.Grows s') : w.CallableIn s' c Γ :=
  { h with models := h.models.grow hg }

theorem Callable.grow {c : Closure} (h : w.Callable s c) (hg : s.Grows s') : w.Callable s' c :=
  h.imp fun _ h => h.grow hg

theorem Bindable.grow {c : Closure} (h : w.Bindable s c) (hg : s.Grows s') : w.Bindable s' c := by
  obtain ⟨Γ, decl, h⟩ := h
  exact ⟨Γ, decl, { h with models := h.models.grow hg }⟩

theorem LayerReady.grow {layer : ClassLayer} (h : w.LayerReady s layer) (hg : s.Grows s') : w.LayerReady s' layer where
  older := Nat.lt_of_lt_of_le h.older hg.serials
  methods x f hf := (h.methods x f hf).grow hg
  statics x f hf := (h.statics x f hf).grow hg

theorem ClassReady.grow {c : Class} (h : w.ClassReady s c) (hg : s.Grows s') : w.ClassReady s' c :=
  fun layer hl => (h layer hl).grow hg

theorem ValueReady.grow : ∀ {v : Value}, w.ValueReady s v → s.Grows s' → w.ValueReady s' v
  | .nil, _, _ => trivial
  | .bool _, _, _ => trivial
  | .number _, _, _ => trivial
  | .string _, _, _ => trivial
  | .native _, _, _ => trivial
  | .function _, h, hg => Callable.grow h hg
  | .klass _, h, hg => ClassReady.grow h hg
  | .bound _, h, hg => ⟨h.1.grow hg, h.2.grow hg⟩
  | .object _, h, hg => ClassReady.grow h hg

/-! ## Larger worlds -/

/-- The second world has seen all that the first one has. -/
structure Within (w w' : World) : Prop where
  created : ∀ env opener, w.created env opener → w'.created env opener
  known : ∀ o, w.known o → w'.known o

section
variable {w' : World}

theorem Sees.mono {p : Prop} {os : List Occurrence} (h : w.Sees p os) (hw : w.Within w') : w'.Sees p os :=
  ⟨h.proper, fun o ho => hw.known o (h.known o ho)⟩

theorem Models.mono {env : Env} {Γ : Scopes} (h : w.Models s env Γ) (hw : w.Within w') : w'.Models s env Γ := by
  induction h with
  | global h => exact .global h
  | scope ha _ ih => exact .scope { ha with created := hw.created _ _ ha.created } ih

theorem Callable.mono {c : Closure} (h : w.Callable s c) (hw : w.Within w') : w'.Callable s c := by
  obtain ⟨Γ, h⟩ := h
  exact ⟨Γ, { h with models := h.models.mono hw, sees := h.sees.mono hw }⟩

theorem Bindable.mono {c : Closure} (h : w.Bindable s c) (hw : w.Within w') : w'.Bindable s c := by
  obtain ⟨Γ, decl, h⟩ := h
  exact ⟨Γ, decl, { h with models := h.models.mono hw, sees := h.sees.mono hw }⟩

theorem LayerReady.mono {layer : ClassLayer} (h : w.LayerReady s layer) (hw : w.Within w') : w'.LayerReady s layer where
  older := h.older
  methods x f hf := (h.methods x f hf).mono hw
  statics x f hf := (h.statics x f hf).mono hw

theorem ClassReady.mono {c : Class} (h : w.ClassReady s c) (hw : w.Within w') : w'.ClassReady s c :=
  fun layer hl => (h layer hl).mono hw

theorem ValueReady.mono : ∀ {v : Value}, w.ValueReady s v → w.Within w' → w'.ValueReady s v
  | .nil, _, _ => trivial
  | .bool _, _, _ => trivial
  | .number _, _, _ => trivial
  | .string _, _, _ => trivial
  | .native _, _, _ => trivial
  | .function _, h, hw => Callable.mono h hw
  | .klass _, h, hw => ClassReady.mono h hw
  | .bound _, h, hw => ⟨h.1.mono hw, h.2.mono hw⟩
  | .object _, h, hw => ClassReady.mono h hw

theorem StoreReady.mono (h : w.StoreReady s) (hw : w.Within w') : w'.StoreReady s where
  vars f x v hv := (h.vars f x v hv).mono hw
  fields i x v hv := (h.fields i x v hv).mono hw
  made f hf := (h.made f hf).imp_right fun ⟨outer, opener, hc⟩ => ⟨outer, opener, hw.created _ _ hc⟩

end

/-! ## Frames of an environment -/

/-- Each scope has its frame, as many links out as the scope lies. -/
theorem Models.frame {env : Env} {Γ : Scopes} (h : w.Models s env Γ) : ∀ {d : Nat} {sc : LocalScope}, Γ[d]? = some sc →
    ∃ f outer, env.drop d = f :: outer ∧ env[d]? = some f ∧ w.Activation s f outer sc := by
  induction h with
  | global _ => intro d sc hd; simp at hd
  | @scope f outer sc Γ ha hm ih =>
    intro d sc' hd
    cases d with
    | zero => cases hd; exact ⟨f, outer, rfl, rfl, ha⟩
    | succ d => exact ih (by simpa using hd)

theorem Models.declare {env : Env} {Γ : Scopes} {x : String} (h : w.Models s env Γ) (hx : x ≠ "this" ∧ x ≠ "super")
    (hb : ∀ f ∈ env.head?, (s.var? f x).isSome) : w.Models s env (Γ.declare [x]) := by
  cases h with
  | global h => exact .global h
  | scope ha hm =>
    refine .scope { ha with bound := ?_, receiver := ?_, parent := ?_ } hm
    · intro y hy hp
      cases hy with
      | head => exact hb _ rfl
      | tail _ hy => exact ha.bound y hy hp
    · exact fun ht => ha.receiver (by simpa [hx.1.symm] using ht)
    · exact fun hs => ha.parent (by simpa [hx.2.symm] using hs)

theorem Models.enterInitializer {env : Env} {Γ : Scopes} {x : String} (h : w.Models s env Γ) (hs : Settled Γ)
    (hx : x ≠ "this" ∧ x ≠ "super") : w.Models s env (Γ.enterInitializer x) := by
  cases h with
  | global h => exact .global h
  | @scope f outer sc Γ ha hm =>
    have hp : sc.pending = none := hs sc rfl
    refine .scope { ha with bound := ?_, receiver := ?_, parent := ?_ } hm
    · intro y hy hp'
      cases hy with
      | head => exact absurd rfl hp'
      | tail _ hy => exact ha.bound y hy (by simp [hp])
    · exact fun ht => ha.receiver (by simpa [hx.1.symm] using ht)
    · exact fun hs => ha.parent (by simpa [hx.2.symm] using hs)

theorem Settled.declare {Γ : Scopes} {names : List String} (h : Settled Γ) : Settled (Γ.declare names) := by
  cases Γ with
  | nil => exact h
  | cons sc outer => exact fun sc' hs => by cases hs; exact h sc rfl

end World

end Lox
