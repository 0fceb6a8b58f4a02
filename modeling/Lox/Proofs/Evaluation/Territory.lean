import Lox.Proofs.Evaluation.Objects
import Lox.Proofs.Evaluation.Frames

/-!
# What an evaluation can reach

The cells of a store are its frames and its field tables. A value mentions cells, and the values in a cell mention further ones,
so a set of cells that is closed under this is a territory that an evaluation cannot leave: it finds no value there that leads
outside, and what it adds to the store is inside. Every operation keeps to such a territory.
-/

namespace Lox

inductive Cell where
  /-- The variables of a frame. -/
  | frame (id : FrameId)
  /-- The fields of an instance. -/
  | object (id : Nat)
deriving DecidableEq

/-- The frames of its functions, and where it is an instance, its fields. The environment of a function has the frames around
the innermost one too, and a class has the tables of its ancestors. -/
inductive Value.Mentions : Value → Cell → Prop where
  | function {f : FunctionObject} {g} : g ∈ f.closure.env → Mentions (.function f) (.frame g)
  | method {c : Class} {layer x} {f : FunctionObject} {g} : layer ∈ c.lineage → layer.methods.get? x = some f →
    g ∈ f.closure.env → Mentions (.klass c) (.frame g)
  | static {c : Class} {layer x} {f : FunctionObject} {g} : layer ∈ c.lineage → layer.statics.get? x = some f →
    g ∈ f.closure.env → Mentions (.klass c) (.frame g)
  | object {i} : Mentions (.object i) (.object i.id)
  | cls {i cell} : Mentions (.klass i.cls) cell → Mentions (.object i) cell
  | receiver {m cell} : Mentions (.object m.receiver) cell → Mentions (.bound m) cell
  | bound {m : BoundMethod} {g} : g ∈ m.method.env → Mentions (.bound m) (.frame g)

/-- The cells to which one comes from the roots. -/
inductive Store.Reach (s : Store) (roots : Cell → Prop) : Cell → Prop where
  | root {cell} : roots cell → Reach s roots cell
  | var {f x v cell} : Reach s roots (.frame f) → s.var? f x = some v → v.Mentions cell → Reach s roots cell
  | field {i : Instance} {x v cell} : Reach s roots (.object i.id) → s.field? i x = some v → v.Mentions cell →
    Reach s roots cell

/-! ## Territories -/

section
variable (K : Cell → Prop)

def EnvInside (env : Env) : Prop := ∀ f ∈ env, K (.frame f)

/-- All that it mentions is inside. -/
def Value.Inside (v : Value) : Prop := ∀ cell, v.Mentions cell → K cell

/-- No value inside leads outside, and no cell outside is still to be made. -/
structure Store.Closed (s : Store) : Prop where
  global : K (.frame 0)
  vars : ∀ f x v, K (.frame f) → s.var? f x = some v → v.Inside K
  fields : ∀ (i : Instance) x v, K (.object i.id) → s.field? i x = some v → v.Inside K
  newFrames : ∀ f, s.frames.size ≤ f → K (.frame f)
  newObjects : ∀ i, s.fields.size ≤ i → K (.object i)

/-- The cells outside are as they were. -/
structure Store.Spares (s s' : Store) : Prop where
  frames : ∀ f, ¬ K (.frame f) → s'.frames[f]? = s.frames[f]?
  fields : ∀ i, ¬ K (.object i) → s'.fields[i]? = s.fields[i]?

end

section
variable {K : Cell → Prop} {s s' s'' : Store}

/-! ## Values -/

namespace Value

theorem inside_function {f : FunctionObject} : (Value.function f).Inside K ↔ EnvInside K f.closure.env :=
  ⟨fun h _ hg => h _ (.function hg), fun h _ hm => by cases hm with | function hg => exact h _ hg⟩

theorem inside_object {i : Instance} : (Value.object i).Inside K ↔ K (.object i.id) ∧ (Value.klass i.cls).Inside K := by
  refine ⟨fun h => ⟨h _ .object, fun _ hm => h _ (.cls hm)⟩, fun h cell hm => ?_⟩
  cases hm with
  | object => exact h.1
  | cls hm => exact h.2 _ hm

theorem inside_bound {m : BoundMethod} :
    (Value.bound m).Inside K ↔ (Value.object m.receiver).Inside K ∧ EnvInside K m.method.env := by
  refine ⟨fun h => ⟨fun _ hm => h _ (.receiver hm), fun _ hg => h _ (.bound hg)⟩, fun h cell hm => ?_⟩
  cases hm with
  | receiver hm => exact h.1 _ hm
  | bound hg => exact h.2 _ hg

theorem Inside.method {c : Class} (h : (Value.klass c).Inside K) {x : String} {f : FunctionObject} (hf : c.method? x = some f) :
    EnvInside K f.closure.env := by
  obtain ⟨layer, hl, hf⟩ := List.exists_of_findSome?_eq_some hf
  exact fun _ hg => h _ (.method hl hf hg)

theorem Inside.static {c : Class} (h : (Value.klass c).Inside K) {x : String} {f : FunctionObject} (hf : c.static? x = some f) :
    EnvInside K f.closure.env := by
  obtain ⟨layer, hl, hf⟩ := List.exists_of_findSome?_eq_some hf
  exact fun _ hg => h _ (.static hl hf hg)

/-- What operators give mentions nothing. -/
theorem inside_unary {op : Mark} {v u : Value} (h : op.applyUnary v = .ok u) : u.Inside K := by
  unfold Mark.applyUnary at h
  split at h <;> cases h <;> exact fun _ hm => nomatch hm

theorem inside_onNumbers {op : Mark} {x y : Float} {u : Value} (h : op.onNumbers x y = .ok u) : u.Inside K := by
  unfold Mark.onNumbers at h
  split at h
  case h_4 | h_5 => split at h <;> cases h; exact fun _ hm => nomatch hm
  all_goals cases h
  all_goals exact fun _ hm => nomatch hm

theorem inside_binary {op : Mark} {v w u : Value} (h : op.applyBinary v w = .ok u) : u.Inside K := by
  unfold Mark.applyBinary at h
  split at h
  case h_4 => exact inside_onNumbers h
  all_goals cases h
  all_goals exact fun _ hm => nomatch hm

theorem inside_literal (l : Literal) : (Value.ofLiteral l).Inside K := by
  cases l <;> exact fun _ hm => nomatch hm

theorem inside_nil : Value.nil.Inside K := fun _ hm => nomatch hm

end Value

/-! ## Stores -/

namespace Store

theorem Spares.refl (s : Store) : s.Spares K s := ⟨fun _ _ => rfl, fun _ _ => rfl⟩

theorem Spares.trans (h : s.Spares K s') (h' : s'.Spares K s'') : s.Spares K s'' :=
  ⟨fun f hf => (h'.frames f hf).trans (h.frames f hf), fun i hi => (h'.fields i hi).trans (h.fields i hi)⟩

theorem Spares.setVar {f : FrameId} (hf : K (.frame f)) (x : String) (v : Value) : s.Spares K (s.setVar f x v) where
  frames g hg := by
    have hne : f ≠ g := by rintro rfl; exact hg hf
    simp [Store.setVar, Array.getElem?_modify, hne]
  fields _ _ := rfl

theorem Spares.setField {i : Instance} (hi : K (.object i.id)) (x : String) (v : Value) : s.Spares K (s.setField i x v) where
  frames _ _ := rfl
  fields j hj := by
    have hne : i.id ≠ j := by rintro rfl; exact hj hi
    simp [Store.setField, Array.getElem?_modify, hne]

namespace Closed

theorem globalEnv (h : s.Closed K) : EnvInside K globalEnv := fun _ hf => List.mem_singleton.mp hf ▸ h.global

theorem readAt (h : s.Closed K) {env : Env} (henv : EnvInside K env) {d : Nat} {x : String} {v : Value}
    (hv : s.readAt env d x = some v) : v.Inside K := by
  obtain ⟨f, hf, hv⟩ := Option.bind_eq_some_iff.mp hv
  exact h.vars f x v (henv f (List.mem_of_getElem? hf)) hv

theorem setVar (h : s.Closed K) (f : FrameId) (x : String) {v : Value} (hv : v.Inside K) : (s.setVar f x v).Closed K :=
  { h with
    vars := fun g y u hg hu => by
      rw [var?_setVar] at hu
      split at hu
      · cases hu; exact hv
      · exact h.vars g y u hg hu
    newFrames := fun g hg => h.newFrames g (by simpa [Store.setVar] using hg) }

theorem setField (h : s.Closed K) (i : Instance) (x : String) {v : Value} (hv : v.Inside K) : (s.setField i x v).Closed K :=
  { h with
    fields := fun j y u hj hu => by
      simp only [Store.field?, Store.setField, Array.getElem?_modify] at hu
      split at hu
      · cases hd : s.fields[j.id]? with
        | none => simp [hd] at hu
        | some d =>
          simp only [hd, Option.map_some, Option.bind_some, Dict.get?_insert] at hu
          split at hu
          · cases hu; exact hv
          · exact h.fields j y u hj (by simpa [Store.field?, hd] using hu)
      · exact h.fields j y u hj hu
    newObjects := fun j hj => h.newObjects j (by simpa [Store.setField] using hj) }

/-- The new frame is inside. -/
theorem extend (h : s.Closed K) {frame : Frame} (env : Env) (hf : ∀ x v, frame.get? x = some v → v.Inside K) :
    (s.extend frame env).2.Closed K :=
  { h with
    vars := fun f x v hi hv => by
      rw [var?_extend] at hv
      split at hv
      · exact hf x v hv
      · exact h.vars f x v hi hv
    newFrames := fun f hlt => h.newFrames f (by simp [Store.extend] at hlt; omega) }

theorem spares_extend (h : s.Closed K) (frame : Frame) (env : Env) : s.Spares K (s.extend frame env).2 where
  frames f hf := by
    have hlt : f < s.frames.size := Nat.lt_of_not_le fun hle => hf (h.newFrames f hle)
    simp [Store.extend, Array.getElem?_push, Nat.ne_of_lt hlt]
  fields _ _ := rfl

/-- The new instance is inside. -/
theorem construct (h : s.Closed K) (cls : Class) : (s.construct cls).2.Closed K :=
  { h with
    fields := fun i x v hi hv => by
      simp only [Store.field?, Store.construct, Array.getElem?_push] at hv
      split at hv
      · cases hv
      · exact h.fields i x v hi hv
    newObjects := fun i hlt => h.newObjects i (by simp [Store.construct] at hlt; omega) }

theorem spares_construct (h : s.Closed K) (cls : Class) : s.Spares K (s.construct cls).2 where
  frames _ _ := rfl
  fields i hi := by
    have hlt : i < s.fields.size := Nat.lt_of_not_le fun hle => hi (h.newObjects i hle)
    simp [Store.construct, Array.getElem?_push, Nat.ne_of_lt hlt]

theorem freshSerial (h : s.Closed K) : s.freshSerial.2.Closed K := { h with }

end Closed

end Store

end

/-! ## Runs -/

section
variable (K : Cell → Prop)

/-- The machine is one that work inside the territory comes to. -/
structure Machine.After (m m' : Machine) : Prop where
  closed : m'.store.Closed K
  spares : m.store.Spares K m'.store
  env : m'.env = m.env

def Outcome.After {α : Type} (Q : α → Prop) (m : Machine) : Outcome Machine Error α → Prop
  | .done a m' => m.After K m' ∧ Q a
  | .failed _ m' => m.After K m'
  | .exhausted => True

/-- Where the store is closed, the run spares what is outside, and gives what is stated. If it looks at the environment in scope,
that has to be inside. -/
def Eval.Stays (looks : Prop) {α : Type} (Q : α → Prop) (body : Eval α) : Prop :=
  ∀ m : Machine, m.store.Closed K → (looks → EnvInside K m.env) → (body m).After K Q m

end

namespace Eval.Stays

section
variable {α β : Type} {K : Cell → Prop} {looks : Prop} {Q : α → Prop} {R : β → Prop} {body : Eval α}

/-- The store is the same at the end. -/
theorem pure {a : α} (h : Q a) : Stays K looks Q (Pure.pure a : Eval α) := fun _ hm _ => ⟨⟨hm, .refl _, rfl⟩, h⟩

theorem fail {line : Nat} {fault : RuntimeFault} : Stays K looks Q (Eval.fail line fault) := fun _ hm _ => ⟨hm, .refl _, rfl⟩

theorem bind {next : α → Eval β} (h : Stays K looks Q body) (hn : ∀ a, Q a → Stays K looks R (next a)) :
    Stays K looks R (body >>= next) := by
  intro m hm henv
  have hb := h m hm henv
  rw [Run.bind_apply]
  cases heq : body m with
  | exhausted => trivial
  | failed e m₁ => rw [heq] at hb; exact hb
  | done a m₁ =>
    rw [heq] at hb
    obtain ⟨⟨hclosed, hspares, henv₁⟩, ha⟩ := hb
    have hnext := hn a ha m₁ hclosed fun hs => henv₁ ▸ henv hs
    dsimp only
    cases hnx : next a m₁ with
    | exhausted => trivial
    | failed e m₂ =>
      rw [hnx] at hnext
      exact ⟨hnext.closed, hspares.trans hnext.spares, hnext.env.trans henv₁⟩
    | done b m₂ =>
      rw [hnx] at hnext
      exact ⟨⟨hnext.1.closed, hspares.trans hnext.1.spares, hnext.1.env.trans henv₁⟩, hnext.2⟩

/-- What does not look at the environment may be done in any. -/
theorem anywhere (h : Stays K False Q body) : Stays K looks Q body := fun m hm _ => h m hm False.elim

theorem ofExcept {line : Nat} {x : Except RuntimeFault α} (h : ∀ a, x = .ok a → Q a) :
    Stays K looks Q (Eval.ofExcept line x) := by
  cases x with
  | ok a => exact pure (h a rfl)
  | error fault => exact fail

theorem ofOption {o : Option β} {x : Eval α} {f : β → Eval α} (hx : Stays K looks Q x)
    (hf : ∀ b, o = some b → Stays K looks Q (f b)) : Stays K looks Q (o.elim x f) := by
  cases o with
  | none => exact hx
  | some b => exact hf b rfl

theorem ite {c : Prop} [Decidable c] {x y : Eval α} (hx : Stays K looks Q x) (hy : Stays K looks Q y) :
    Stays K looks Q (if c then x else y) := by
  split
  · exact hx
  · exact hy

theorem read {f : Machine → α} (h : ∀ m : Machine, m.store.Closed K → (looks → EnvInside K m.env) → Q (f m)) :
    Stays K looks Q (Run.read f) := fun m hm henv => ⟨⟨hm, .refl _, rfl⟩, h m hm henv⟩

/-- In an environment inside, work may look at it. -/
theorem within {env : Env} (henv : EnvInside K env) (h : Stays K True Q body) : Stays K looks Q (Eval.within env body) := by
  intro m hm _
  have hb := h { m with env } hm fun _ => henv
  unfold Eval.within
  cases heq : body { m with env } with
  | exhausted => trivial
  | failed e m' => rw [heq] at hb; exact ⟨hb.closed, hb.spares, rfl⟩
  | done a m' => rw [heq] at hb; exact ⟨⟨hb.1.closed, hb.1.spares, rfl⟩, hb.2⟩

theorem asCall {line : Nat} (h : Stays K looks Q body) : Stays K looks Q (Eval.asCall line body) := by
  intro m hm henv
  unfold Eval.asCall
  split
  · exact ⟨hm, .refl _, rfl⟩
  · have hb := h { m with depth := m.depth + 1 } hm henv
    dsimp only
    cases heq : body { m with depth := m.depth + 1 } with
    | exhausted => trivial
    | failed e m' => rw [heq] at hb; exact ⟨hb.closed, hb.spares, hb.env⟩
    | done a m' => rw [heq] at hb; exact ⟨⟨hb.1.closed, hb.1.spares, hb.1.env⟩, hb.2⟩

/-! ## Variables -/

theorem lookUp (id : NodeId) (name : Name) : Stays K True (Value.Inside K) (Eval.lookUp id name) := by
  intro m hm henv
  unfold Eval.lookUp
  extract_lets found
  cases hv : found with
  | none => exact ⟨hm, .refl _, rfl⟩
  | some v =>
    refine ⟨⟨hm, .refl _, rfl⟩, ?_⟩
    dsimp only [found] at hv
    split at hv
    · exact hm.readAt (henv trivial) hv
    · exact hm.readAt hm.globalEnv hv

theorem setVar {f : FrameId} (hf : K (.frame f)) (x : String) {v : Value} (hv : v.Inside K) :
    Stays K looks (fun _ => True) (Eval.setVar f x v) :=
  fun _ hm _ => ⟨⟨hm.setVar f x hv, .setVar hf x v, rfl⟩, trivial⟩

/-- The frame that is written is found in an environment inside. -/
theorem setSlot {name : Name} {v : Value} (hv : v.Inside K) {slot : Machine → Option FrameId} {fault : RuntimeFault}
    (h : ∀ m : Machine, m.store.Closed K → (looks → EnvInside K m.env) → ∀ f ∈ slot m, K (.frame f)) :
    Stays K looks (fun _ => True) (Run.read slot >>= fun found => match found with
      | some frame => Eval.setVar frame name.text v
      | none => Eval.fail name.line fault : Eval Unit) := by
  refine bind (Q := fun found => ∀ f ∈ found, K (.frame f)) (read h) fun found hfound => ?_
  cases found with
  | none => exact fail
  | some f => exact setVar (hfound f rfl) name.text hv

theorem mem_of_slotAt? {s : Store} {env : Env} {d : Nat} {x : String} {f : FrameId} (h : s.slotAt? env d x = some f) :
    f ∈ env := List.mem_of_getElem? (Option.filter_eq_some_iff.mp h).1

theorem assign (id : NodeId) (name : Name) {v : Value} (hv : v.Inside K) :
    Stays K True (fun _ => True) (Eval.assign id name v) := by
  refine setSlot hv fun m hm henv f hf => ?_
  split at hf
  · exact henv trivial f (mem_of_slotAt? hf)
  · exact hm.globalEnv f (mem_of_slotAt? hf)

theorem define (name : Name) {v : Value} (hv : v.Inside K) : Stays K True (fun _ => True) (Eval.define name v) :=
  setSlot hv fun _ _ henv f hf => henv trivial f (List.mem_of_mem_head? (Option.filter_eq_some_iff.mp hf).1)

theorem overwrite (name : Name) {v : Value} (hv : v.Inside K) : Stays K True (fun _ => True) (Eval.overwrite name v) :=
  setSlot hv fun _ _ henv f hf => henv trivial f (List.mem_of_find?_eq_some hf)

theorem newFrame {frame : Frame} {env : Env} (hf : ∀ x v, frame.get? x = some v → v.Inside K) (henv : EnvInside K env) :
    Stays K looks (EnvInside K) (Eval.newFrame frame env) := fun _ hm _ =>
  ⟨⟨hm.extend env hf, hm.spares_extend frame env, rfl⟩,
    List.forall_mem_cons.mpr ⟨hm.newFrames _ (Nat.le_refl _), henv⟩⟩

/-- A frame with one variable. -/
theorem newFrame_insert (x : String) {v : Value} {env : Env} (hv : v.Inside K) (henv : EnvInside K env) :
    Stays K looks (EnvInside K) (Eval.newFrame (Dict.empty.insert x v) env) := by
  refine newFrame (fun y u hu => ?_) henv
  rw [Dict.get?_insert] at hu
  split at hu <;> cases hu
  exact hv

/-! ## Objects -/

theorem freshSerial : Stays K looks (fun _ => True) Eval.freshSerial :=
  fun _ hm _ => ⟨⟨hm.freshSerial, ⟨fun _ _ => rfl, fun _ _ => rfl⟩, rfl⟩, trivial⟩

theorem newFunction {c : Closure} (hc : EnvInside K c.env) :
    Stays K looks (fun f => EnvInside K f.closure.env) (Eval.newFunction c) :=
  bind freshSerial fun _ _ => pure hc

theorem newInstance {c : Class} (hc : (Value.klass c).Inside K) :
    Stays K looks (fun i => (Value.object i).Inside K) (Eval.newInstance c) := fun _ hm _ =>
  ⟨⟨hm.construct c, hm.spares_construct c, rfl⟩, Value.inside_object.mpr ⟨hm.newObjects _ (Nat.le_refl _), hc⟩⟩

theorem field? {i : Instance} (hi : (Value.object i).Inside K) (x : String) :
    Stays K looks (fun found => ∀ v ∈ found, v.Inside K) (Eval.field? i x) :=
  read fun _ hm _ v hv => hm.fields i x v (Value.inside_object.mp hi).1 hv

theorem setField {i : Instance} (hi : (Value.object i).Inside K) (x : String) {v : Value} (hv : v.Inside K) :
    Stays K looks (fun _ => True) (Eval.setField i x v) := fun _ hm _ =>
  ⟨⟨hm.setField i x hv, .setField (Value.inside_object.mp hi).1 x v, rfl⟩, trivial⟩

theorem closureHere (name : Name) (routine : Routine) :
    Stays K True (fun c => EnvInside K c.env) (Eval.closureHere name routine) :=
  read fun _ _ henv => henv trivial

theorem bindThis {c : Closure} {i : Instance} (hc : EnvInside K c.env) (hi : (Value.object i).Inside K) :
    Stays K looks (fun bound => EnvInside K bound.env) (Eval.bindThis c i) :=
  bind (newFrame_insert "this" hi hc) fun _ henv => pure henv

theorem methodTable {env : Env} (henv : EnvInside K env) (initializers : Bool) :
    ∀ (ms : List Method) {table : Dict FunctionObject}, (∀ x f, table.get? x = some f → EnvInside K f.closure.env) →
    Stays K looks (fun t => ∀ x f, t.get? x = some f → EnvInside K f.closure.env) (Eval.methodTable env initializers ms table)
  | [], _, ht => pure ht
  | _ :: ms, table, ht => by
    refine bind (newFunction henv) fun f hf => methodTable henv initializers ms fun x g hx => ?_
    rw [Dict.get?_insert] at hx
    split at hx
    · cases hx; exact hf
    · exact ht x g hx

theorem memberEnv {superclass : Option Class} (h : ∀ c ∈ superclass, (Value.klass c).Inside K) :
    Stays K True (EnvInside K) (Eval.memberEnv superclass) := by
  refine bind (Q := EnvInside K) (read fun _ _ henv => henv trivial) fun here hhere => ?_
  cases superclass with
  | none => exact pure hhere
  | some parent => exact newFrame_insert "super" (h parent rfl) hhere

theorem newClass (name : Name) {superclass : Option Class} (h : ∀ c ∈ superclass, (Value.klass c).Inside K)
    (methods statics : List Method) :
    Stays K True (fun c => (Value.klass c).Inside K) (Eval.newClass name superclass methods statics) := by
  have noEntry : ∀ x f, (Dict.empty : Dict FunctionObject).get? x = some f → EnvInside K f.closure.env :=
    fun _ _ hf => by cases hf
  refine bind (memberEnv h) fun env henv => bind (methodTable henv true methods noEntry) fun mt hmt =>
    bind (methodTable henv false statics noEntry) fun st hst => bind freshSerial fun serial _ => pure fun cell hm => ?_
  -- the functions are those of the two tables, or of the superclass
  have ancestor : ∀ layer ∈ (superclass.map Class.lineage).getD [], ∃ parent ∈ superclass, layer ∈ parent.lineage := by
    cases superclass with
    | none => exact nofun
    | some parent => exact fun layer hl => ⟨parent, rfl, hl⟩
  cases hm with
  | method hl hf hg =>
    cases hl with
    | head => exact hmt _ _ hf _ hg
    | tail _ hl =>
      obtain ⟨parent, hp, hl⟩ := ancestor _ hl
      exact h parent hp _ (.method hl hf hg)
  | static hl hf hg =>
    cases hl with
    | head => exact hst _ _ hf _ hg
    | tail _ hl =>
      obtain ⟨parent, hp, hl⟩ := ancestor _ hl
      exact h parent hp _ (.static hl hf hg)

theorem superClass (id : NodeId) (line : Nat) : Stays K True (fun c => (Value.klass c).Inside K) (Eval.superClass id line) := by
  intro m hm henv
  unfold Eval.superClass
  split
  · rename_i c hc
    obtain ⟨d, -, hd⟩ := Option.bind_eq_some_iff.mp hc
    exact ⟨⟨hm, .refl _, rfl⟩, hm.readAt (henv trivial) hd⟩
  · exact ⟨hm, .refl _, rfl⟩

theorem superReceiver (id : NodeId) (line : Nat) :
    Stays K True (fun i => (Value.object i).Inside K) (Eval.superReceiver id line) := by
  intro m hm henv
  unfold Eval.superReceiver
  extract_lets found
  cases hfound : found with
  | none => exact ⟨hm, .refl _, rfl⟩
  | some v =>
    cases v with
    | object i =>
      refine ⟨⟨hm, .refl _, rfl⟩, ?_⟩
      dsimp only [found] at hfound
      split at hfound
      · exact hm.readAt (henv trivial) hfound
      · cases hfound
    | _ => exact ⟨hm, .refl _, rfl⟩

theorem receiverOf {c : Closure} (hc : EnvInside K c.env) : Stays K looks (Value.Inside K) (Eval.receiverOf c) := by
  intro m hm _
  unfold Eval.receiverOf
  split
  · rename_i v hv
    exact ⟨⟨hm, .refl _, rfl⟩, hm.readAt hc hv⟩
  · exact ⟨hm, .refl _, rfl⟩

/-! ## Input and output -/

theorem writeLine (text : String) (fault : OutputFault → Error) :
    Stays K looks (fun _ => True) (Eval.writeLine text fault) := by
  intro m hm _
  unfold Eval.writeLine
  split
  · exact ⟨⟨hm, .refl _, rfl⟩, trivial⟩
  · exact ⟨hm, .refl _, rfl⟩

theorem callNative (fn : Native) (arguments : List Value) (line : Nat) :
    Stays K looks (Value.Inside K) (Eval.callNative fn arguments line) := by
  unfold Eval.callNative
  split
  · exact fun _ hm _ => ⟨⟨hm, .refl _, rfl⟩, fun _ h => nomatch h⟩
  · intro m hm _
    unfold Eval.readLine
    dsimp only
    split
    · exact ⟨⟨hm, .refl _, rfl⟩, fun _ h => nomatch h⟩
    · exact ⟨⟨hm, .refl _, rfl⟩, fun _ h => nomatch h⟩
    · exact ⟨hm, .refl _, rfl⟩
  · exact bind (writeLine _ _) fun _ _ => pure Value.inside_nil
  · exact pure Value.inside_nil
  · exact pure Value.inside_nil

end

end Eval.Stays

end Lox
