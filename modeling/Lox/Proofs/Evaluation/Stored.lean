import Lox.Proofs.Evaluation.Objects

/-!
# What the store holds in the end

Where all values in the store have some property, and the values at hand too, an operation leaves a store of such values. What
it reads has the property.
-/

namespace Lox

theorem Store.Holds.imp {V V' : Value → Prop} {s : Store} (h : s.Holds V) (hv : ∀ v, V v → V' v) : s.Holds V' :=
  ⟨fun f x v hx => hv v (h.vars f x v hx), fun i x v hx => hv v (h.fields i x v hx)⟩

section
variable {α β : Type}

/-- The store in the end holds such values, and the result is as stated. -/
def Outcome.Leaves (V : Value → Prop) (Q : α → Prop) : Outcome Machine Error α → Prop
  | .done a m => m.store.Holds V ∧ Q a
  | .failed _ m => m.store.Holds V
  | .exhausted => True

/-- If the machine holds such values, the run leaves one that does, and gives what is stated. -/
def Leaves (V : Value → Prop) (Q : α → Prop) (body : Eval α) (m : Machine) : Prop := m.store.Holds V → (body m).Leaves V Q

variable {V : Value → Prop} {Q : α → Prop} {R : β → Prop} {m : Machine} {body : Eval α}

namespace Leaves

theorem of_done (h : Leaves V Q body m) (hm : m.store.Holds V) {a : α} {m' : Machine} (ho : body m = .done a m') :
    m'.store.Holds V ∧ Q a := by
  have h := h hm
  rwa [ho] at h

theorem pure {a : α} (h : Q a) : Leaves V Q (Pure.pure a) m := fun hm => ⟨hm, h⟩

theorem fail {line : Nat} {fault : RuntimeFault} : Leaves V Q (Eval.fail line fault) m := id

theorem bind {next : α → Eval β} (h : Leaves V Q body m)
    (hn : ∀ a m', body m = .done a m' → Q a → Leaves V R (next a) m') : Leaves V R (body >>= next) m := by
  intro hm
  have h := h hm
  rw [Run.bind_apply]
  cases ho : body m with
  | exhausted => trivial
  | failed e m' => rw [ho] at h; exact h
  | done a m' => rw [ho] at h; exact hn a m' ho h.2 h.1

theorem ite {c : Prop} [Decidable c] {yes no : Eval α} (hy : c → Leaves V Q yes m) (hn : ¬ c → Leaves V Q no m) :
    Leaves V Q (if c then yes else no) m := by
  split
  · exact hy ‹_›
  · exact hn ‹_›

theorem ofOption {o : Option β} {no : Eval α} {yes : β → Eval α} (hn : o = none → Leaves V Q no m)
    (hy : ∀ b, o = some b → Leaves V Q (yes b) m) : Leaves V Q (o.elim no yes) m := by
  cases o with
  | none => exact hn rfl
  | some b => exact hy b rfl

theorem ofExcept {line : Nat} {x : Except RuntimeFault α} (h : ∀ a, x = .ok a → Q a) : Leaves V Q (Eval.ofExcept line x) m := by
  cases x with
  | ok a => exact pure (h a rfl)
  | error fault => exact fail

theorem read {g : Machine → α} (h : m.store.Holds V → Q (g m)) : Leaves V Q (Run.read g) m := fun hm => ⟨hm, h hm⟩

theorem within {env : Env} (h : Leaves V Q body { m with env }) : Leaves V Q (Eval.within env body) m := by
  intro hm
  have h := h hm
  unfold Eval.within
  cases ho : body { m with env } with
  | exhausted => trivial
  | failed e m' => rw [ho] at h; exact h
  | done a m' => rw [ho] at h; exact h

theorem asCall {line : Nat} (h : ¬ maxDepth ≤ m.depth → Leaves V Q body { m with depth := m.depth + 1 }) :
    Leaves V Q (Eval.asCall line body) m := by
  intro hm
  unfold Eval.asCall
  split
  · exact hm
  · rename_i hd
    have h := h hd hm
    dsimp only
    cases ho : body { m with depth := m.depth + 1 } with
    | exhausted => trivial
    | failed e m' => rw [ho] at h; exact h
    | done a m' => rw [ho] at h; exact h

theorem flushing (h : Leaves V Q body m) : Leaves V Q (Eval.flushing body) m := by
  intro hm
  have h := h hm
  unfold Eval.flushing
  cases ho : body m with
  | exhausted => trivial
  | failed e m' =>
    rw [ho] at h
    dsimp only
    split <;> exact h
  | done a m' =>
    rw [ho] at h
    dsimp only
    split
    · exact h.1
    · exact h

end Leaves

end

namespace Leaves

variable {V : Value → Prop} {m : Machine}

/-! ## Variables -/

theorem lookUp (id : NodeId) (name : Name) : Leaves V V (Eval.lookUp id name) m := by
  intro hm
  unfold Eval.lookUp
  extract_lets found
  cases hv : found with
  | none => exact hm
  | some v =>
    refine ⟨hm, ?_⟩
    dsimp only [found] at hv
    split at hv
    · exact hm.readAt hv
    · exact hm.readAt hv

theorem setVar {f : FrameId} {x : String} {v : Value} (hv : V v) : Leaves V (fun _ => True) (Eval.setVar f x v) m :=
  fun hm => ⟨hm.setVar hv, trivial⟩

theorem setSlot {name : Name} {v : Value} (hv : V v) {fault : RuntimeFault} (slot : Option FrameId) :
    Leaves V (fun _ => True)
      (match slot with
        | some frame => Eval.setVar frame name.text v
        | none => Eval.fail name.line fault) m := by
  cases slot with
  | some frame => exact setVar hv
  | none => exact fail

theorem assign {id : NodeId} {name : Name} {v : Value} (hv : V v) : Leaves V (fun _ => True) (Eval.assign id name v) m :=
  bind (Q := fun _ => True) (read fun _ => trivial) fun slot _ _ _ => setSlot hv slot

theorem define {name : Name} {v : Value} (hv : V v) : Leaves V (fun _ => True) (Eval.define name v) m :=
  bind (Q := fun _ => True) (read fun _ => trivial) fun slot _ _ _ => setSlot hv slot

theorem overwrite {name : Name} {v : Value} (hv : V v) : Leaves V (fun _ => True) (Eval.overwrite name v) m :=
  bind (Q := fun _ => True) (read fun _ => trivial) fun slot _ _ _ => setSlot hv slot

theorem newFrame {frame : Frame} {env : Env} (h : ∀ x v, frame.get? x = some v → V v) :
    Leaves V (fun _ => True) (Eval.newFrame frame env) m :=
  fun hm => ⟨hm.extend env h, trivial⟩

/-- A frame with one variable. -/
theorem newFrame_insert {x : String} {v : Value} {env : Env} (hv : V v) :
    Leaves V (fun _ => True) (Eval.newFrame (Dict.empty.insert x v) env) m := by
  refine newFrame fun y u hu => ?_
  rw [Dict.get?_insert] at hu
  split at hu <;> cases hu
  exact hv

/-! ## Objects -/

theorem freshSerial : Leaves V (fun _ => True) Eval.freshSerial m := fun hm => ⟨hm.freshSerial, trivial⟩

theorem newFunction (c : Closure) : Leaves V (fun f => f.closure = c) (Eval.newFunction c) m :=
  bind freshSerial fun _ _ _ _ => pure rfl

theorem newInstance (c : Class) : Leaves V (fun i => i.cls = c) (Eval.newInstance c) m := fun hm => ⟨hm.construct c, rfl⟩

theorem field? (i : Instance) (x : String) : Leaves V (fun found => ∀ v ∈ found, V v) (Eval.field? i x) m :=
  read fun hm v hv => hm.fields i x v hv

theorem setField {i : Instance} {x : String} {v : Value} (hv : V v) : Leaves V (fun _ => True) (Eval.setField i x v) m :=
  fun hm => ⟨hm.setField hv, trivial⟩

theorem bindThis {c : Closure} {i : Instance} (hi : V (.object i)) : Leaves V (fun _ => True) (Eval.bindThis c i) m :=
  bind (newFrame_insert hi) fun _ _ _ _ => pure trivial

theorem methodTable (env : Env) (initializers : Bool) : ∀ (ms : List Method) (table : Dict FunctionObject) {m : Machine},
    Leaves V (fun _ => True) (Eval.methodTable env initializers ms table) m
  | [], _, _ => pure trivial
  | _ :: ms, _, _ => bind (newFunction _) fun _ _ _ _ => methodTable env initializers ms _

theorem newClass {name : Name} {parent : Option Class} {ms ss : List Method} (h : ∀ c ∈ parent, V (.klass c)) :
    Leaves V (fun _ => True) (Eval.newClass name parent ms ss) m := by
  have member : Leaves V (fun _ => True) (Eval.memberEnv parent) m := by
    refine bind (Q := fun _ => True) (read fun _ => trivial) fun here m' _ _ => ?_
    cases parent with
    | none => exact pure trivial
    | some c => exact newFrame_insert (h c rfl)
  exact bind member fun _ _ _ _ => bind (methodTable _ _ _ _) fun _ _ _ _ => bind (methodTable _ _ _ _) fun _ _ _ _ =>
    bind freshSerial fun _ _ _ _ => pure trivial

theorem superClass (id : NodeId) (line : Nat) : Leaves V (fun c => V (.klass c)) (Eval.superClass id line) m := by
  intro hm
  unfold Eval.superClass
  split
  · rename_i c hc
    obtain ⟨d, -, hd⟩ := Option.bind_eq_some_iff.mp hc
    exact ⟨hm, hm.readAt hd⟩
  · exact hm

theorem superReceiver (id : NodeId) (line : Nat) : Leaves V (fun i => V (.object i)) (Eval.superReceiver id line) m := by
  intro hm
  unfold Eval.superReceiver
  extract_lets found
  cases hfound : found with
  | none => exact hm
  | some v =>
    cases v with
    | object i =>
      refine ⟨hm, ?_⟩
      dsimp only [found] at hfound
      split at hfound
      · exact hm.readAt hfound
      · cases hfound
    | _ => exact hm

theorem receiverOf (c : Closure) : Leaves V V (Eval.receiverOf c) m := by
  intro hm
  unfold Eval.receiverOf
  split
  · rename_i v hv
    exact ⟨hm, hm.readAt hv⟩
  · exact hm

/-! ## Input and output -/

theorem writeLine (text : String) (fault : OutputFault → Error) : Leaves V (fun _ => True) (Eval.writeLine text fault) m := by
  intro hm
  unfold Eval.writeLine
  split
  · exact ⟨hm, trivial⟩
  · exact hm

/-- The host gives simple values only. -/
theorem callNative (hnil : V .nil) (hnumber : ∀ x, V (.number x)) (hstring : ∀ s, V (.string s)) (fn : Native)
    (arguments : List Value) (line : Nat) : Leaves V V (Eval.callNative fn arguments line) m := by
  unfold Eval.callNative
  split
  · exact fun hm => ⟨hm, hnumber _⟩
  · intro hm
    unfold Eval.readLine
    dsimp only
    split
    · exact ⟨hm, hnil⟩
    · exact ⟨hm, hstring _⟩
    · exact hm
  · exact bind (writeLine _ _) fun _ _ _ _ => pure hnil
  · exact pure hnil
  · exact pure hnil

end Leaves

end Lox
