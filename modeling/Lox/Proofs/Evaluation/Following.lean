import Lox.Proofs.Evaluation.Twin

/-!
# Doing the same on a twin

A run follows another one if it ends as that one does, on a twin of the machine. It may need more fuel. All operations of the
machine do, and what is made of runs does if its parts do.
-/

namespace Lox

variable {T : Ties}

/-! ## Stores -/

namespace Store.Twin

variable {s s' : Store}

theorem readAt (h : s.Twin T s') (env : Env) (d : Nat) (x : String) :
    Option.Rel (Value.Twin T) (s.readAt env d x) (s'.readAt env d x) := by
  unfold Store.readAt
  cases Store.ancestor? env d with
  | none => exact .none
  | some f => exact h.vars f x

theorem isSome_var? (h : s.Twin T s') (f : FrameId) (x : String) : (s'.var? f x).isSome = (s.var? f x).isSome := by
  rcases rel_cases (h.vars f x) with ⟨hv, hv'⟩ | ⟨_, _, hv, hv', -⟩ <;> rw [hv, hv']
  rfl

theorem slotAt? (h : s.Twin T s') (env : Env) (d : Nat) (x : String) : s'.slotAt? env d x = s.slotAt? env d x := by
  simp only [Store.slotAt?, h.isSome_var?]

theorem slot? (h : s.Twin T s') (env : Env) (x : String) : s'.slot? env x = s.slot? env x := by
  simp only [Store.slot?, h.isSome_var?]

theorem freeSlot? (h : s.Twin T s') (env : Env) (x : String) : s'.freeSlot? env x = s.freeSlot? env x := by
  simp only [Store.freeSlot?, ← Option.not_isSome, h.isSome_var?]

theorem setVar (h : s.Twin T s') (f : FrameId) (x : String) {v v' : Value} (hv : v.Twin T v') :
    (s.setVar f x v).Twin T (s'.setVar f x v') where
  frames := by simpa [Store.setVar] using h.frames
  vars g y := by
    rw [Store.var?_setVar, Store.var?_setVar, h.frames]
    split
    · exact .some hv
    · exact h.vars g y
  instances := h.instances
  fields := h.fields
  nextSerial := h.nextSerial

theorem extend (h : s.Twin T s') {frame frame' : Frame} (hf : frame.Rel (Value.Twin T) frame') (env : Env) :
    (s.extend frame env).2.Twin T (s'.extend frame' env).2 where
  frames := by simpa [Store.extend] using h.frames
  vars g y := by
    rw [Store.var?_extend, Store.var?_extend, h.frames]
    split
    · exact hf y
    · exact h.vars g y
  instances := h.instances
  fields := h.fields
  nextSerial := h.nextSerial

theorem freshSerial (h : s.Twin T s') : s.freshSerial.2.Twin T s'.freshSerial.2 :=
  ⟨h.frames, h.vars, h.instances, h.fields, congrArg (· + 1) h.nextSerial⟩

theorem construct (h : s.Twin T s') (c c' : Class) : (s.construct c).2.Twin T (s'.construct c').2 where
  frames := h.frames
  vars := h.vars
  instances := by simpa [Store.construct] using h.instances
  fields i x := by
    simp only [Store.construct, Array.getElem?_push, h.instances]
    split
    · exact .none
    · exact h.fields i x
  nextSerial := h.nextSerial

theorem setField (h : s.Twin T s') {i i' : Instance} (hi : i'.id = i.id) (x : String) {v v' : Value} (hv : v.Twin T v') :
    (s.setField i x v).Twin T (s'.setField i' x v') where
  frames := h.frames
  vars := h.vars
  instances := by simpa [Store.setField] using h.instances
  fields j y := by
    simp only [Store.setField, Array.getElem?_modify, hi]
    have hj := h.fields j
    by_cases hij : i.id = j
    · rw [if_pos hij, if_pos hij]
      by_cases hlt : j < s.fields.size
      · have hs : s.fields[j]? = some s.fields[j] := Array.getElem?_eq_getElem hlt
        have hlt' : j < s'.fields.size := h.instances ▸ hlt
        have hs' : s'.fields[j]? = some s'.fields[j] := Array.getElem?_eq_getElem hlt'
        rw [hs, hs'] at hj
        rw [hs, hs']
        exact Dict.Rel.insert (R := Value.Twin T) hj x hv y
      · have hs : s.fields[j]? = none := Array.getElem?_eq_none (Nat.le_of_not_lt hlt)
        have hs' : s'.fields[j]? = none := Array.getElem?_eq_none (h.instances ▸ Nat.le_of_not_lt hlt)
        rw [hs, hs']
        exact .none
    · rw [if_neg hij, if_neg hij]
      exact hj y
  nextSerial := h.nextSerial

end Store.Twin

/-! ## Runs -/

/-- Both end in the same way, on twins, and the results are related. -/
inductive Outcome.Twin (T : Ties) {α β : Type} (R : α → β → Prop) : Outcome Machine Error α → Outcome Machine Error β → Prop where
  | done {a b m m'} : R a b → m.Twin T m' → Twin T R (.done a m) (.done b m')
  | failed {e m m'} : m.Twin T m' → Twin T R (.failed e m) (.failed e m')

/-- Where the first run ends, so does the second one, and in the same way with any fuel that is large enough. -/
def Eval.Follows (T : Ties) {α β : Type} (R : α → β → Prop) (x : Eval α) (y : Nat → Eval β) : Prop :=
  ∀ m m', m.Twin T m' → x m = .exhausted ∨ ∃ o least, Outcome.Twin T R (x m) o ∧ ∀ n, least ≤ n → y n m' = o

namespace Eval.Follows

section
variable {α β γ δ : Type} {R : α → β → Prop} {S : γ → δ → Prop} {x : Eval α} {y : Nat → Eval β}

/-- An operation needs no fuel. -/
theorem operation {z : Eval β} (h : ∀ m m', m.Twin T m' → Outcome.Twin T R (x m) (z m')) : Follows T R x fun _ => z :=
  fun m m' hm => .inr ⟨z m', 0, h m m' hm, fun _ _ => rfl⟩

theorem exhausted : Follows T R Run.exhausted y := fun _ _ _ => .inl rfl

theorem pure {a : α} {b : β} (h : R a b) : Follows T R (Pure.pure a : Eval α) fun _ => Pure.pure b :=
  operation fun _ _ hm => .done h hm

theorem fail (line : Nat) (fault : RuntimeFault) : Follows T R (Eval.fail line fault) fun _ => Eval.fail line fault :=
  operation fun _ _ hm => .failed hm

/-- One unit of fuel is spent before the second run does the same. -/
theorem step {y' : Nat → Eval β} (h : Follows T R x y) (hy : ∀ n, y' (n + 1) = y n) : Follows T R x y' := by
  intro m m' hm
  refine (h m m' hm).imp_right fun ⟨o, least, ho, hl⟩ => ⟨o, least + 1, ho, fun n hn => ?_⟩
  obtain ⟨n, rfl⟩ := Nat.exists_eq_succ_of_ne_zero (Nat.ne_of_gt (Nat.lt_of_lt_of_le (Nat.succ_pos _) hn))
  rw [hy]
  exact hl n (Nat.le_of_succ_le_succ hn)

theorem bind {f : α → Eval γ} {g : Nat → β → Eval δ} (h : Follows T R x y)
    (hf : ∀ a b, R a b → Follows T S (f a) fun n => g n b) : Follows T S (x >>= f) fun n => y n >>= g n := by
  intro m m' hm
  dsimp only
  simp only [Run.bind_apply]
  rcases h m m' hm with hx | ⟨o, least, ho, hl⟩
  · rw [hx]; exact .inl rfl
  · generalize x m = o₁ at ho
    cases ho with
    | failed hm₁ => exact .inr ⟨_, least, .failed hm₁, fun n hn => by rw [hl n hn]⟩
    | done hab hm₁ =>
      refine (hf _ _ hab _ _ hm₁).imp_right fun ⟨o, least', ho, hl'⟩ => ⟨o, max least least', ho, fun n hn => ?_⟩
      rw [hl n (Nat.le_trans (Nat.le_max_left ..) hn)]
      exact hl' n (Nat.le_trans (Nat.le_max_right ..) hn)

theorem ofExcept {line : Nat} {a b : Except RuntimeFault Value} (h : ExceptTwin T a b) :
    Follows T (Value.Twin T) (Eval.ofExcept line a) fun _ => Eval.ofExcept line b := by
  cases h with
  | ok h => exact pure h
  | error fault => exact fail line fault

theorem ite {c c' : Prop} [Decidable c] [Decidable c'] {x' : Eval α} {y' : Nat → Eval β} (hc : c' ↔ c)
    (hx : Follows T R x y) (hx' : Follows T R x' y') : Follows T R (if c then x else x') fun n => if c' then y n else y' n := by
  by_cases h : c
  · simpa only [if_pos h, if_pos (hc.mpr h)] using hx
  · simpa only [if_neg h, if_neg (mt hc.mp h)] using hx'

theorem within {env : Env} (h : Follows T R x y) : Follows T R (Eval.within env x) fun n => Eval.within env (y n) := by
  intro m m' hm
  unfold Eval.within
  dsimp only
  rcases h _ _ (hm.inEnv env) with hx | ⟨o, least, ho, hl⟩
  · rw [hx]; exact .inl rfl
  · generalize x { m with env } = o₁ at ho
    cases ho with
    | @failed e _ m₂ hm₁ =>
      exact .inr ⟨.failed e { m₂ with env := m'.env }, least, .failed { hm₁ with env := hm.env }, fun n hn => by rw [hl n hn]⟩
    | @done _ b _ m₂ hab hm₁ =>
      exact .inr ⟨.done b { m₂ with env := m'.env }, least, .done hab { hm₁ with env := hm.env }, fun n hn => by rw [hl n hn]⟩

theorem asCall {line : Nat} (h : Follows T R x y) : Follows T R (Eval.asCall line x) fun n => Eval.asCall line (y n) := by
  intro m m' hm
  by_cases hd : maxDepth ≤ m.depth
  · have hd' : maxDepth ≤ m'.depth := hm.depth ▸ hd
    simp only [Eval.asCall, if_pos hd, if_pos hd']
    exact .inr ⟨_, 0, .failed hm, fun _ _ => rfl⟩
  · have hd' : ¬ maxDepth ≤ m'.depth := hm.depth ▸ hd
    simp only [Eval.asCall, if_neg hd, if_neg hd']
    rcases h _ _ hm.deeper with hx | ⟨o, least, ho, hl⟩
    · rw [hx]; exact .inl rfl
    · generalize x { m with depth := m.depth + 1 } = o₁ at ho
      cases ho with
      | @failed e _ m₂ hm₁ =>
        exact .inr ⟨.failed e { m₂ with depth := m'.depth }, least, .failed { hm₁ with depth := hm.depth },
          fun n hn => by rw [hl n hn]⟩
      | @done _ b _ m₂ hab hm₁ =>
        exact .inr ⟨.done b { m₂ with depth := m'.depth }, least, .done hab { hm₁ with depth := hm.depth },
          fun n hn => by rw [hl n hn]⟩

theorem read {p : Machine → α} {q : Machine → β} (h : ∀ m m', m.Twin T m' → R (p m) (q m')) :
    Follows T R (Run.read p) fun _ => Run.read q :=
  operation fun m m' hm => .done (h m m' hm) hm

theorem update {p q : Machine → Machine} (h : ∀ m m', m.Twin T m' → (p m).Twin T (q m')) :
    Follows T Eq (Run.update p) fun _ => Run.update q :=
  operation fun m m' hm => .done rfl (h m m' hm)

end

/-! ## Variables -/

section
variable {id id' : NodeId} {name : Name} {v v' : Value}

theorem lookUp (h : T.ids id id') (name : Name) :
    Follows T (Value.Twin T) (Eval.lookUp id name) fun _ => Eval.lookUp id' name := by
  refine operation fun m m' hm => ?_
  unfold Eval.lookUp
  rw [hm.bindings id id' h, hm.env]
  cases m.bindings.get? id with
  | some distance =>
    rcases rel_cases (hm.store.readAt m.env distance name.text) with ⟨ho, ho'⟩ | ⟨v, v', ho, ho', hv⟩
    · simp only [ho, ho']; exact .failed hm
    · simp only [ho, ho']; exact .done hv hm
  | none =>
    rcases rel_cases (hm.store.readAt globalEnv 0 name.text) with ⟨ho, ho'⟩ | ⟨v, v', ho, ho', hv⟩
    · simp only [Machine.global?, ho, ho']; exact .failed hm
    · simp only [Machine.global?, ho, ho']; exact .done hv hm

theorem setVar (f : FrameId) (x : String) (hv : v.Twin T v') :
    Follows T Eq (Eval.setVar f x v) fun _ => Eval.setVar f x v' :=
  update fun _ _ hm => { hm with store := hm.store.setVar f x hv }

theorem setSlot {slot : Option FrameId} {fault : RuntimeFault} (hv : v.Twin T v') :
    Follows T Eq
      (match slot with
        | some frame => Eval.setVar frame name.text v
        | none => Eval.fail name.line fault)
      fun _ => match slot with
        | some frame => Eval.setVar frame name.text v'
        | none => Eval.fail name.line fault := by
  cases slot with
  | some frame => exact setVar frame name.text hv
  | none => exact fail _ _

theorem assign (h : T.ids id id') (hv : v.Twin T v') :
    Follows T Eq (Eval.assign id name v) fun _ => Eval.assign id' name v' := by
  refine bind (R := Eq) (read fun m m' hm => ?_) fun slot _ heq => heq ▸ setSlot hv
  rw [hm.bindings id id' h, hm.env]
  cases m.bindings.get? id with
  | some distance => exact (hm.store.slotAt? _ _ _).symm
  | none => exact (hm.store.slotAt? _ _ _).symm

theorem define (hv : v.Twin T v') : Follows T Eq (Eval.define name v) fun _ => Eval.define name v' := by
  refine bind (R := Eq) (read fun m m' hm => ?_) fun slot _ heq => heq ▸ setSlot hv
  rw [hm.env]
  exact (hm.store.freeSlot? _ _).symm

theorem overwrite (hv : v.Twin T v') : Follows T Eq (Eval.overwrite name v) fun _ => Eval.overwrite name v' := by
  refine bind (R := Eq) (read fun m m' hm => ?_) fun slot _ heq => heq ▸ setSlot hv
  rw [hm.env]
  exact (hm.store.slot? _ _).symm

theorem newFrame {frame frame' : Frame} (h : frame.Rel (Value.Twin T) frame') (env : Env) :
    Follows T Eq (Eval.newFrame frame env) fun _ => Eval.newFrame frame' env := by
  refine operation fun m m' hm => ?_
  have hstore := hm.store.extend h env
  have henv : (m'.store.extend frame' env).1 = (m.store.extend frame env).1 := congrArg (· :: env) hm.store.frames
  unfold Eval.newFrame
  exact .done henv.symm { hm with store := hstore }

end

/-! ## Objects -/

theorem freshSerial : Follows T Eq Eval.freshSerial fun _ => Eval.freshSerial :=
  operation fun _ _ hm => .done hm.store.nextSerial.symm { hm with store := hm.store.freshSerial }

theorem newFunction {c c' : Closure} (h : c.Twin T c') :
    Follows T (FunctionObject.Twin T) (Eval.newFunction c) fun _ => Eval.newFunction c' :=
  bind freshSerial fun _ _ heq => pure ⟨heq.symm, h⟩

theorem newInstance {c c' : Class} (h : c.Twin T c') :
    Follows T (Instance.Twin T) (Eval.newInstance c) fun _ => Eval.newInstance c' :=
  operation fun _ _ hm => .done ⟨hm.store.instances, h⟩ { hm with store := hm.store.construct c c' }

theorem field? {i i' : Instance} (h : i.Twin T i') (x : String) :
    Follows T (Option.Rel (Value.Twin T)) (Eval.field? i x) fun _ => Eval.field? i' x := by
  refine read fun m m' hm => ?_
  unfold Store.field?
  rw [h.id]
  exact hm.store.fields i.id x

theorem setField {i i' : Instance} (h : i.Twin T i') (x : String) {v v' : Value} (hv : v.Twin T v') :
    Follows T Eq (Eval.setField i x v) fun _ => Eval.setField i' x v' :=
  update fun _ _ hm => { hm with store := hm.store.setField h.id x hv }

theorem closureHere (name : Name) {r r' : Routine} (h : r.Twin T r') :
    Follows T (Closure.Twin T) (Eval.closureHere name r) fun _ => Eval.closureHere name r' :=
  read fun _ _ hm => ⟨rfl, h, rfl, rfl, hm.env⟩

theorem bindThis {c c' : Closure} {i i' : Instance} (hc : c.Twin T c') (hi : i.Twin T i') :
    Follows T (Closure.Twin T) (Eval.bindThis c i) fun _ => Eval.bindThis c' i' := by
  unfold Eval.bindThis
  rw [hc.env]
  exact bind (newFrame (Dict.Rel.empty.insert "this" (.object hi)) c.env) fun _ _ heq => pure { hc with env := heq.symm }

theorem methodTable (env : Env) (initializers : Bool) : ∀ {ms ms' : List Method} {table table' : Dict FunctionObject},
    TwinMethods T ms ms' → table.Rel (FunctionObject.Twin T) table' →
    Follows T (Dict.Rel (FunctionObject.Twin T)) (Eval.methodTable env initializers ms table)
      fun _ => Eval.methodTable env initializers ms' table'
  | _, _, _, _, .nil, ht => pure ht
  | _, _, _, _, .cons hr hms, ht =>
    bind (newFunction ⟨rfl, hr, rfl, rfl, rfl⟩) fun _ _ hf => methodTable env initializers hms (ht.insert _ hf)

theorem memberEnv {superclass superclass' : Option Class} (h : Option.Rel (Class.Twin T) superclass superclass') :
    Follows T Eq (Eval.memberEnv superclass) fun _ => Eval.memberEnv superclass' := by
  refine bind (R := Eq) (read fun m m' hm => hm.env.symm) fun here _ heq => ?_
  subst heq
  cases h with
  | none => exact pure rfl
  | some h => exact newFrame (Dict.Rel.empty.insert "super" (.klass h)) here

theorem newClass (name : Name) {superclass superclass' : Option Class} {ms ms' ss ss' : List Method}
    (h : Option.Rel (Class.Twin T) superclass superclass') (hms : TwinMethods T ms ms') (hss : TwinMethods T ss ss') :
    Follows T (Class.Twin T) (Eval.newClass name superclass ms ss) fun _ => Eval.newClass name superclass' ms' ss' := by
  refine bind (memberEnv h) fun env _ heq => ?_
  subst heq
  refine bind (methodTable env true hms .empty) fun _ _ hmethods => ?_
  refine bind (methodTable env false hss .empty) fun _ _ hstatics => bind freshSerial fun _ _ heq => pure ⟨?_, ?_⟩
  · exact ⟨heq.symm, rfl, hmethods, hstatics⟩
  · cases h with
    | none => exact .nil
    | some h => exact h.lineage

theorem superClass {id id' : NodeId} (h : T.ids id id') (line : Nat) :
    Follows T (Class.Twin T) (Eval.superClass id line) fun _ => Eval.superClass id' line := by
  refine operation fun m m' hm => ?_
  unfold Eval.superClass
  rw [hm.bindings id id' h, hm.env]
  cases m.bindings.get? id with
  | none => exact .failed hm
  | some distance =>
    dsimp only [Option.bind_some]
    rcases rel_cases (hm.store.readAt m.env distance "super") with ⟨hv, hv'⟩ | ⟨v, v', hv, hv', hvv⟩
    · rw [hv, hv']; exact .failed hm
    · rw [hv, hv']
      cases hvv with
      | klass h => exact .done h hm
      | _ => exact .failed hm

theorem superReceiver {id id' : NodeId} (h : T.ids id id') (line : Nat) :
    Follows T (Instance.Twin T) (Eval.superReceiver id line) fun _ => Eval.superReceiver id' line := by
  refine operation fun m m' hm => ?_
  unfold Eval.superReceiver
  rw [hm.bindings id id' h, hm.env]
  match m.bindings.get? id with
  | none => exact .failed hm
  | some 0 => exact .failed hm
  | some (distance + 1) =>
    dsimp only
    rcases rel_cases (hm.store.readAt m.env distance "this") with ⟨hv, hv'⟩ | ⟨v, v', hv, hv', hvv⟩
    · rw [hv, hv']; exact .failed hm
    · rw [hv, hv']
      cases hvv with
      | object h => exact .done h hm
      | _ => exact .failed hm

theorem receiverOf {c c' : Closure} (h : c.Twin T c') :
    Follows T (Value.Twin T) (Eval.receiverOf c) fun _ => Eval.receiverOf c' := by
  refine operation fun m m' hm => ?_
  unfold Eval.receiverOf
  rw [h.env, h.name]
  rcases rel_cases (hm.store.readAt c.env 0 "this") with ⟨hv, hv'⟩ | ⟨v, v', hv, hv', hvv⟩
  · rw [hv, hv']; exact .failed hm
  · rw [hv, hv']; exact .done hvv hm

/-! ## Input and output -/

theorem writeLine {v v' : Value} (hv : v.Twin T v') (fault : OutputFault → Error) :
    Follows T Eq (Eval.writeLine v.text fault) fun _ => Eval.writeLine v'.text fault := by
  refine operation fun m m' hm => ?_
  unfold Eval.writeLine
  rw [hm.output, hv.text]
  split
  · exact .done rfl { hm with output := rfl }
  · exact .failed { hm with output := rfl }

theorem readLine (line : Nat) : Follows T (Value.Twin T) (Eval.readLine line) fun _ => Eval.readLine line := by
  refine operation fun m m' hm => ?_
  unfold Eval.readLine
  rw [hm.input]
  dsimp only
  split
  · exact .done .nil { hm with input := rfl }
  · exact .done (.string _) { hm with input := rfl }
  · exact .failed { hm with input := rfl }

theorem callNative (fn : Native) {args args' : List Value} (h : List.Forall₂ (Value.Twin T) args args') (line : Nat) :
    Follows T (Value.Twin T) (Eval.callNative fn args line) fun _ => Eval.callNative fn args' line := by
  cases fn with
  | clock =>
    refine operation fun m m' hm => ?_
    change Outcome.Twin T _ (Eval.readClock m) (Eval.readClock m')
    simp only [Eval.readClock, Run.step, hm.clock]
    exact .done (.number _) { hm with clock := rfl }
  | read => exact readLine line
  | breakpoint => exact pure .nil
  | print =>
    cases h with
    | nil => exact pure .nil
    | cons hv _ => exact bind (writeLine hv _) fun _ _ _ => pure .nil

end Eval.Follows

end Lox
