import Lox.Proofs.Evaluation.Moment
import Lox.Proofs.Evaluation.Recoded

/-!
# Machines seen from another text

The same machine with other lines and identities in its code and with other binding tables, and perhaps with more
fuel. An evaluation that finds the same bindings there does the same.
-/

namespace Lox

/-- How a machine looks from another text. -/
structure View where
  code : Recoding
  tables : BindingTable → BindingTable
  /-- The fuel that there is in addition. -/
  spare : Nat

namespace View

def machine (v : View) (m : Machine) : Machine := { m.recoded v.code with bindings := v.tables m.bindings }

def outcome {α : Type} (v : View) (f : α → α) : Outcome Machine Error α → Outcome Machine Error α
  | .done a m => .done (f a) (v.machine m)
  | .failed e m => .failed (e.relined v.code.lineOf) (v.machine m)
  | .exhausted => .exhausted

/-- The node has the same binding in the view. -/
def Keeps (v : View) (m : Machine) (id : NodeId) : Prop :=
  (v.tables m.bindings).get? (v.code.idOf id) = m.bindings.get? id

/-- Every node that the moment accesses, now or later, has the same binding in the view. -/
def Suits (v : View) (x : Moment) : Prop := ∀ y id name m, x.Reaches y → y.Accesses id name m → v.Keeps m id

/-- The second run does in the view what the first one does, unless that runs out of the fuel that
the second one has. -/
def Shows {α : Type} (v : View) (f : α → α) (body body' : Eval α) (m : Machine) : Prop :=
  body' (v.machine m) = v.outcome f (body m) ∨ (0 < v.spare ∧ body m = .exhausted)

variable {v : View} {m : Machine}

theorem Suits.calls {x y : Moment} (h : v.Suits x) (hc : x.Calls y) : v.Suits y :=
  fun z id name m hr => h z id name m (.step hc hr)

theorem Suits.accesses {x : Moment} (h : v.Suits x) {id : NodeId} {name : Name} (ha : x.Accesses id name m) : v.Keeps m id :=
  h x id name m .refl ha

namespace Shows

section
variable {α β : Type} {f : α → α} {g : β → β} {body body' : Eval α}

theorem bind {next next' : α → Eval β} (h : v.Shows f body body' m)
    (hn : ∀ a m', body m = .done a m' → v.Shows g (next a) (next' (f a)) m') :
    v.Shows g (body >>= next) (body' >>= next') m := by
  unfold Shows
  rw [Run.bind_apply, Run.bind_apply]
  rcases h with h | ⟨hs, h⟩
  · rw [h]
    cases hb : body m with
    | done a m' => exact hn a m' hb
    | failed e m' => exact .inl rfl
    | exhausted => exact .inl rfl
  · rw [h]
    exact .inr ⟨hs, rfl⟩

theorem pure (a : α) : v.Shows f (Pure.pure a) (Pure.pure (f a)) m := .inl rfl

theorem fail (line : Nat) (fault : RuntimeFault) : v.Shows f (Eval.fail line fault) (Eval.fail (v.code.lineOf line) fault) m := .inl rfl

/-- What the first run has no fuel for the second one may do. -/
theorem exhausted (h : v.spare = 0 → body' (v.machine m) = .exhausted) : v.Shows f Run.exhausted body' m := by
  rcases Nat.eq_zero_or_pos v.spare with hs | hs
  · exact .inl (h hs)
  · exact .inr ⟨hs, rfl⟩

theorem ofExcept {line : Nat} {x x' : Except RuntimeFault α} (h : x' = x.map f) :
    v.Shows f (Eval.ofExcept line x) (Eval.ofExcept (v.code.lineOf line) x') m := by
  subst h
  cases x <;> exact .inl rfl

theorem ite {c c' : Prop} [Decidable c] [Decidable c'] {x y x' y' : Eval α} (hc : c' ↔ c) (hx : c → v.Shows f x x' m)
    (hy : ¬ c → v.Shows f y y' m) : v.Shows f (if c then x else y) (if c' then x' else y') m := by
  by_cases h : c
  · rw [if_pos h, if_pos (hc.mpr h)]; exact hx h
  · rw [if_neg h, if_neg (mt hc.mp h)]; exact hy h

theorem within {env : Env} (h : v.Shows f body body' { m with env }) :
    v.Shows f (Eval.within env body) (Eval.within env body') m := by
  have hm : ({ v.machine m with env } : Machine) = v.machine { m with env } := rfl
  unfold Shows Eval.within
  dsimp only
  rw [hm]
  rcases h with h | ⟨hs, h⟩
  · rw [h]
    cases body { m with env } <;> exact .inl rfl
  · rw [h]
    exact .inr ⟨hs, rfl⟩

theorem asCall {line : Nat} (h : ¬ maxDepth ≤ m.depth → v.Shows f body body' { m with depth := m.depth + 1 }) :
    v.Shows f (Eval.asCall line body) (Eval.asCall (v.code.lineOf line) body') m := by
  have hm : ({ v.machine m with depth := (v.machine m).depth + 1 } : Machine) = v.machine { m with depth := m.depth + 1 } :=
    rfl
  have hd : (v.machine m).depth = m.depth := rfl
  unfold Shows Eval.asCall
  dsimp only
  rw [hm, hd]
  by_cases hdepth : maxDepth ≤ m.depth
  · rw [if_pos hdepth, if_pos hdepth]
    exact .inl rfl
  · rw [if_neg hdepth, if_neg hdepth]
    rcases h hdepth with h | ⟨hs, h⟩
    · rw [h]
      cases body { m with depth := m.depth + 1 } <;> exact .inl rfl
    · rw [h]
      exact .inr ⟨hs, rfl⟩

theorem read {p p' : Machine → α} (h : p' (v.machine m) = f (p m)) : v.Shows f (Run.read p) (Run.read p') m :=
  .inl (by rw [Run.read_apply, h]; rfl)

theorem update {p p' : Machine → Machine} (h : p' (v.machine m) = v.machine (p m)) :
    v.Shows id (Run.update p) (Run.update p') m :=
  .inl (by rw [Run.update_apply, h]; rfl)

end

/-! ## Variables -/

section
variable {name : Name}

theorem lookUp {id : NodeId} (name : Name) (h : v.Keeps m id) :
    v.Shows (Value.recoded v.code) (Eval.lookUp id name) (Eval.lookUp (v.code.idOf id) (name.relined v.code.lineOf)) m := by
  have hb : (v.machine m).bindings.get? (v.code.idOf id) = m.bindings.get? id := h
  have hread := fun env distance => m.store.readAt_recoded v.code env distance name.text
  refine .inl ?_
  unfold Eval.lookUp
  rw [hb]
  cases m.bindings.get? id with
  | none =>
    have hglobal : (v.machine m).global? name.text = (m.global? name.text).map (Value.recoded v.code) := hread globalEnv 0
    dsimp only [Name.relined]
    rw [hglobal]
    cases m.global? name.text <;> rfl
  | some distance =>
    have hlocal : (v.machine m).store.readAt (v.machine m).env distance name.text =
        (m.store.readAt m.env distance name.text).map (Value.recoded v.code) := hread m.env distance
    dsimp only [Name.relined]
    rw [hlocal]
    cases m.store.readAt m.env distance name.text <;> rfl

theorem setVar (frame : FrameId) (x : String) (u : Value) :
    v.Shows id (Eval.setVar frame x u) (Eval.setVar frame x (u.recoded v.code)) m := by
  refine update ?_
  have h := m.store.setVar_recoded v.code frame x u
  simp only [View.machine, Machine.recoded, h]

theorem setSlot (slot : Option FrameId) (u : Value) (fault : RuntimeFault) :
    v.Shows id
      (match slot with
        | some frame => Eval.setVar frame name.text u
        | none => Eval.fail name.line fault)
      (match slot with
        | some frame => Eval.setVar frame name.text (u.recoded v.code)
        | none => Eval.fail (v.code.lineOf name.line) fault) m := by
  cases slot with
  | some frame => exact setVar frame name.text u
  | none => exact fail _ _

theorem assign {node : NodeId} (u : Value) (h : v.Keeps m node) :
    v.Shows id (Eval.assign node name u) (Eval.assign (v.code.idOf node) (name.relined v.code.lineOf) (u.recoded v.code)) m := by
  have hb : (v.machine m).bindings.get? (v.code.idOf node) = m.bindings.get? node := h
  have hslot := fun env distance => m.store.slotAt?_recoded v.code env distance name.text
  refine bind (f := id) (read ?_) fun slot _ _ => setSlot slot u _
  rw [hb]
  cases m.bindings.get? node with
  | none => exact hslot globalEnv 0
  | some distance => exact hslot m.env distance

theorem define (u : Value) :
    v.Shows id (Eval.define name u) (Eval.define (name.relined v.code.lineOf) (u.recoded v.code)) m :=
  bind (f := id) (read (m.store.freeSlot?_recoded v.code m.env name.text)) fun slot _ _ => setSlot slot u _

theorem overwrite (u : Value) :
    v.Shows id (Eval.overwrite name u) (Eval.overwrite (name.relined v.code.lineOf) (u.recoded v.code)) m :=
  bind (f := id) (read (m.store.slot?_recoded v.code m.env name.text)) fun slot _ _ => setSlot slot u _

theorem newFrame (frame : Frame) (env : Env) :
    v.Shows id (Eval.newFrame frame env) (Eval.newFrame (frame.map (Value.recoded v.code)) env) m := by
  refine .inl ?_
  have h : (v.machine m).store.extend (frame.map (Value.recoded v.code)) env =
      ((m.store.extend frame env).1, (m.store.extend frame env).2.recoded v.code) := m.store.extend_recoded v.code frame env
  unfold Eval.newFrame
  rw [h]
  rfl

end

/-! ## Objects -/

theorem freshSerial : v.Shows id Eval.freshSerial Eval.freshSerial m := .inl rfl

theorem newFunction (c : Closure) :
    v.Shows (FunctionObject.recoded v.code) (Eval.newFunction c) (Eval.newFunction (c.recoded v.code)) m :=
  bind freshSerial fun serial _ _ => pure (f := FunctionObject.recoded v.code) ⟨serial, c⟩

theorem newInstance (c : Class) :
    v.Shows (Instance.recoded v.code) (Eval.newInstance c) (Eval.newInstance (c.recoded v.code)) m := by
  refine .inl ?_
  have h : (v.machine m).store.construct (c.recoded v.code) =
      ((m.store.construct c).1.recoded v.code, (m.store.construct c).2.recoded v.code) := m.store.construct_recoded v.code c
  unfold Eval.newInstance
  rw [h]
  rfl

theorem field? (i : Instance) (x : String) :
    v.Shows (Option.map (Value.recoded v.code)) (Eval.field? i x) (Eval.field? (i.recoded v.code) x) m :=
  .inl (congrArg (Outcome.done · (v.machine m)) (m.store.field?_recoded v.code i x))

theorem setField (i : Instance) (x : String) (u : Value) :
    v.Shows id (Eval.setField i x u) (Eval.setField (i.recoded v.code) x (u.recoded v.code)) m := by
  refine update ?_
  have h := m.store.setField_recoded v.code i x u
  simp only [View.machine, Machine.recoded, h]

theorem closureHere (name : Name) (routine : Routine) : v.Shows (Closure.recoded v.code) (Eval.closureHere name routine)
    (Eval.closureHere (name.relined v.code.lineOf) (routine.recoded v.code)) m := .inl rfl

theorem bindThis (c : Closure) (i : Instance) : v.Shows (Closure.recoded v.code) (Eval.bindThis c i)
    (Eval.bindThis (c.recoded v.code) (i.recoded v.code)) m :=
  bind (newFrame (Dict.empty.insert "this" (.object i)) c.env) fun env _ _ =>
    pure (f := Closure.recoded v.code) { c with env }

theorem methodTable (env : Env) (initializers : Bool) : ∀ (ms : List Method) (table : Dict FunctionObject) {m : Machine},
    v.Shows (Dict.map (FunctionObject.recoded v.code)) (Eval.methodTable env initializers ms table)
      (Eval.methodTable env initializers (recodedMethods v.code ms) (table.map (FunctionObject.recoded v.code))) m
  | [], table, _ => pure table
  | ⟨name, isGetter, routine⟩ :: ms, table, _ => by
    refine bind (newFunction ⟨name, routine, isGetter, initializers && name.text = "init", env⟩) fun o m' _ => ?_
    have hinsert := Dict.insert_map (FunctionObject.recoded v.code) table name.text o
    have hrest := methodTable env initializers ms (table.insert name.text o) (m := m')
    rw [← hinsert] at hrest
    exact hrest

theorem memberEnv (superclass : Option Class) :
    v.Shows id (Eval.memberEnv superclass) (Eval.memberEnv (superclass.map (Class.recoded v.code))) m := by
  refine bind (f := id) (read rfl) fun here _ _ => ?_
  cases superclass with
  | none => exact pure here
  | some parent => exact newFrame (Dict.empty.insert "super" (.klass parent)) here

theorem newClass (name : Name) (superclass : Option Class) (methods statics : List Method) :
    v.Shows (Class.recoded v.code) (Eval.newClass name superclass methods statics)
      (Eval.newClass (name.relined v.code.lineOf) (superclass.map (Class.recoded v.code)) (recodedMethods v.code methods)
        (recodedMethods v.code statics)) m := by
  refine bind (memberEnv superclass) fun env _ _ => bind (methodTable env true methods .empty) fun methods _ _ => ?_
  refine bind (methodTable env false statics .empty) fun statics _ _ => bind freshSerial fun serial _ _ => ?_
  have hancestors : ((superclass.map (Class.recoded v.code)).map Class.lineage).getD [] =
      ((superclass.map Class.lineage).getD []).map (ClassLayer.recoded v.code) := by
    cases superclass <;> rfl
  rw [hancestors]
  exact pure (f := Class.recoded v.code) ⟨⟨serial, name.text, methods, statics⟩, (superclass.map Class.lineage).getD []⟩

theorem superClass {node : NodeId} (line : Nat) (h : v.Keeps m node) :
    v.Shows (Class.recoded v.code) (Eval.superClass node line) (Eval.superClass (v.code.idOf node) (v.code.lineOf line)) m := by
  have hb : (v.machine m).bindings.get? (v.code.idOf node) = m.bindings.get? node := h
  refine .inl ?_
  unfold Eval.superClass
  rw [hb]
  cases m.bindings.get? node with
  | none => rfl
  | some distance =>
    have hread : (v.machine m).store.readAt (v.machine m).env distance "super" =
        (m.store.readAt m.env distance "super").map (Value.recoded v.code) := m.store.readAt_recoded ..
    simp only [Option.bind_some, hread]
    cases m.store.readAt m.env distance "super" with
    | none => rfl
    | some u => cases u <;> rfl

theorem superReceiver {node : NodeId} (line : Nat) (h : v.Keeps m node) :
    v.Shows (Instance.recoded v.code) (Eval.superReceiver node line) (Eval.superReceiver (v.code.idOf node) (v.code.lineOf line)) m := by
  have hb : (v.machine m).bindings.get? (v.code.idOf node) = m.bindings.get? node := h
  refine .inl ?_
  unfold Eval.superReceiver
  rw [hb]
  match m.bindings.get? node with
  | none => rfl
  | some 0 => rfl
  | some (distance + 1) =>
    have hread : (v.machine m).store.readAt (v.machine m).env distance "this" =
        (m.store.readAt m.env distance "this").map (Value.recoded v.code) := m.store.readAt_recoded ..
    simp only [hread]
    cases m.store.readAt m.env distance "this" with
    | none => rfl
    | some u => cases u <;> rfl

theorem receiverOf (c : Closure) :
    v.Shows (Value.recoded v.code) (Eval.receiverOf c) (Eval.receiverOf (c.recoded v.code)) m := by
  have hread : (v.machine m).store.readAt (c.recoded v.code).env 0 "this" =
      (m.store.readAt c.env 0 "this").map (Value.recoded v.code) := m.store.readAt_recoded ..
  refine .inl ?_
  unfold Eval.receiverOf
  rw [hread]
  cases m.store.readAt c.env 0 "this" <;> rfl

/-! ## Input and output -/

theorem writeLine (text : String) {fault fault' : OutputFault → Error}
    (h : ∀ o, fault' o = (fault o).relined v.code.lineOf) : v.Shows id (Eval.writeLine text fault) (Eval.writeLine text fault') m := by
  have ho : (v.machine m).output = m.output := rfl
  refine .inl ?_
  unfold Eval.writeLine
  rw [ho]
  obtain ⟨written, output⟩ := m.output.write (text ++ "\n")
  cases written with
  | true => rfl
  | false => dsimp only; rw [h]; rfl

theorem readLine (line : Nat) :
    v.Shows (Value.recoded v.code) (Eval.readLine line) (Eval.readLine (v.code.lineOf line)) m := by
  have hi : (v.machine m).input = m.input := rfl
  refine .inl ?_
  unfold Eval.readLine
  rw [hi]
  obtain ⟨bytes, input⟩ := m.input.programLine
  dsimp only
  cases bytes with
  | nil => rfl
  | cons b bs => cases Utf8.decode (b :: bs) <;> rfl

theorem callNative (fn : Native) (arguments : List Value) (line : Nat) : v.Shows (Value.recoded v.code)
    (Eval.callNative fn arguments line) (Eval.callNative fn (arguments.map (Value.recoded v.code)) (v.code.lineOf line)) m := by
  cases fn with
  | clock => exact .inl rfl
  | read => exact readLine line
  | breakpoint => exact pure Value.nil
  | print =>
    cases arguments with
    | nil => exact pure Value.nil
    | cons u us =>
      simp only [Eval.callNative, List.map_cons, Value.text_recoded]
      exact bind (writeLine _ fun _ => rfl) fun _ _ _ => pure Value.nil

end Shows

end View

end Lox
