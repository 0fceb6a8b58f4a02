import Mathlib.Data.List.Basic
import Lox.Evaluate
import Lox.Proofs.Syntax.Recoded

/-!
# Values and stores with other lines and identities

The lines and identities in a store are those of the code that its functions hold. Whatever is read from a store or
written to it is the same with others.
-/

namespace Lox

/-! ## Entries -/

namespace Dict

variable {α β : Type} (f : α → β)

def map (d : Dict α) : Dict β := List.map (fun e => (e.1, f e.2)) d

theorem get?_map (d : Dict α) (name : String) : (d.map f).get? name = (d.get? name).map f := by
  induction d with
  | nil => rfl
  | cons e rest ih =>
    by_cases h : e.1 = name
    · simp [map, get?, h]
    · simpa [map, get?, h] using ih

theorem insert_map (d : Dict α) (name : String) (a : α) : (d.map f).insert name (f a) = (d.insert name a).map f := by
  induction d with
  | nil => rfl
  | cons e rest ih =>
    obtain ⟨n, b⟩ := e
    by_cases h : n = name
    · simp only [map, List.map_cons, insert, h]
      rfl
    · simp only [map, List.map_cons, insert, h]
      exact congrArg ((n, f b) :: ·) ih

theorem modify_insert_map (ds : Array (Dict α)) (i : Nat) (name : String) (a : α) :
    (ds.map (map f)).modify i (·.insert name (f a)) = (ds.modify i (·.insert name a)).map (map f) := by
  refine Array.ext_getElem? fun j => ?_
  rw [Array.getElem?_modify, Array.getElem?_map, Array.getElem?_map, Array.getElem?_modify]
  split
  · cases ds[j]? with
    | none => rfl
    | some d => exact congrArg some (insert_map f d name a)
  · rfl

theorem map_id (d : Dict α) : d.map id = d := List.map_id d

theorem map_map {γ : Type} (h : β → γ) (d : Dict α) : (d.map f).map h = d.map (h ∘ f) := List.map_map

end Dict

variable (ρ σ : Recoding)

/-! ## Values -/

def Closure.recoded (c : Closure) : Closure := { c with name := c.name.relined ρ.lineOf, routine := c.routine.recoded ρ }

def FunctionObject.recoded (o : FunctionObject) : FunctionObject := { o with closure := o.closure.recoded ρ }

def ClassLayer.recoded (layer : ClassLayer) : ClassLayer :=
  { layer with methods := layer.methods.map (FunctionObject.recoded ρ), statics := layer.statics.map (FunctionObject.recoded ρ) }

def Class.recoded (c : Class) : Class :=
  { layer := c.layer.recoded ρ, ancestors := c.ancestors.map (ClassLayer.recoded ρ) }

def Instance.recoded (i : Instance) : Instance := { i with cls := i.cls.recoded ρ }

def BoundMethod.recoded (m : BoundMethod) : BoundMethod :=
  { m with receiver := m.receiver.recoded ρ, method := m.method.recoded ρ }

def Value.recoded : Value → Value
  | .nil => .nil
  | .bool b => .bool b
  | .number x => .number x
  | .string s => .string s
  | .native fn => .native fn
  | .function o => .function (o.recoded ρ)
  | .klass c => .klass (c.recoded ρ)
  | .bound m => .bound (m.recoded ρ)
  | .object i => .object (i.recoded ρ)

def Callee.recoded : Callee → Callee
  | .native fn => .native fn
  | .closure c => .closure (c.recoded ρ)
  | .construct c => .construct (c.recoded ρ)

def Flow.recoded : Flow → Flow
  | .completed => .completed
  | .returned v => .returned (v.recoded ρ)
  | .broke => .broke

@[simp] theorem Closure.arity_recoded (c : Closure) : (c.recoded ρ).arity = c.arity := by
  obtain ⟨_, ⟨params, body⟩, _, _, _⟩ := c
  exact List.length_map _

@[simp] theorem Class.lineage_recoded (c : Class) : (c.recoded ρ).lineage = c.lineage.map (ClassLayer.recoded ρ) := rfl

theorem Class.method?_recoded (c : Class) (name : String) :
    (c.recoded ρ).method? name = (c.method? name).map (FunctionObject.recoded ρ) := by
  unfold Class.method?
  rw [Class.lineage_recoded]
  induction c.lineage with
  | nil => rfl
  | cons layer layers ih =>
    have hget : (layer.recoded ρ).methods.get? name = (layer.methods.get? name).map (FunctionObject.recoded ρ) :=
      Dict.get?_map _ _ _
    rw [List.map_cons, List.findSome?_cons, List.findSome?_cons, hget, ih]
    cases layer.methods.get? name <;> rfl

theorem Class.static?_recoded (c : Class) (name : String) :
    (c.recoded ρ).static? name = (c.static? name).map (FunctionObject.recoded ρ) := by
  unfold Class.static?
  rw [Class.lineage_recoded]
  induction c.lineage with
  | nil => rfl
  | cons layer layers ih =>
    have hget : (layer.recoded ρ).statics.get? name = (layer.statics.get? name).map (FunctionObject.recoded ρ) :=
      Dict.get?_map _ _ _
    rw [List.map_cons, List.findSome?_cons, List.findSome?_cons, hget, ih]
    cases layer.statics.get? name <;> rfl

theorem Class.initializer?_recoded (c : Class) :
    (c.recoded ρ).initializer? = c.initializer?.map (FunctionObject.recoded ρ) := c.method?_recoded ρ "init"

theorem Callee.arity_recoded (c : Callee) : (c.recoded ρ).arity = c.arity := by
  cases c with
  | native fn => rfl
  | closure c => exact c.arity_recoded ρ
  | construct c =>
    change (((c.recoded ρ).initializer?).map (·.closure.arity)).getD 0 = (c.initializer?.map (·.closure.arity)).getD 0
    rw [Class.initializer?_recoded]
    cases c.initializer? with
    | none => rfl
    | some o => exact o.closure.arity_recoded ρ

@[simp] theorem Value.isTruthy_recoded (v : Value) : (v.recoded ρ).isTruthy = v.isTruthy := by cases v <;> rfl

@[simp] theorem Value.text_recoded (v : Value) : (v.recoded ρ).text = v.text := by cases v <;> rfl

@[simp] theorem Value.same_recoded (v w : Value) : (v.recoded ρ).same (w.recoded ρ) = v.same w := by
  cases v <;> cases w <;> rfl

theorem Value.callee?_recoded (v : Value) : (v.recoded ρ).callee? = v.callee?.map (Callee.recoded ρ) := by cases v <;> rfl

@[simp] theorem Value.recoded_ofLiteral (l : Literal) : (Value.ofLiteral l).recoded ρ = .ofLiteral l := by cases l <;> rfl

@[simp] theorem Flow.result_recoded (flow : Flow) : (flow.recoded ρ).result = flow.result.recoded ρ := by cases flow <;> rfl

@[simp] theorem LogicalOp.shortCircuits_recoded (op : LogicalOp) (v : Value) :
    op.shortCircuits (v.recoded ρ) = op.shortCircuits v := by
  cases op <;> simp [LogicalOp.shortCircuits]

theorem Mark.applyUnary_recoded (op : Mark) (v : Value) :
    op.applyUnary (v.recoded ρ) = (op.applyUnary v).map (Value.recoded ρ) := by
  cases op <;> cases v <;> rfl

theorem Mark.onNumbers_recoded (op : Mark) (x y : Float) :
    (op.onNumbers x y).map (Value.recoded ρ) = op.onNumbers x y := by
  unfold Mark.onNumbers
  split
  any_goals rfl
  all_goals split <;> rfl

theorem Mark.applyBinary_recoded (op : Mark) (v w : Value) :
    op.applyBinary (v.recoded ρ) (w.recoded ρ) = (op.applyBinary v w).map (Value.recoded ρ) := by
  have numbers := fun op x y => (Mark.onNumbers_recoded ρ op x y).symm
  cases op with
  | equalEqual => exact congrArg (fun b => Except.ok (Value.bool b)) (Value.same_recoded ρ v w)
  | bangEqual => exact congrArg (fun b => Except.ok (Value.bool !b)) (Value.same_recoded ρ v w)
  | slash => cases v <;> cases w <;> first | rfl | exact numbers .slash ..
  | percent => cases v <;> cases w <;> first | rfl | exact numbers .percent ..
  | _ => cases v <;> cases w <;> rfl

/-! ## Stores -/

def Store.recoded (s : Store) : Store :=
  { s with frames := s.frames.map (Dict.map (Value.recoded ρ)), fields := s.fields.map (Dict.map (Value.recoded ρ)) }

namespace Store

variable (s : Store)

theorem var?_recoded (id : FrameId) (name : String) : (s.recoded ρ).var? id name = (s.var? id name).map (Value.recoded ρ) := by
  unfold Store.var? Store.frame? Store.recoded
  rw [Array.getElem?_map]
  cases s.frames[id]? with
  | none => rfl
  | some frame => exact Dict.get?_map _ frame name

theorem setVar_recoded (id : FrameId) (name : String) (v : Value) :
    (s.recoded ρ).setVar id name (v.recoded ρ) = (s.setVar id name v).recoded ρ := by
  unfold Store.setVar Store.recoded
  rw [Dict.modify_insert_map]

theorem readAt_recoded (env : Env) (distance : Nat) (name : String) :
    (s.recoded ρ).readAt env distance name = (s.readAt env distance name).map (Value.recoded ρ) := by
  unfold Store.readAt
  cases Store.ancestor? env distance with
  | none => rfl
  | some id => exact s.var?_recoded ρ id name

theorem slotAt?_recoded (env : Env) (distance : Nat) (name : String) :
    (s.recoded ρ).slotAt? env distance name = s.slotAt? env distance name := by
  unfold Store.slotAt?
  simp only [var?_recoded, Option.isSome_map]

theorem slot?_recoded (env : Env) (name : String) : (s.recoded ρ).slot? env name = s.slot? env name := by
  unfold Store.slot?
  simp only [var?_recoded, Option.isSome_map]

theorem freeSlot?_recoded (env : Env) (name : String) : (s.recoded ρ).freeSlot? env name = s.freeSlot? env name := by
  unfold Store.freeSlot?
  simp only [var?_recoded, Option.isNone_map]

theorem extend_recoded (frame : Frame) (env : Env) : (s.recoded ρ).extend (frame.map (Value.recoded ρ)) env =
    ((s.extend frame env).1, (s.extend frame env).2.recoded ρ) := by
  simp [Store.extend, Store.recoded]

theorem construct_recoded (c : Class) : (s.recoded ρ).construct (c.recoded ρ) =
    ((s.construct c).1.recoded ρ, (s.construct c).2.recoded ρ) := by
  simp [Store.construct, Store.recoded, Instance.recoded]
  rfl

theorem field?_recoded (i : Instance) (name : String) :
    (s.recoded ρ).field? (i.recoded ρ) name = (s.field? i name).map (Value.recoded ρ) := by
  unfold Store.field? Store.recoded
  dsimp only [Instance.recoded]
  rw [Array.getElem?_map]
  cases s.fields[i.id]? with
  | none => rfl
  | some d => exact Dict.get?_map _ d name

theorem setField_recoded (i : Instance) (name : String) (v : Value) :
    (s.recoded ρ).setField (i.recoded ρ) name (v.recoded ρ) = (s.setField i name v).recoded ρ := by
  unfold Store.setField Store.recoded
  rw [Dict.modify_insert_map]
  rfl

end Store

theorem argumentFrame_recoded (params : List Name) (arguments : List Value) :
    argumentFrame (params.map (Name.relined ρ.lineOf)) (arguments.map (Value.recoded ρ)) =
      (argumentFrame params arguments).map (Value.recoded ρ) := by
  have fold : ∀ (ps : List (Name × Value)) (frame : Frame),
      (ps.map (Prod.map (Name.relined ρ.lineOf) (Value.recoded ρ))).foldl (fun frame p => frame.insert p.1.text p.2)
        (frame.map (Value.recoded ρ)) =
      Dict.map (Value.recoded ρ) (ps.foldl (fun frame p => frame.insert p.1.text p.2) frame) := by
    intro ps
    induction ps with
    | nil => intro frame; rfl
    | cons p ps ih =>
      intro frame
      rw [List.map_cons, List.foldl_cons, List.foldl_cons, ← ih]
      exact congrArg (List.foldl _ · _) (Dict.insert_map _ frame p.1.text p.2)
  unfold argumentFrame
  rw [List.zip_map]
  exact fold _ .empty

/-! ## Machines -/

def Machine.recoded (m : Machine) : Machine := { m with store := m.store.recoded ρ }

/-! Code that stays, and code replaced twice. -/

theorem Closure.recoded_same (c : Closure) : c.recoded .same = c := by
  unfold Closure.recoded
  rw [Routine.recoded_same]
  rfl

theorem Closure.recoded_comp (c : Closure) : (c.recoded ρ).recoded σ = c.recoded (σ.comp ρ) := by
  unfold Closure.recoded
  rw [Routine.recoded_comp]
  rfl

theorem FunctionObject.recoded_same : FunctionObject.recoded .same = id := by
  funext o
  unfold FunctionObject.recoded
  rw [Closure.recoded_same]
  rfl

theorem FunctionObject.recoded_comp : FunctionObject.recoded σ ∘ FunctionObject.recoded ρ = FunctionObject.recoded (σ.comp ρ) := by
  funext o
  simp only [Function.comp_apply, FunctionObject.recoded, Closure.recoded_comp]

theorem ClassLayer.recoded_same : ClassLayer.recoded .same = id := by
  funext layer
  simp only [ClassLayer.recoded, FunctionObject.recoded_same, Dict.map_id]
  rfl

theorem ClassLayer.recoded_comp : ClassLayer.recoded σ ∘ ClassLayer.recoded ρ = ClassLayer.recoded (σ.comp ρ) := by
  funext layer
  simp only [Function.comp_apply, ClassLayer.recoded, Dict.map_map, FunctionObject.recoded_comp]

theorem Class.recoded_same (c : Class) : c.recoded .same = c := by
  simp only [Class.recoded, ClassLayer.recoded_same, List.map_id]
  rfl

theorem Class.recoded_comp (c : Class) : (c.recoded ρ).recoded σ = c.recoded (σ.comp ρ) := by
  simp only [Class.recoded, List.map_map, ClassLayer.recoded_comp]
  rw [← ClassLayer.recoded_comp ρ σ]
  rfl

theorem Value.recoded_same : Value.recoded .same = id := by
  funext v
  cases v <;> simp only [Value.recoded, FunctionObject.recoded_same, BoundMethod.recoded, Instance.recoded, Class.recoded_same,
    Closure.recoded_same, id]

theorem Value.recoded_comp : Value.recoded σ ∘ Value.recoded ρ = Value.recoded (σ.comp ρ) := by
  funext v
  cases v <;> simp only [Function.comp_apply, Value.recoded, ← FunctionObject.recoded_comp ρ σ, BoundMethod.recoded,
    Instance.recoded, Class.recoded_comp, Closure.recoded_comp]

theorem Dict.map_recoded_same : Dict.map (Value.recoded .same) = id := by
  funext d
  rw [Value.recoded_same, Dict.map_id]
  rfl

theorem Machine.recoded_same (m : Machine) : m.recoded .same = m := by
  simp only [Machine.recoded, Store.recoded, Dict.map_recoded_same, Array.map_id_fun, id]

theorem Machine.recoded_comp (m : Machine) : (m.recoded ρ).recoded σ = m.recoded (σ.comp ρ) := by
  have hd : Dict.map (Value.recoded σ) ∘ Dict.map (Value.recoded ρ) = Dict.map (Value.recoded (σ.comp ρ)) := by
    funext d
    rw [Function.comp_apply, Dict.map_map, Value.recoded_comp]
  simp only [Machine.recoded, Store.recoded, Array.map_map, hd]

end Lox
