import Lox.Proofs.Evaluation.Recoded

/-!
# Values and stores on other lines

The same values, stores and machines with the lines in their code replaced.
-/

namespace Lox

variable (f g : Nat → Nat)

def Closure.relined (c : Closure) : Closure := { c with name := c.name.relined f, routine := c.routine.relined f }

def FunctionObject.relined (o : FunctionObject) : FunctionObject := { o with closure := o.closure.relined f }

def ClassLayer.relined (layer : ClassLayer) : ClassLayer :=
  { layer with methods := layer.methods.map (FunctionObject.relined f), statics := layer.statics.map (FunctionObject.relined f) }

def Class.relined (c : Class) : Class :=
  { layer := c.layer.relined f, ancestors := c.ancestors.map (ClassLayer.relined f) }

def Instance.relined (i : Instance) : Instance := { i with cls := i.cls.relined f }

def BoundMethod.relined (m : BoundMethod) : BoundMethod :=
  { m with receiver := m.receiver.relined f, method := m.method.relined f }

def Value.relined : Value → Value
  | .nil => .nil
  | .bool b => .bool b
  | .number x => .number x
  | .string s => .string s
  | .native fn => .native fn
  | .function o => .function (o.relined f)
  | .klass c => .klass (c.relined f)
  | .bound m => .bound (m.relined f)
  | .object i => .object (i.relined f)

def Store.relined (s : Store) : Store :=
  { s with frames := s.frames.map (Dict.map (Value.relined f)), fields := s.fields.map (Dict.map (Value.relined f)) }

def Machine.relined (m : Machine) : Machine := { m with store := m.store.relined f }

/-! Lines are part of a recoding. -/

theorem FunctionObject.relined_eq : FunctionObject.relined f = FunctionObject.recoded ⟨f, id⟩ := by
  funext o
  exact congrArg (fun r => (⟨o.serial, { o.closure with name := o.closure.name.relined f, routine := r }⟩ : FunctionObject))
    (o.closure.routine.relined_eq f)

theorem ClassLayer.relined_eq : ClassLayer.relined f = ClassLayer.recoded ⟨f, id⟩ := by
  funext layer
  simp only [ClassLayer.relined, ClassLayer.recoded, FunctionObject.relined_eq]

theorem Class.relined_eq (c : Class) : c.relined f = c.recoded ⟨f, id⟩ := by
  simp only [Class.relined, Class.recoded, ClassLayer.relined_eq]

theorem Value.relined_eq : Value.relined f = Value.recoded ⟨f, id⟩ := by
  funext v
  cases v <;> simp only [Value.relined, Value.recoded, FunctionObject.relined_eq, BoundMethod.relined, BoundMethod.recoded,
    Instance.relined, Instance.recoded, Class.relined_eq, Closure.relined, Closure.recoded, Routine.relined_eq]

theorem Machine.relined_eq (m : Machine) : m.relined f = m.recoded ⟨f, id⟩ := by
  simp only [Machine.relined, Machine.recoded, Store.relined, Store.recoded, Value.relined_eq]

theorem Machine.relined_id (m : Machine) : m.relined id = m := (m.relined_eq id).trans m.recoded_same

theorem Machine.relined_comp (m : Machine) : (m.relined f).relined g = m.relined (g ∘ f) := by
  rw [Machine.relined_eq, Machine.relined_eq, Machine.relined_eq]
  exact m.recoded_comp ⟨f, id⟩ ⟨g, id⟩

end Lox
