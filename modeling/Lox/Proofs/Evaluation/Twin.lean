import Mathlib.Data.List.Forall2
import Lox.Proofs.Evaluation.World
import Lox.Proofs.Syntax.Twin

/-!
# Machines whose code is a twin

Two machines are twins if all is the same on them but the code that their functions hold, which is a twin of the other's, and
if nodes that correspond have the same binding. What an operation does on one of them it does on the other.
-/

namespace Lox

section
variable (T : Ties)

/-! ## Values -/

structure Closure.Twin (c c' : Closure) : Prop where
  name : c'.name = c.name
  routine : c.routine.Twin T c'.routine
  isGetter : c'.isGetter = c.isGetter
  isInitializer : c'.isInitializer = c.isInitializer
  env : c'.env = c.env

structure FunctionObject.Twin (f f' : FunctionObject) : Prop where
  serial : f'.serial = f.serial
  closure : f.closure.Twin T f'.closure

/-- The entries of each name are related. -/
def Dict.Rel {α β : Type} (R : α → β → Prop) (d : Dict α) (d' : Dict β) : Prop := ∀ x, Option.Rel R (d.get? x) (d'.get? x)

structure ClassLayer.Twin (layer layer' : ClassLayer) : Prop where
  serial : layer'.serial = layer.serial
  name : layer'.name = layer.name
  methods : layer.methods.Rel (FunctionObject.Twin T) layer'.methods
  statics : layer.statics.Rel (FunctionObject.Twin T) layer'.statics

structure Class.Twin (c c' : Class) : Prop where
  layer : c.layer.Twin T c'.layer
  ancestors : List.Forall₂ (ClassLayer.Twin T) c.ancestors c'.ancestors

structure Instance.Twin (i i' : Instance) : Prop where
  id : i'.id = i.id
  cls : i.cls.Twin T i'.cls

structure BoundMethod.Twin (m m' : BoundMethod) : Prop where
  serial : m'.serial = m.serial
  receiver : m.receiver.Twin T m'.receiver
  method : m.method.Twin T m'.method

inductive Value.Twin : Value → Value → Prop where
  | nil : Twin .nil .nil
  | bool (b : Bool) : Twin (.bool b) (.bool b)
  | number (x : Float) : Twin (.number x) (.number x)
  | string (s : String) : Twin (.string s) (.string s)
  | native (fn : Native) : Twin (.native fn) (.native fn)
  | function {f f'} : f.Twin T f' → Twin (.function f) (.function f')
  | klass {c c'} : c.Twin T c' → Twin (.klass c) (.klass c')
  | bound {m m'} : m.Twin T m' → Twin (.bound m) (.bound m')
  | object {i i'} : i.Twin T i' → Twin (.object i) (.object i')

inductive Callee.Twin : Callee → Callee → Prop where
  | native (fn : Native) : Twin (.native fn) (.native fn)
  | closure {c c'} : c.Twin T c' → Twin (.closure c) (.closure c')
  | construct {c c'} : c.Twin T c' → Twin (.construct c) (.construct c')

inductive Flow.Twin : Flow → Flow → Prop where
  | completed : Twin .completed .completed
  | returned {v v'} : v.Twin T v' → Twin (.returned v) (.returned v')
  | broke : Twin .broke .broke

/-! ## Machines -/

structure Store.Twin (s s' : Store) : Prop where
  frames : s'.frames.size = s.frames.size
  vars : ∀ f x, Option.Rel (Value.Twin T) (s.var? f x) (s'.var? f x)
  instances : s'.fields.size = s.fields.size
  fields : ∀ (i : Nat) x, Option.Rel (Value.Twin T) (s.fields[i]?.bind (·.get? x)) (s'.fields[i]?.bind (·.get? x))
  nextSerial : s'.nextSerial = s.nextSerial

structure Machine.Twin (m m' : Machine) : Prop where
  store : m.store.Twin T m'.store
  env : m'.env = m.env
  depth : m'.depth = m.depth
  bindings : ∀ id id', T.ids id id' → m'.bindings.get? id' = m.bindings.get? id
  input : m'.input = m.input
  output : m'.output = m.output
  clock : m'.clock = m.clock

end

variable {T : Ties}

theorem Machine.Twin.inEnv {m m' : Machine} (h : m.Twin T m') (env : Env) : { m with env }.Twin T { m' with env } :=
  { h with env := rfl }

theorem Machine.Twin.deeper {m m' : Machine} (h : m.Twin T m') :
    { m with depth := m.depth + 1 }.Twin T { m' with depth := m'.depth + 1 } :=
  { h with depth := congrArg (· + 1) h.depth }

/-- A store is its own twin if the values in it are. -/
theorem Store.twin_self {s : Store} (h : s.Holds fun v => v.Twin T v) : s.Twin T s where
  frames := rfl
  vars f x := by
    cases hv : s.var? f x with
    | none => exact .none
    | some v => exact .some (h.vars f x v hv)
  instances := rfl
  fields i x := by
    cases hv : s.fields[i]?.bind (·.get? x) with
    | none => exact .none
    | some v => exact .some (h.fields ⟨i, ⟨⟨0, "", .empty, .empty⟩, []⟩⟩ x v hv)
  nextSerial := rfl

/-! ## Entries -/

theorem rel_cases {α β : Type} {R : α → β → Prop} {a : Option α} {b : Option β} (h : Option.Rel R a b) :
    (a = none ∧ b = none) ∨ ∃ x y, a = some x ∧ b = some y ∧ R x y := by
  cases h with
  | none => exact .inl ⟨rfl, rfl⟩
  | some h => exact .inr ⟨_, _, rfl, rfl, h⟩

theorem rel_of_some {α β : Type} {R : α → β → Prop} {b : Option β} {x : α} (h : Option.Rel R (some x) b) : ∃ y, R x y := by
  cases h with
  | some h => exact ⟨_, h⟩

namespace Dict.Rel

variable {α β : Type} {R : α → β → Prop} {d : Dict α} {d' : Dict β}

theorem empty : (Dict.empty : Dict α).Rel R (Dict.empty : Dict β) := fun _ => .none

theorem insert (h : d.Rel R d') (x : String) {a : α} {b : β} (hab : R a b) : (d.insert x a).Rel R (d'.insert x b) := by
  intro y
  rw [Dict.get?_insert, Dict.get?_insert]
  split
  · exact .some hab
  · exact h y

end Dict.Rel

/-! ## What twins have in common -/

theorem Closure.Twin.arity {c c' : Closure} (h : c.Twin T c') : c'.arity = c.arity := congrArg List.length h.routine.params

namespace Class.Twin

variable {c c' : Class}

theorem lineage (h : c.Twin T c') : List.Forall₂ (ClassLayer.Twin T) c.lineage c'.lineage := .cons h.layer h.ancestors

theorem findSome? {entry : ClassLayer → Option FunctionObject} {ls ls' : List ClassLayer}
    (he : ∀ l l' : ClassLayer, l.Twin T l' → Option.Rel (FunctionObject.Twin T) (entry l) (entry l'))
    (h : List.Forall₂ (ClassLayer.Twin T) ls ls') :
    Option.Rel (FunctionObject.Twin T) (ls.findSome? entry) (ls'.findSome? entry) := by
  induction h with
  | nil => exact .none
  | @cons l l' _ _ hl _ ih =>
    rw [List.findSome?_cons, List.findSome?_cons]
    rcases rel_cases (he l l' hl) with ⟨hf, hf'⟩ | ⟨f, f', hf, hf', h⟩
    · rw [hf, hf']; exact ih
    · rw [hf, hf']; exact .some h

theorem method? (h : c.Twin T c') (x : String) : Option.Rel (FunctionObject.Twin T) (c.method? x) (c'.method? x) :=
  findSome? (fun _ _ hl => hl.methods x) h.lineage

theorem static? (h : c.Twin T c') (x : String) : Option.Rel (FunctionObject.Twin T) (c.static? x) (c'.static? x) :=
  findSome? (fun _ _ hl => hl.statics x) h.lineage

theorem initializer? (h : c.Twin T c') : Option.Rel (FunctionObject.Twin T) c.initializer? c'.initializer? := h.method? "init"

theorem arity (h : c.Twin T c') : c'.arity = c.arity := by
  unfold Class.arity
  rcases rel_cases h.initializer? with ⟨hf, hf'⟩ | ⟨f, f', hf, hf', h⟩
  · rw [hf, hf']
  · rw [hf, hf']
    exact h.closure.arity

end Class.Twin

theorem Callee.Twin.arity {f f' : Callee} : f.Twin T f' → f'.arity = f.arity
  | .native _ => rfl
  | .closure h => Closure.Twin.arity h
  | .construct h => Class.Twin.arity h

theorem Flow.Twin.result {flow flow' : Flow} : flow.Twin T flow' → flow.result.Twin T flow'.result
  | .completed => .nil
  | .returned h => h
  | .broke => .nil

namespace Value.Twin

variable {v v' w w' : Value}

theorem ofLiteral (l : Literal) : (Value.ofLiteral l).Twin T (.ofLiteral l) := by cases l <;> constructor

theorem isTruthy (h : v.Twin T v') : v'.isTruthy = v.isTruthy := by cases h <;> rfl

theorem shortCircuits (h : v.Twin T v') (op : LogicalOp) : op.shortCircuits v' = op.shortCircuits v := by
  cases op <;> simp only [LogicalOp.shortCircuits, h.isTruthy]

theorem text (h : v.Twin T v') : v'.text = v.text := by
  cases h with
  | function h => exact congrArg (fun name : Name => "<fn " ++ name.text ++ ">") h.closure.name
  | klass h => exact congrArg (fun name => "<class " ++ name ++ ">") h.layer.name
  | bound h =>
    exact congrArg₂ (fun (cls : String) (name : Name) => "<bound method " ++ cls ++ "." ++ name.text ++ ">")
      h.receiver.cls.layer.name h.method.name
  | object h => exact congrArg (fun name => "<" ++ name ++ " instance>") h.cls.layer.name
  | _ => rfl

theorem same (h : v.Twin T v') (hw : w.Twin T w') : v'.same w' = v.same w := by
  have eq : ∀ {a b a' b' : Nat}, a' = a → b' = b → (a' == b') = (a == b) := fun ha hb => by rw [ha, hb]
  cases h with
  | function h => cases hw with | function hw => exact eq h.serial hw.serial | _ => rfl
  | klass h => cases hw with | klass hw => exact eq h.layer.serial hw.layer.serial | _ => rfl
  | bound h => cases hw with | bound hw => exact eq h.serial hw.serial | _ => rfl
  | object h => cases hw with | object hw => exact eq h.id hw.id | _ => rfl
  | _ => cases hw <;> rfl

theorem callee? (h : v.Twin T v') : Option.Rel (Callee.Twin T) v.callee? v'.callee? := by
  cases h with
  | native fn => exact .some (.native fn)
  | function h => exact .some (.closure h.closure)
  | klass h => exact .some (.construct h)
  | bound h => exact .some (.closure h.method)
  | _ => exact .none

end Value.Twin

/-- Faults are the same, and results twins. -/
inductive ExceptTwin (T : Ties) : Except RuntimeFault Value → Except RuntimeFault Value → Prop where
  | ok {v v'} : v.Twin T v' → ExceptTwin T (.ok v) (.ok v')
  | error (fault : RuntimeFault) : ExceptTwin T (.error fault) (.error fault)

theorem Mark.applyUnary_twin (op : Mark) {v v' : Value} (h : v.Twin T v') :
    ExceptTwin T (op.applyUnary v) (op.applyUnary v') := by
  cases op with
  | bang =>
    have hb : Mark.bang.applyUnary v' = .ok (.bool !v.isTruthy) := by rw [← h.isTruthy]; rfl
    rw [hb]
    exact .ok (.bool _)
  | minus => cases h <;> first | exact .error _ | exact .ok (.number _)
  | _ => exact .error _

theorem Mark.applyBinary_eq (op : Mark) {v v' w w' : Value} (h : v.Twin T v') (hw : w.Twin T w') :
    op.applyBinary v' w' = op.applyBinary v w := by
  cases op with
  | equalEqual => exact congrArg (fun b => Except.ok (Value.bool b)) (h.same hw)
  | bangEqual => exact congrArg (fun b => Except.ok (Value.bool !b)) (h.same hw)
  | _ => cases h <;> cases hw <;> rfl

/-- What operators give holds no code. -/
theorem Mark.onNumbers_twin (op : Mark) (x y : Float) : ExceptTwin T (op.onNumbers x y) (op.onNumbers x y) := by
  unfold Mark.onNumbers
  split
  case h_4 | h_5 =>
    split
    · exact .error _
    · exact .ok (.number _)
  all_goals first | exact .error _ | exact .ok (.bool _) | exact .ok (.number _)

theorem Mark.applyBinary_twin (op : Mark) {v v' w w' : Value} (h : v.Twin T v') (hw : w.Twin T w') :
    ExceptTwin T (op.applyBinary v w) (op.applyBinary v' w') := by
  rw [op.applyBinary_eq h hw]
  unfold Mark.applyBinary
  split
  case h_4 => exact onNumbers_twin _ _ _
  all_goals first | exact .error _ | exact .ok (.bool _) | exact .ok (.string _)

end Lox
