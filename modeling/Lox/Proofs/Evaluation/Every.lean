import Lox.Proofs.Evaluation.Stored
import Lox.Proofs.Syntax.Every

/-!
# Machines whose code passes a check

All code that a machine can still run is in the functions that its store holds. Every operation keeps the
store to functions whose statements pass, if those that it is given do.
-/

namespace Lox

variable (P : Context → Stmt → Prop)

/-! ## Values -/

/-- The innermost body around the code of the closure. -/
def Closure.kind (c : Closure) : BodyKind := if c.isInitializer then .initializer else .function

/-- All statements of the closure pass, in what surrounded its declaration. -/
def Closure.Every (c : Closure) : Prop := ∃ ctx : Context, c.routine.Every P (ctx.enter c.kind)

structure ClassLayer.Every (layer : ClassLayer) : Prop where
  methods : ∀ x f, layer.methods.get? x = some f → f.closure.Every P
  statics : ∀ x f, layer.statics.get? x = some f → f.closure.Every P

def Class.Every (c : Class) : Prop := ∀ layer ∈ c.lineage, layer.Every P

def Value.Every : Value → Prop
  | .nil => True
  | .bool _ => True
  | .number _ => True
  | .string _ => True
  | .native _ => True
  | .function f => f.closure.Every P
  | .klass c => c.Every P
  | .bound m => m.receiver.cls.Every P ∧ m.method.Every P
  | .object i => i.cls.Every P

def Callee.Every : Callee → Prop
  | .native _ => True
  | .closure c => c.Every P
  | .construct c => c.Every P

variable {P}

theorem Class.Every.method {c : Class} (h : c.Every P) {x : String} {f : FunctionObject} (hf : c.method? x = some f) :
    f.closure.Every P := by
  obtain ⟨layer, hl, hf⟩ := List.exists_of_findSome?_eq_some hf
  exact (h layer hl).methods x f hf

theorem Class.Every.static {c : Class} (h : c.Every P) {x : String} {f : FunctionObject} (hf : c.static? x = some f) :
    f.closure.Every P := by
  obtain ⟨layer, hl, hf⟩ := List.exists_of_findSome?_eq_some hf
  exact (h layer hl).statics x f hf

theorem Value.Every.callee {f : Callee} : ∀ {v : Value}, v.Every P → v.callee? = some f → f.Every P
  | .native _, _, rfl => trivial
  | .function _, h, rfl => h
  | .klass _, h, rfl => h
  | .bound _, h, rfl => h.2

theorem Mark.applyUnary_every {op : Mark} {v u : Value} (h : op.applyUnary v = .ok u) : u.Every P := by
  unfold Mark.applyUnary at h
  split at h <;> cases h <;> trivial

theorem Mark.onNumbers_every {op : Mark} {x y : Float} {u : Value} (h : op.onNumbers x y = .ok u) : u.Every P := by
  unfold Mark.onNumbers at h
  split at h
  case h_4 | h_5 => split at h <;> cases h; trivial
  all_goals cases h
  all_goals trivial

theorem Mark.applyBinary_every {op : Mark} {v w u : Value} (h : op.applyBinary v w = .ok u) : u.Every P := by
  unfold Mark.applyBinary at h
  split at h
  case h_4 => exact Mark.onNumbers_every h
  all_goals cases h
  all_goals trivial

/-! ## Runs -/

/-- All code in the machine passes. -/
def Machine.Every (P : Context → Stmt → Prop) (m : Machine) : Prop := m.store.Holds (Value.Every P)

/-- The code in the machine passes at the end too, and the result is as stated. -/
def Outcome.Every (P : Context → Stmt → Prop) {α : Type} (Q : α → Prop) : Outcome Machine Error α → Prop
  | .done a m => m.Every P ∧ Q a
  | .failed _ m => m.Every P
  | .exhausted => True

theorem Outcome.every_iff {α : Type} {Q : α → Prop} : ∀ {o : Outcome Machine Error α}, o.Every P Q ↔ o.Leaves (Value.Every P) Q
  | .done _ _ => .rfl
  | .failed _ _ => .rfl
  | .exhausted => .rfl

/-- The run leaves code that passes where it has found such code, and gives what is stated. -/
def Eval.Preserves (P : Context → Stmt → Prop) {α : Type} (Q : α → Prop) (body : Eval α) : Prop :=
  ∀ m : Machine, m.Every P → (body m).Every P Q

namespace Eval.Preserves

section
variable {α β : Type} {Q : α → Prop} {R : β → Prop} {body : Eval α}

theorem of_leaves (h : ∀ m, Leaves (Value.Every P) Q body m) : Preserves P Q body := fun m hm => Outcome.every_iff.mpr (h m hm)

theorem leaves (h : Preserves P Q body) (m : Machine) : Leaves (Value.Every P) Q body m :=
  fun hm => Outcome.every_iff.mp (h m hm)

theorem of_done (h : Preserves P Q body) {m m' : Machine} (hm : m.Every P) {a : α} (ha : body m = .done a m') :
    m'.Every P ∧ Q a := (h.leaves m).of_done hm ha

theorem pure {a : α} (h : Q a) : Preserves P Q (Pure.pure a : Eval α) := of_leaves fun _ => .pure h

theorem bind {next : α → Eval β} (h : Preserves P Q body) (hn : ∀ a, Q a → Preserves P R (next a)) :
    Preserves P R (body >>= next) := of_leaves fun m => (h.leaves m).bind fun a m' _ ha => (hn a ha).leaves m'

theorem fail {line : Nat} {fault : RuntimeFault} : Preserves P Q (Eval.fail line fault) := of_leaves fun _ => .fail

theorem ofExcept {line : Nat} {x : Except RuntimeFault α} (h : ∀ a, x = .ok a → Q a) :
    Preserves P Q (Eval.ofExcept line x) := of_leaves fun _ => .ofExcept h

theorem read {f : Machine → α} (h : ∀ m, m.Every P → Q (f m)) : Preserves P Q (Run.read f) := of_leaves fun m => .read (h m)

theorem within {env : Env} (h : Preserves P Q body) : Preserves P Q (Eval.within env body) :=
  of_leaves fun _ => .within (h.leaves _)

theorem asCall {line : Nat} (h : Preserves P Q body) : Preserves P Q (Eval.asCall line body) :=
  of_leaves fun _ => .asCall fun _ => h.leaves _

end

/-! ## Variables -/

theorem lookUp (id : NodeId) (name : Name) : Preserves P (Value.Every P) (Eval.lookUp id name) :=
  of_leaves fun _ => .lookUp id name

theorem assign {id : NodeId} {name : Name} {v : Value} (hv : v.Every P) :
    Preserves P (fun _ => True) (Eval.assign id name v) := of_leaves fun _ => .assign hv

theorem define {name : Name} {v : Value} (hv : v.Every P) : Preserves P (fun _ => True) (Eval.define name v) :=
  of_leaves fun _ => .define hv

theorem overwrite {name : Name} {v : Value} (hv : v.Every P) : Preserves P (fun _ => True) (Eval.overwrite name v) :=
  of_leaves fun _ => .overwrite hv

theorem newFrame {frame : Frame} (env : Env) (h : ∀ x v, frame.get? x = some v → v.Every P) :
    Preserves P (fun _ => True) (Eval.newFrame frame env) := of_leaves fun _ => .newFrame h

/-- A frame with one variable. -/
theorem newFrame_insert {x : String} {v : Value} (env : Env) (hv : v.Every P) :
    Preserves P (fun _ => True) (Eval.newFrame (Dict.empty.insert x v) env) := of_leaves fun _ => .newFrame_insert hv

/-! ## Objects -/

theorem freshSerial : Preserves P (fun _ => True) Eval.freshSerial := of_leaves fun _ => .freshSerial

theorem newFunction {c : Closure} (h : c.Every P) : Preserves P (fun f => f.closure.Every P) (Eval.newFunction c) :=
  bind freshSerial fun _ _ => pure h

theorem newInstance {c : Class} (h : c.Every P) : Preserves P (fun i => i.cls.Every P) (Eval.newInstance c) :=
  fun _ hm => ⟨Store.Holds.construct hm c, h⟩

theorem field? (i : Instance) (x : String) : Preserves P (fun found => ∀ v ∈ found, v.Every P) (Eval.field? i x) :=
  of_leaves fun _ => .field? i x

theorem setField {i : Instance} {x : String} {v : Value} (hv : v.Every P) :
    Preserves P (fun _ => True) (Eval.setField i x v) := of_leaves fun _ => .setField hv

theorem closureHere {name : Name} {routine : Routine} {ctx : Context} (h : routine.Every P (ctx.enter .function)) :
    Preserves P (Closure.Every P) (Eval.closureHere name routine) :=
  read fun _ _ => ⟨ctx, h⟩

theorem bindThis {c : Closure} {i : Instance} (hc : c.Every P) (hi : i.cls.Every P) :
    Preserves P (Closure.Every P) (Eval.bindThis c i) :=
  bind (newFrame_insert (v := .object i) c.env hi) fun _ _ => pure hc

theorem methodTable (env : Env) (initializers : Bool) : ∀ (ms : List Method) {table : Dict FunctionObject},
    (∀ x f, table.get? x = some f → f.closure.Every P) →
    (∀ mm ∈ ms, Closure.Every P ⟨mm.name, mm.routine, mm.isGetter, initializers && mm.name.text = "init", env⟩) →
    Preserves P (fun t => ∀ x f, t.get? x = some f → f.closure.Every P) (Eval.methodTable env initializers ms table)
  | [], _, ht, _ => pure ht
  | mm :: ms, table, ht, hms => by
    refine bind (newFunction (hms mm (.head _))) fun f hf => ?_
    refine methodTable env initializers ms (fun x g hx => ?_) fun mm' hmm' => hms mm' (.tail _ hmm')
    rw [Dict.get?_insert] at hx
    split at hx
    · cases hx; exact hf
    · exact ht x g hx

theorem memberEnv {superclass : Option Class} (h : ∀ c ∈ superclass, c.Every P) :
    Preserves P (fun _ => True) (Eval.memberEnv superclass) := by
  refine bind (Q := fun _ => True) (read fun _ _ => trivial) fun here _ => ?_
  cases superclass with
  | none => exact pure trivial
  | some parent => exact newFrame_insert (v := .klass parent) here (h parent rfl)

/-- Instance methods named `init` become initializers, and were checked as such. -/
theorem closure_of_methods : ∀ {ms : List Method} {ctx : Context}, EveryMethods P ms ctx → ∀ mm ∈ ms, ∀ env,
    Closure.Every P ⟨mm.name, mm.routine, mm.isGetter, true && mm.name.text = "init", env⟩
  | ⟨_, _, _⟩ :: _, ctx, h, _, .head _, _ => ⟨ctx, by simpa [Closure.kind, Method.Every, Method.bodyKind] using h.1⟩
  | _ :: _, _, h, _, .tail _ hm, env => closure_of_methods h.2 _ hm env

theorem closure_of_statics : ∀ {ms : List Method} {ctx : Context}, EveryStatics P ms ctx → ∀ mm ∈ ms, ∀ env,
    Closure.Every P ⟨mm.name, mm.routine, mm.isGetter, false && mm.name.text = "init", env⟩
  | ⟨_, _, _⟩ :: _, ctx, h, _, .head _, _ => ⟨ctx, h.1⟩
  | _ :: _, _, h, _, .tail _ hm, env => closure_of_statics h.2 _ hm env

theorem newClass {name : Name} {superclass : Option Class} (h : ∀ c ∈ superclass, c.Every P) {methods statics : List Method}
    {ctx ctx' : Context} (hm : EveryMethods P methods ctx) (hs : EveryStatics P statics ctx') :
    Preserves P (Class.Every P) (Eval.newClass name superclass methods statics) := by
  have noEntry : ∀ x f, (Dict.empty : Dict FunctionObject).get? x = some f → f.closure.Every P := fun _ _ hf => by cases hf
  refine bind (memberEnv h) fun env _ => ?_
  refine bind (methodTable env true methods noEntry fun mm hmm => closure_of_methods hm mm hmm env) fun mt hmt => ?_
  refine bind (methodTable env false statics noEntry fun mm hmm => closure_of_statics hs mm hmm env) fun st hst => ?_
  refine bind freshSerial fun serial _ => pure fun layer hl => ?_
  cases hl with
  | head => exact ⟨hmt, hst⟩
  | tail _ hl =>
    cases superclass with
    | none => cases hl
    | some parent => exact h parent rfl layer hl

theorem superClass (id : NodeId) (line : Nat) : Preserves P (Class.Every P) (Eval.superClass id line) :=
  of_leaves fun _ => .superClass id line

theorem superReceiver (id : NodeId) (line : Nat) : Preserves P (fun i => i.cls.Every P) (Eval.superReceiver id line) :=
  of_leaves fun _ => .superReceiver id line

theorem receiverOf (c : Closure) : Preserves P (Value.Every P) (Eval.receiverOf c) := of_leaves fun _ => .receiverOf c

/-! ## Input and output -/

theorem writeLine (text : String) (fault : OutputFault → Error) :
    Preserves P (fun _ => True) (Eval.writeLine text fault) := of_leaves fun _ => .writeLine text fault

theorem callNative (fn : Native) (arguments : List Value) (line : Nat) :
    Preserves P (Value.Every P) (Eval.callNative fn arguments line) :=
  of_leaves fun _ => .callNative trivial (fun _ => trivial) (fun _ => trivial) fn arguments line

end Eval.Preserves

end Lox
