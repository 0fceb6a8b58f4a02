import Lox.Proofs.Evaluation.Resolved
import Lox.Proofs.Evaluation.Territory

/-!
# Evaluations spare what they cannot reach

Work on values inside a territory gives a value inside and leaves all cells outside as they were. There is one lemma for each kind
of work, and from them, by induction on the fuel, it holds of every evaluation.
-/

namespace Lox

section
variable (K : Cell → Prop)

/-- The values at hand are inside. -/
def Activity.Inside : Activity → Prop
  | .expr _ => True
  | .exprs _ => True
  | .setProperty object _ _ => object.Inside K
  | .property object _ => object.Inside K
  | .superProperty _ _ _ => True
  | .methodOf method receiver _ => EnvInside K method.env ∧ (Value.object receiver).Inside K
  | .call callee arguments _ => callee.Inside K ∧ ∀ v ∈ arguments, v.Inside K
  | .apply (.native _) arguments _ => ∀ v ∈ arguments, v.Inside K
  | .apply (.closure c) arguments _ => EnvInside K c.env ∧ ∀ v ∈ arguments, v.Inside K
  | .apply (.construct c) arguments _ => (Value.klass c).Inside K ∧ ∀ v ∈ arguments, v.Inside K
  | .enter c arguments _ => EnvInside K c.env ∧ ∀ v ∈ arguments, v.Inside K
  | .runBody c arguments => EnvInside K c.env ∧ ∀ v ∈ arguments, v.Inside K
  | .stmt _ => True
  | .superclass _ _ => True
  | .stmts _ => True
  | .loop _ _ => True

/-- The work looks at the environment in scope. A call does not: it runs in an environment of its own. -/
def Activity.Looks : Activity → Prop
  | .property _ _ => False
  | .methodOf _ _ _ => False
  | .call _ _ _ => False
  | .apply _ _ _ => False
  | .enter _ _ _ => False
  | .runBody _ _ => False
  | _ => True

def Flow.Inside : Flow → Prop
  | .completed => True
  | .returned v => v.Inside K
  | .broke => True

/-- The results are inside. -/
def Activity.GivesInside : (a : Activity) → a.Result → Prop
  | .expr _, v => Value.Inside K v
  | .exprs _, vs => ∀ v ∈ (show List Value from vs), v.Inside K
  | .setProperty _ _ _, v => Value.Inside K v
  | .property _ _, v => Value.Inside K v
  | .superProperty _ _ _, v => Value.Inside K v
  | .methodOf _ _ _, v => Value.Inside K v
  | .call _ _ _, v => Value.Inside K v
  | .apply _ _ _, v => Value.Inside K v
  | .enter _ _ _, v => Value.Inside K v
  | .runBody _ _, v => Value.Inside K v
  | .stmt _, flow => Flow.Inside K flow
  | .superclass _ _, c => ∀ parent ∈ (show Option Class from c), (Value.klass parent).Inside K
  | .stmts _, flow => Flow.Inside K flow
  | .loop _ _, flow => Flow.Inside K flow

end

variable {K : Cell → Prop}

theorem Flow.Inside.result : ∀ {flow : Flow}, flow.Inside K → flow.result.Inside K
  | .completed, _ => Value.inside_nil
  | .returned _, h => h
  | .broke, _ => Value.inside_nil

/-- What is called is inside, if the value is. -/
theorem Value.Inside.callee {f : Callee} {args : List Value} (hargs : ∀ v ∈ args, v.Inside K) (line : Nat) :
    ∀ {v : Value}, v.Inside K → v.callee? = some f → (Activity.apply f args line).Inside K
  | .native _, _, rfl => hargs
  | .function _, h, rfl => ⟨Value.inside_function.mp h, hargs⟩
  | .klass _, h, rfl => ⟨h, hargs⟩
  | .bound _, h, rfl => ⟨(Value.inside_bound.mp h).2, hargs⟩

namespace Eval

/-- With this fuel all work stays inside. -/
def StaysInside (K : Cell → Prop) (n : Nat) : Prop :=
  ∀ a : Activity, a.Inside K → Stays K a.Looks (a.GivesInside K) (a.run n)

namespace StaysInside

variable {n : Nat} (ih : StaysInside K n)
include ih

/-! ## Expressions -/

theorem expr_succ (e : Expr) : Stays K True (Value.Inside K) (Access.evaluate .resolved (fun a => a.run n) e) := by
  cases e with
  | literal v => exact .pure (Value.inside_literal v)
  | unary op line e => exact .bind (ih (.expr e) trivial) fun _ _ => .ofExcept fun _ => Value.inside_unary
  | binary op line l r =>
    exact .bind (ih (.expr l) trivial) fun _ _ => .bind (ih (.expr r) trivial) fun _ _ => .ofExcept fun _ => Value.inside_binary
  | logical op line l r =>
    exact .bind (ih (.expr l) trivial) fun _ hv => .ite (.pure hv) (ih (.expr r) trivial)
  | group e => exact ih (.expr e) trivial
  | var id name => exact .lookUp id name
  | assign id name e => exact .bind (ih (.expr e) trivial) fun _ hv => .bind (.assign id name hv) fun _ _ => .pure hv
  | call f line args =>
    exact .bind (ih (.expr f) trivial) fun v hv => .bind (ih (.exprs args) trivial) fun vs hvs =>
      .anywhere (ih (.call v vs line) ⟨hv, hvs⟩)
  | lambda line r =>
    exact .bind (.closureHere _ r) fun _ hc => .bind (.newFunction hc) fun _ hf => .pure (Value.inside_function.mpr hf)
  | get e name => exact .bind (ih (.expr e) trivial) fun v hv => .anywhere (ih (.property v name) hv)
  | set e name value => exact .bind (ih (.expr e) trivial) fun v hv => ih (.setProperty v name value) hv
  | this id line => exact .lookUp id ⟨"this", line⟩
  | super id line method => exact ih (.superProperty id line method) trivial

theorem exprs_succ (es : List Expr) :
    Stays K True (fun vs => ∀ v ∈ vs, v.Inside K) (Access.evaluateAll (fun a => a.run n) es) := by
  cases es with
  | nil => exact .pure nofun
  | cons e es =>
    exact .bind (ih (.expr e) trivial) fun _ hv => .bind (ih (.exprs es) trivial) fun _ hvs =>
      .pure (List.forall_mem_cons.mpr ⟨hv, hvs⟩)

/-! ## Properties -/

theorem setProperty_succ {object : Value} (name : Name) (e : Expr) (h : object.Inside K) :
    Stays K True (Value.Inside K) (Access.setProperty (fun a => a.run n) object name e) := by
  cases object with
  | object i => exact .bind (ih (.expr e) trivial) fun _ hv => .bind (.setField h name.text hv) fun _ _ => .pure hv
  | _ => exact .fail

theorem property_succ {object : Value} (name : Name) (h : object.Inside K) :
    Stays K False (Value.Inside K) (Access.property (fun a => a.run n) object name) := by
  cases object with
  | object i =>
    refine .bind (.field? h name.text) fun found hfound => .ofOption (.ofOption .fail fun f hf => ?_) fun v hv =>
      .pure (hfound v hv)
    exact ih (.methodOf f.closure i name.line) ⟨Value.Inside.method (Value.inside_object.mp h).2 hf, h⟩
  | klass c =>
    exact .ofOption .fail fun f hf => .ite (ih (.enter f.closure [] name.line) ⟨Value.Inside.static h hf, nofun⟩)
      (.pure (Value.inside_function.mpr (Value.Inside.static h hf)))
  | _ => exact .fail

theorem superProperty_succ (id : NodeId) (line : Nat) (method : Name) :
    Stays K True (Value.Inside K) (Access.superProperty (fun a => a.run n) id line method) :=
  .bind (.superClass id line) fun _ hc => .bind (.superReceiver id line) fun i hi => .ofOption .fail fun f hf =>
    .anywhere (ih (.methodOf f.closure i method.line) ⟨Value.Inside.method hc hf, hi⟩)

theorem methodOf_succ {c : Closure} {i : Instance} (line : Nat) (hc : EnvInside K c.env) (hi : (Value.object i).Inside K) :
    Stays K False (Value.Inside K) (Access.methodOf (fun a => a.run n) c i line) :=
  .bind (.bindThis hc hi) fun bound hbound => .ite (ih (.enter bound [] line) ⟨hbound, nofun⟩)
    (.bind .freshSerial fun _ _ => .pure (Value.inside_bound.mpr ⟨hi, hbound⟩))

/-! ## Calls -/

theorem call_succ {f : Value} {args : List Value} (line : Nat) (hf : f.Inside K) (hargs : ∀ v ∈ args, v.Inside K) :
    Stays K False (Value.Inside K) (Access.call (fun a => a.run n) f args line) :=
  .ofOption .fail fun callee hcallee => .ite (ih (.apply callee args line) (hf.callee hargs line hcallee)) .fail

theorem apply_succ {f : Callee} {args : List Value} {line : Nat} (h : (Activity.apply f args line).Inside K) :
    Stays K False (Value.Inside K) (Access.apply (fun a => a.run n) f args line) := by
  cases f with
  | native fn => exact .callNative fn args line
  | closure c => exact ih (.enter c args line) h
  | construct c =>
    refine .bind (.newInstance h.1) fun i hi => .ofOption (.pure hi) fun f hf => ?_
    exact .bind (.bindThis (Value.Inside.method h.1 hf) hi) fun bound hbound =>
      .bind (ih (.enter bound args line) ⟨hbound, h.2⟩) fun _ _ => .pure hi

/-- The body runs in a new frame inside the environment of the closure. -/
theorem runBody_succ {c : Closure} {args : List Value} (hc : EnvInside K c.env) (hargs : ∀ v ∈ args, v.Inside K) :
    Stays K False (Value.Inside K) (Access.runBody (fun a => a.run n) c args) := by
  refine .bind (.newFrame (fun x v hv => hargs v (mem_of_argumentFrame hv)) hc) fun env henv => ?_
  exact .bind (.within henv (ih (.stmts c.routine.body) trivial)) fun _ hflow => .ite (.receiverOf hc) (.pure hflow.result)

/-! ## Statements -/

theorem stmt_succ (st : Stmt) : Stays K True (Flow.Inside K) (Access.execute (fun a => a.run n) st) := by
  cases st with
  | expr e => exact .bind (ih (.expr e) trivial) fun _ _ => .pure trivial
  | print e => exact .bind (ih (.expr e) trivial) fun v _ => .bind (.writeLine _ _) fun _ _ => .pure trivial
  | varDecl name init =>
    cases init with
    | none => exact .bind (.define name Value.inside_nil) fun _ _ => .pure trivial
    | some e => exact .bind (ih (.expr e) trivial) fun v hv => .bind (.define name hv) fun _ _ => .pure trivial
  | block body =>
    refine .bind (Q := EnvInside K) (.read fun _ _ henv => henv trivial) fun here hhere => ?_
    exact .bind (.newFrame (fun _ _ hv => by cases hv) hhere) fun env henv => .within henv (ih (.stmts body) trivial)
  | branch c st st' =>
    cases st' with
    | none =>
      exact .bind (ih (.expr c) trivial) fun _ _ => .ite (ih (.stmt st) trivial) (.pure trivial)
    | some st' =>
      exact .bind (ih (.expr c) trivial) fun _ _ => .ite (ih (.stmt st) trivial) (ih (.stmt st') trivial)
  | loop c body => exact ih (.loop c body) trivial
  | funDecl name r =>
    exact .bind (.closureHere name r) fun _ hc => .bind (.newFunction hc) fun _ hf =>
      .bind (.define name (Value.inside_function.mpr hf)) fun _ _ => .pure trivial
  | returns form line e =>
    cases e with
    | none => exact .pure (a := Flow.returned .nil) Value.inside_nil
    | some e => exact .bind (ih (.expr e) trivial) fun _ hv => .pure hv
  | breaks line => exact .pure (a := Flow.broke) trivial
  | classDecl name ref ms ss =>
    exact .bind (ih (.superclass name ref) trivial) fun _ hparent => .bind (.define name Value.inside_nil) fun _ _ =>
      .bind (.newClass name hparent ms ss) fun _ hc => .bind (.overwrite name hc) fun _ _ => .pure trivial

omit ih in
theorem superclass_succ (ref : Option Reference) :
    Stays K True (fun parent => ∀ c ∈ parent, (Value.klass c).Inside K) (Access.evaluateSuperclass .resolved ref) := by
  cases ref with
  | none => exact .pure nofun
  | some ref =>
    refine .bind (.lookUp ref.id ref.name) fun v hv => ?_
    cases v with
    | klass c => exact .pure fun _ hc => by cases hc; exact hv
    | _ => exact .fail

theorem stmts_succ (sts : List Stmt) : Stays K True (Flow.Inside K) (Access.executeAll (fun a => a.run n) sts) := by
  cases sts with
  | nil => exact .pure (a := Flow.completed) trivial
  | cons st sts =>
    refine .bind (ih (.stmt st) trivial) fun flow hflow => ?_
    cases flow with
    | completed => exact ih (.stmts sts) trivial
    | returned v => exact .pure hflow
    | broke => exact .pure hflow

theorem loop_succ (c : Expr) (body : Stmt) :
    Stays K True (Flow.Inside K) (Access.repeatWhile (fun a => a.run n) c body) := by
  refine .bind (ih (.expr c) trivial) fun _ _ => .ite (.bind (ih (.stmt body) trivial) fun flow hflow => ?_) (.pure trivial)
  cases flow with
  | completed => exact ih (.loop c body) trivial
  | returned v => exact .pure hflow
  | broke => exact .pure trivial

end StaysInside

theorem stays_inside (K : Cell → Prop) : ∀ n, StaysInside K n
  | 0, a, _ => by
    intro m _ _
    rw [Activity.run_zero]
    trivial
  | n + 1, a, h => by
    have ih := stays_inside K n
    rw [Activity.run_succ]
    cases a with
    | expr e => exact ih.expr_succ e
    | exprs es => exact ih.exprs_succ es
    | setProperty object name value => exact ih.setProperty_succ name value h
    | property object name => exact ih.property_succ name h
    | superProperty id line method => exact ih.superProperty_succ id line method
    | methodOf c i line => exact ih.methodOf_succ line h.1 h.2
    | call v args line => exact ih.call_succ line h.1 h.2
    | apply f args line => exact ih.apply_succ h
    | enter c args line => exact .asCall (ih (.runBody c args) h)
    | runBody c args => exact ih.runBody_succ h.1 h.2
    | stmt st => exact ih.stmt_succ st
    | superclass cls ref => exact StaysInside.superclass_succ ref
    | stmts sts => exact ih.stmts_succ sts
    | loop c body => exact ih.loop_succ c body

end Eval

end Lox
