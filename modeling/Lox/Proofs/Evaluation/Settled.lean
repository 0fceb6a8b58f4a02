import Mathlib.Order.Filter.AtTopBot.Basic
import Lox.Proofs.Evaluation.Budget
import Lox.Proofs.Evaluation.Resolved

/-!
# Work that settles

Work settles if it ends, and ends in the same way, with any fuel that is large enough. An activity settles if all that it turns
to does. Without loops each turn leaves less to do, so all work settles.
-/

namespace Lox

open Filter

/-- What may stop a program that runs. -/
def Error.OfRun : Error → Prop
  | .runtime _ _ => True
  | .output _ => True
  | _ => False

namespace Outcome

/-- The run has ended, with a result or in an error of a run. -/
def Ended {α : Type} : Outcome Machine Error α → Prop
  | .done _ _ => True
  | .failed e _ => e.OfRun
  | .exhausted => False

end Outcome

namespace Eval

section
variable {α β : Type} {m : Machine}

/-! ## Work that needs no fuel -/

/-- The run ends on every machine. -/
def Ends (body : Eval α) : Prop := ∀ m, (body m).Ended

namespace Ends

theorem pure (a : α) : Ends (Pure.pure a : Eval α) := fun _ => trivial

theorem fail {line : Nat} {fault : RuntimeFault} : Ends (Eval.fail line fault : Eval α) := fun _ => trivial

theorem read (f : Machine → α) : Ends (Run.read f : Eval α) := fun _ => trivial

theorem bind {body : Eval α} {next : α → Eval β} (h : Ends body) (hn : ∀ a, Ends (next a)) : Ends (body >>= next) := by
  intro m
  have hb := h m
  rw [Run.bind_apply]
  cases ho : body m with
  | done a m' => exact hn a m'
  | failed e m' => rw [ho] at hb; exact hb
  | exhausted => rw [ho] at hb; exact hb

theorem ofExcept (line : Nat) (x : Except RuntimeFault α) : Ends (Eval.ofExcept line x) := by
  cases x with
  | ok a => exact pure a
  | error fault => exact fail

theorem lookUp (id : NodeId) (name : Name) : Ends (Eval.lookUp id name) := by
  intro m
  unfold Eval.lookUp
  dsimp only
  split <;> trivial

theorem setSlot {name : Name} {v : Value} {fault : RuntimeFault} (slot : Machine → Option FrameId) :
    Ends (Run.read slot >>= fun found => match found with
      | some frame => Eval.setVar frame name.text v
      | none => Eval.fail name.line fault : Eval Unit) :=
  bind (read slot) fun found => by cases found <;> exact fun _ => trivial

theorem assign (id : NodeId) (name : Name) (v : Value) : Ends (Eval.assign id name v) := setSlot _

theorem define (name : Name) (v : Value) : Ends (Eval.define name v) := setSlot _

theorem overwrite (name : Name) (v : Value) : Ends (Eval.overwrite name v) := setSlot _

theorem newFrame (frame : Frame) (env : Env) : Ends (Eval.newFrame frame env) := fun _ => trivial

theorem freshSerial : Ends Eval.freshSerial := fun _ => trivial

theorem newFunction (c : Closure) : Ends (Eval.newFunction c) := bind freshSerial fun _ => pure _

theorem closureHere (name : Name) (routine : Routine) : Ends (Eval.closureHere name routine) := read _

theorem newInstance (c : Class) : Ends (Eval.newInstance c) := fun _ => trivial

theorem setField (i : Instance) (x : String) (v : Value) : Ends (Eval.setField i x v) := fun _ => trivial

theorem bindThis (c : Closure) (i : Instance) : Ends (Eval.bindThis c i) := bind (newFrame _ _) fun _ => pure _

theorem methodTable (env : Env) (initializers : Bool) : ∀ (ms : List Method) (table : Dict FunctionObject),
    Ends (Eval.methodTable env initializers ms table)
  | [], table => pure table
  | _ :: ms, _ => bind (newFunction _) fun _ => methodTable env initializers ms _

theorem memberEnv (parent : Option Class) : Ends (Eval.memberEnv parent) := by
  refine bind (read _) fun here => ?_
  cases parent with
  | none => exact pure here
  | some c => exact newFrame _ here

theorem newClass (name : Name) (parent : Option Class) (ms ss : List Method) : Ends (Eval.newClass name parent ms ss) :=
  bind (memberEnv parent) fun _ => bind (methodTable _ _ _ _) fun _ => bind (methodTable _ _ _ _) fun _ =>
    bind freshSerial fun _ => pure _

theorem superClass (id : NodeId) (line : Nat) : Ends (Eval.superClass id line) := by
  intro m
  unfold Eval.superClass
  split <;> trivial

theorem superReceiver (id : NodeId) (line : Nat) : Ends (Eval.superReceiver id line) := by
  intro m
  unfold Eval.superReceiver
  dsimp only
  split <;> trivial

theorem receiverOf (c : Closure) : Ends (Eval.receiverOf c) := by
  intro m
  unfold Eval.receiverOf
  split <;> trivial

theorem writeLine (text : String) {fault : OutputFault → Error} (hf : ∀ f, (fault f).OfRun) :
    Ends (Eval.writeLine text fault) := by
  intro m
  unfold Eval.writeLine
  split
  · trivial
  · exact hf _

theorem readLine (line : Nat) : Ends (Eval.readLine line) := by
  intro m
  unfold Eval.readLine
  dsimp only
  split <;> trivial

theorem callNative (fn : Native) (arguments : List Value) (line : Nat) : Ends (Eval.callNative fn arguments line) := by
  unfold Eval.callNative
  split
  · exact fun _ => trivial
  · exact readLine line
  · exact bind (writeLine _ fun _ => trivial) fun _ => pure _
  · exact pure _
  · exact pure _

end Ends

/-! ## Work with fuel -/

/-- Enough fuel makes the run end, and more fuel does not change how. -/
def Settles (body : Nat → Eval α) (m : Machine) : Prop :=
  ∃ o : Outcome Machine Error α, o.Ended ∧ ∀ᶠ n in atTop, body n m = o

namespace Settles

variable {body : Nat → Eval α}

theorem ends {body : Eval α} (h : Ends body) : Settles (fun _ => body) m := ⟨_, h m, .of_forall fun _ => rfl⟩

theorem pure (a : α) : Settles (fun _ => (Pure.pure a : Eval α)) m := ends (.pure a)

theorem fail {line : Nat} {fault : RuntimeFault} : Settles (fun _ => (Eval.fail line fault : Eval α)) m := ends .fail

/-- What comes next has to settle where the first part has settled. -/
theorem bind {next : Nat → α → Eval β} (h : Settles body m)
    (hn : ∀ a m', (∀ᶠ n in atTop, body n m = .done a m') → Settles (fun n => next n a) m') :
    Settles (fun n => body n >>= next n) m := by
  obtain ⟨o, ho, hbody⟩ := h
  cases o with
  | done a m' =>
    obtain ⟨o', ho', hnext⟩ := hn a m' hbody
    exact ⟨o', ho', hbody.mp (hnext.mono fun n hnext hbody => (Run.bind_of_done hbody).trans hnext)⟩
  | failed e m' => exact ⟨.failed e m', ho, hbody.mono fun n hbody => by simp only [Run.bind_apply, hbody]⟩
  | exhausted => exact ho.elim

/-- The first part needs no fuel. -/
theorem first {body : Eval α} {next : Nat → α → Eval β} (h : Ends body)
    (hn : ∀ a m', body m = .done a m' → Settles (fun n => next n a) m') : Settles (fun n => body >>= next n) m :=
  (ends h).bind fun a m' hb => hn a m' hb.exists.choose_spec

/-- The last part needs no fuel. -/
theorem last {next : α → Eval β} (h : Settles body m) (hn : ∀ a, Ends (next a)) : Settles (fun n => body n >>= next) m :=
  h.bind fun a _ _ => ends (hn a)

theorem ite {c : Prop} [Decidable c] {yes no : Nat → Eval α} (hy : c → Settles yes m) (hn : ¬ c → Settles no m) :
    Settles (fun n => if c then yes n else no n) m := by
  split
  · exact hy ‹_›
  · exact hn ‹_›

theorem ofOption {found : Option β} {no : Nat → Eval α} {yes : Nat → β → Eval α} (hn : found = none → Settles no m)
    (hy : ∀ b, found = some b → Settles (fun n => yes n b) m) : Settles (fun n => found.elim (no n) (yes n)) m := by
  cases found with
  | none => exact hn rfl
  | some b => exact hy b rfl

theorem within {env : Env} (h : Settles body { m with env }) : Settles (fun n => Eval.within env (body n)) m := by
  obtain ⟨o, ho, hbody⟩ := h
  cases o with
  | done a m' => exact ⟨.done a { m' with env := m.env }, trivial, hbody.mono fun n hb => by simp only [Eval.within, hb]⟩
  | failed e m' => exact ⟨.failed e { m' with env := m.env }, ho, hbody.mono fun n hb => by simp only [Eval.within, hb]⟩
  | exhausted => exact ho.elim

/-- One call too many is an error, with any fuel. -/
theorem asCall {line : Nat} (h : ¬ maxDepth ≤ m.depth → Settles body { m with depth := m.depth + 1 }) :
    Settles (fun n => Eval.asCall line (body n)) m := by
  by_cases hd : maxDepth ≤ m.depth
  · exact ⟨.failed (.runtime line .stackOverflow) m, trivial, .of_forall fun n => if_pos hd⟩
  obtain ⟨o, ho, hbody⟩ := h hd
  cases o with
  | done a m' =>
    exact ⟨.done a { m' with depth := m.depth }, trivial, hbody.mono fun n hb => by simp only [Eval.asCall, if_neg hd, hb]⟩
  | failed e m' =>
    exact ⟨.failed e { m' with depth := m.depth }, ho, hbody.mono fun n hb => by simp only [Eval.asCall, if_neg hd, hb]⟩
  | exhausted => exact ho.elim

theorem of_succ (h : Settles (fun n => body (n + 1)) m) : Settles body m := by
  obtain ⟨o, ho, hbody⟩ := h
  exact ⟨o, ho, map_add_atTop_eq_nat 1 ▸ eventually_map.mpr hbody⟩

end Settles

end

end Eval

/-! ## One turn -/

namespace Activity

open Eval

/-- The activity settles on the machine. -/
def Settles (a : Activity) (m : Machine) : Prop := Eval.Settles (fun n => a.run n) m

/-- All that the activity turns to settles. -/
def TurnsSettle (a : Activity) (m : Machine) : Prop :=
  ∀ n a' m', Moment.Calls ⟨n + 1, a, m⟩ ⟨n, a', m'⟩ → a'.Settles m'

namespace TurnsSettle

variable {m : Machine}

theorem expr {e : Expr} (h : (Activity.expr e).TurnsSettle m) :
    Eval.Settles (fun n => Access.evaluate .resolved (fun a => a.run n) e) m := by
  cases e with
  | literal v => exact .pure _
  | unary op line e => exact (h 0 (.expr e) m .unary).last fun v => .ofExcept line _
  | binary op line l r =>
    refine (h 0 (.expr l) m .binaryLeft).bind fun v m' hv => ?_
    obtain ⟨n, hv⟩ := hv.exists
    exact (h n (.expr r) m' (.binaryRight hv)).last fun w => .ofExcept line _
  | logical op line l r =>
    refine (h 0 (.expr l) m .logicalLeft).bind fun v m' hv => .ite (fun _ => .pure v) fun hs => ?_
    obtain ⟨n, hv⟩ := hv.exists
    exact h n (.expr r) m' (.logicalRight hv (Bool.not_eq_true _ ▸ hs))
  | group e => exact h 0 (.expr e) m .group
  | var id name => exact .ends (.lookUp id name)
  | assign id name e => exact (h 0 (.expr e) m .assigned).last fun v => .bind (.assign id name v) fun _ => .pure v
  | call f line args =>
    refine (h 0 (.expr f) m .callee).bind fun v m' hv => ?_
    obtain ⟨n, hvn⟩ := hv.exists
    refine (h n (.exprs args) m' (.arguments hvn)).bind fun vs m'' hvs => ?_
    obtain ⟨n, hv, hvs⟩ := (hv.and hvs).exists
    exact h n (.call v vs line) m'' (.call hv hvs)
  | lambda line r => exact .first (.closureHere _ r) fun c _ _ => .first (.newFunction c) fun f _ _ => .pure _
  | get e name =>
    refine (h 0 (.expr e) m .getObject).bind fun v m' hv => ?_
    obtain ⟨n, hv⟩ := hv.exists
    exact h n (.property v name) m' (.get hv)
  | set e name value =>
    refine (h 0 (.expr e) m .setObject).bind fun v m' hv => ?_
    obtain ⟨n, hv⟩ := hv.exists
    exact h n (.setProperty v name value) m' (.set hv)
  | this id line => exact .ends (.lookUp id _)
  | super id line method => exact h 0 (.superProperty id line method) m .super

theorem exprs {es : List Expr} (h : (Activity.exprs es).TurnsSettle m) :
    Eval.Settles (fun n => Access.evaluateAll (fun a => a.run n) es) m := by
  cases es with
  | nil => exact .pure _
  | cons e es =>
    refine (h 0 (.expr e) m .head).bind fun v m' hv => ?_
    obtain ⟨n, hv⟩ := hv.exists
    exact (h n (.exprs es) m' (.tail hv)).last fun vs => .pure _

theorem setProperty {object : Value} {name : Name} {e : Expr} (h : (Activity.setProperty object name e).TurnsSettle m) :
    Eval.Settles (fun n => Access.setProperty (fun a => a.run n) object name e) m := by
  cases object with
  | object i => exact (h 0 (.expr e) m .fieldValue).last fun v => .bind (.setField i name.text v) fun _ => .pure v
  | _ => exact .fail

/-! ### Properties and calls -/

theorem property {object : Value} {name : Name} (h : (Activity.property object name).TurnsSettle m) :
    Eval.Settles (fun n => Access.property (fun a => a.run n) object name) m := by
  cases object with
  | object i =>
    refine .first (.read _) fun found m' hfound => ?_
    cases hfound
    refine .ofOption (fun hfield => .ofOption (fun _ => .fail) fun f hf => ?_) fun v _ => .pure v
    exact h 0 (.methodOf f.closure i name.line) m (.method hfield hf)
  | klass c =>
    refine .ofOption (fun _ => .fail) fun f hf => .ite (fun hgetter => ?_) fun _ => .pure _
    exact h 0 (.enter f.closure [] name.line) m (.staticGetter hf hgetter)
  | _ => exact .fail

theorem superProperty {id : NodeId} {line : Nat} {method : Name} (h : (Activity.superProperty id line method).TurnsSettle m) :
    Eval.Settles (fun n => Access.superProperty (fun a => a.run n) id line method) m := by
  refine .first (.superClass id line) fun c m' hc => .first (.superReceiver id line) fun i m'' hi => ?_
  cases superClass_same hc
  cases superReceiver_same hi
  exact .ofOption (fun _ => .fail) fun f hf => h 0 (.methodOf f.closure i method.line) m (.superMethod hc hi hf)

theorem methodOf {c : Closure} {i : Instance} {line : Nat} (h : (Activity.methodOf c i line).TurnsSettle m) :
    Eval.Settles (fun n => Access.methodOf (fun a => a.run n) c i line) m := by
  refine .first (.bindThis c i) fun bound m' hbound => .ite (fun hgetter => ?_) fun _ => ?_
  · exact h 0 (.enter bound [] line) m' (.getter hbound hgetter)
  · exact .ends (.bind .freshSerial fun _ => .pure _)

theorem call {f : Value} {args : List Value} {line : Nat} (h : (Activity.call f args line).TurnsSettle m) :
    Eval.Settles (fun n => Access.call (fun a => a.run n) f args line) m :=
  .ofOption (fun _ => .fail) fun callee hf =>
    .ite (fun harity => h 0 (.apply callee args line) m (.apply hf harity)) fun _ => .fail

theorem apply {f : Callee} {args : List Value} {line : Nat} (h : (Activity.apply f args line).TurnsSettle m) :
    Eval.Settles (fun n => Access.apply (fun a => a.run n) f args line) m := by
  cases f with
  | native fn => exact .ends (.callNative fn args line)
  | closure c => exact h 0 (.enter c args line) m .closure
  | construct c =>
    refine .first (.newInstance c) fun i m' hi => .ofOption (fun _ => .pure _) fun f hf => ?_
    refine .first (.bindThis f.closure i) fun bound m'' hbound => ?_
    exact (h 0 (.enter bound args line) m'' (.initializer hi hf hbound)).last fun _ => .pure _

theorem runBody {c : Closure} {args : List Value} (h : (Activity.runBody c args).TurnsSettle m) :
    Eval.Settles (fun n => Access.runBody (fun a => a.run n) c args) m := by
  refine .first (.newFrame _ _) fun env m' hframe => ?_
  refine (Settles.within (h 0 (.stmts c.routine.body) { m' with env } (.body hframe))).last fun flow => ?_
  split
  · exact .receiverOf c
  · exact .pure _

/-! ### Statements -/

theorem stmt {st : Stmt} (h : (Activity.stmt st).TurnsSettle m) :
    Eval.Settles (fun n => Access.execute (fun a => a.run n) st) m := by
  cases st with
  | expr e => exact (h 0 (.expr e) m .statement).last fun _ => .pure _
  | print e =>
    exact (h 0 (.expr e) m .print).last fun v => .bind (.writeLine _ fun _ => trivial) fun _ => .pure _
  | varDecl name init =>
    cases init with
    | none => exact .ends (.bind (.define name .nil) fun _ => .pure _)
    | some e => exact (h 0 (.expr e) m .varDecl).last fun v => .bind (.define name v) fun _ => .pure _
  | block body =>
    refine .first (.read _) fun here m' hhere => ?_
    cases hhere
    refine .first (.newFrame _ _) fun env m' hframe => ?_
    exact .within (h 0 (.stmts body) { m' with env } (.block hframe))
  | branch c st st' =>
    cases st' with
    | none =>
      refine (h 0 (.expr c) m .condition).bind fun v m' hv => .ite (fun ht => ?_) fun _ => .pure _
      obtain ⟨n, hv⟩ := hv.exists
      exact h n (.stmt st) m' (.thenBranch hv ht)
    | some st' =>
      refine (h 0 (.expr c) m .condition).bind fun v m' hv => ?_
      obtain ⟨n, hv⟩ := hv.exists
      refine .ite (fun ht => ?_) fun ht => ?_
      · exact h n (.stmt st) m' (.thenBranch hv ht)
      · exact h n (.stmt st') m' (.elseBranch hv (Bool.not_eq_true _ ▸ ht))
  | loop c body => exact h 0 (.loop c body) m .loop
  | funDecl name r =>
    exact .first (.closureHere name r) fun c _ _ => .first (.newFunction c) fun f _ _ =>
      .first (.define name _) fun _ _ _ => .pure _
  | returns form line e =>
    cases e with
    | none => exact .pure _
    | some e => exact (h 0 (.expr e) m .returns).last fun v => .pure _
  | breaks line => exact .pure _
  | classDecl name ref ms ss =>
    refine (h 0 (.superclass name ref) m .superclass).last fun parent => ?_
    exact .bind (.define name .nil) fun _ => .bind (.newClass name parent ms ss) fun c =>
      .bind (.overwrite name _) fun _ => .pure _

theorem superclass (ref : Option Reference) :
    Eval.Settles (fun _ => Access.evaluateSuperclass .resolved ref) m := by
  cases ref with
  | none => exact .pure _
  | some ref =>
    refine .ends (.bind (.lookUp ref.id ref.name) fun v => ?_)
    cases v with
    | klass c => exact .pure _
    | _ => exact .fail

theorem stmts {sts : List Stmt} (h : (Activity.stmts sts).TurnsSettle m) :
    Eval.Settles (fun n => Access.executeAll (fun a => a.run n) sts) m := by
  cases sts with
  | nil => exact .pure _
  | cons st sts =>
    refine (h 0 (.stmt st) m .first).bind fun flow m' hflow => ?_
    cases flow with
    | completed =>
      obtain ⟨n, hflow⟩ := hflow.exists
      exact h n (.stmts sts) m' (.rest hflow)
    | returned v => exact .pure _
    | broke => exact .pure _

theorem loop {c : Expr} {body : Stmt} (h : (Activity.loop c body).TurnsSettle m) :
    Eval.Settles (fun n => Access.repeatWhile (fun a => a.run n) c body) m := by
  refine (h 0 (.expr c) m .loopCondition).bind fun v m' hv => .ite (fun ht => ?_) fun _ => .pure _
  obtain ⟨n, hvn⟩ := hv.exists
  refine (h n (.stmt body) m' (.loopBody hvn ht)).bind fun flow m'' hflow => ?_
  cases flow with
  | completed =>
    obtain ⟨n, hv, hflow⟩ := (hv.and hflow).exists
    exact h n (.loop c body) m'' (.again hv ht hflow)
  | returned v => exact .pure _
  | broke => exact .pure _

end TurnsSettle

/-- What turns only to work that settles does so itself. -/
theorem TurnsSettle.settles {a : Activity} {m : Machine} (h : a.TurnsSettle m) : a.Settles m := by
  refine .of_succ ?_
  simp only [run_succ]
  cases a with
  | expr e => exact h.expr
  | exprs es => exact h.exprs
  | setProperty object name value => exact h.setProperty
  | property object name => exact h.property
  | superProperty id line method => exact h.superProperty
  | methodOf c i line => exact h.methodOf
  | call f args line => exact h.call
  | apply f args line => exact h.apply
  | enter c args line => exact .asCall fun hd => h 0 (.runBody c args) { m with depth := m.depth + 1 } (.enter hd)
  | runBody c args => exact h.runBody
  | stmt st => exact h.stmt
  | superclass cls ref => exact TurnsSettle.superclass ref
  | stmts sts => exact h.stmts
  | loop c body => exact h.loop

end Activity

/-! ## Whole evaluations -/

/-- Work without loops settles: each turn leaves less to do. -/
theorem Moment.LoopFree.settles {x : Moment} (h : x.LoopFree) : x.activity.Settles x.machine := by
  induction x using Moment.less_wf.induction with
  | _ x ih =>
    refine Activity.TurnsSettle.settles fun n a' m' hc => ?_
    -- The fuel is no part of what there is to do.
    have h : Moment.LoopFree ⟨n + 1, x.activity, x.machine⟩ := ⟨h.every, h.notLoop⟩
    exact ih ⟨n, a', m'⟩ (h.less hc) (h.calls hc)

end Lox
