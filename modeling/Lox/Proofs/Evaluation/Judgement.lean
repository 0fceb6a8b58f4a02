import Lox.Proofs.Evaluation.Ordered

/-!
# Judgements of runs

A judgement that holds of the operations of the machine, and that passes from the parts of a run to the whole, holds of one
step of the evaluation, whatever the step is, if it holds of the work that is nested in it. Only the operation that
enters a new variable is left to whoever judges: it depends on where it stands whether it can fail.
-/

namespace Lox

/-- A statement about a run from a machine on. -/
abbrev Judgement := (α : Type) → Machine → Eval α → Prop

/-- The fault is not that of a variable that is there already. -/
def RuntimeFault.IsOther (fault : RuntimeFault) : Prop := ∀ x, fault ≠ .naming (.alreadyDefined x)

namespace Mark

theorem applyUnary_other {op : Mark} {v : Value} {fault : RuntimeFault} (h : op.applyUnary v = .error fault) : fault.IsOther := by
  unfold applyUnary at h
  split at h <;> cases h <;> exact nofun

theorem onNumbers_other {op : Mark} {x y : Float} {fault : RuntimeFault} (h : op.onNumbers x y = .error fault) :
    fault.IsOther := by
  unfold onNumbers at h
  split at h
  case h_4 | h_5 => split at h <;> cases h; exact nofun
  all_goals cases h
  all_goals exact nofun

theorem applyBinary_other {op : Mark} {v w : Value} {fault : RuntimeFault} (h : op.applyBinary v w = .error fault) :
    fault.IsOther := by
  unfold applyBinary at h
  split at h
  case h_4 => exact onNumbers_other h
  all_goals cases h
  all_goals exact nofun

end Mark

/-- In the moment a declaration enters the variable with that value, on that machine. -/
inductive Moment.Defines : Moment → Name → Value → Machine → Prop where
  | declared {n m name} : Defines ⟨n + 1, .stmt (.varDecl name none), m⟩ name .nil m
  | initialized {n m name e v m'} : Eval.evaluate n e m = .done v m' →
    Defines ⟨n + 1, .stmt (.varDecl name (some e)), m⟩ name v m'
  | function {n m name r c m' f m''} : Eval.closureHere name r m = .done c m' → Eval.newFunction c m' = .done f m'' →
    Defines ⟨n + 1, .stmt (.funDecl name r), m⟩ name (.function f) m''
  | cls {n m name ref ms ss parent m'} : Eval.evaluateSuperclass n ref m = .done parent m' →
    Defines ⟨n + 1, .stmt (.classDecl name ref ms ss), m⟩ name .nil m'

namespace Judgement

section
variable {J : Judgement} {α β : Type} {m : Machine}

theorem ite {c : Prop} [Decidable c] {f g : Eval α} (hf : c → J α m f) (hg : ¬ c → J α m g) :
    J α m (if c then f else g) := by
  split
  · exact hf ‹_›
  · exact hg ‹_›

theorem ofOption {o : Option β} {f : Eval α} {g : β → Eval α} (hf : o = none → J α m f)
    (hg : ∀ b, o = some b → J α m (g b)) : J α m (o.elim f g) := by
  cases o with
  | none => exact hf rfl
  | some b => exact hg b rfl

end

end Judgement

/-- The judgement holds of the operations, and of a run if it holds of its parts. -/
structure Judgement.Closed (J : Judgement) : Prop where
  pure : ∀ {α : Type} (a : α) (m : Machine), J α m (Pure.pure a)
  fail : ∀ {α : Type} (line : Nat) {fault : RuntimeFault} (m : Machine), fault.IsOther → J α m (Eval.fail line fault)
  bind : ∀ {α β : Type} {m : Machine} {body : Eval α} {next : α → Eval β}, J α m body →
    (∀ a m', body m = .done a m' → J β m' (next a)) → J β m (body >>= next)
  within : ∀ {α : Type} {m : Machine} {env : Env} {body : Eval α}, J α { m with env } body → J α m (Eval.within env body)
  asCall : ∀ {α : Type} {m : Machine} {line : Nat} {body : Eval α},
    (¬ maxDepth ≤ m.depth → J α { m with depth := m.depth + 1 } body) → J α m (Eval.asCall line body)
  here : ∀ m : Machine, J Env m (Run.read Machine.env)
  lookUp : ∀ id name (m : Machine), J Value m (Eval.lookUp id name)
  assign : ∀ id name v (m : Machine), J Unit m (Eval.assign id name v)
  overwrite : ∀ name v (m : Machine), J Unit m (Eval.overwrite name v)
  newFrame : ∀ frame env (m : Machine), J Env m (Eval.newFrame frame env)
  freshSerial : ∀ m : Machine, J Nat m Eval.freshSerial
  newInstance : ∀ c (m : Machine), J Instance m (Eval.newInstance c)
  field? : ∀ i x (m : Machine), J (Option Value) m (Eval.field? i x)
  setField : ∀ i x v (m : Machine), J Unit m (Eval.setField i x v)
  superClass : ∀ id line (m : Machine), J Class m (Eval.superClass id line)
  superReceiver : ∀ id line (m : Machine), J Instance m (Eval.superReceiver id line)
  receiverOf : ∀ c (m : Machine), J Value m (Eval.receiverOf c)
  writeLine : ∀ text (m : Machine), J Unit m (Eval.writeLine text .output)
  callNative : ∀ fn args line (m : Machine), J Value m (Eval.callNative fn args line)

namespace Judgement.Closed

open Eval

section
variable {J : Judgement} (hJ : J.Closed)
include hJ

/-! ## Operations that are made of others -/

theorem ofExcept {α : Type} {line : Nat} {x : Except RuntimeFault α} (m : Machine) (h : ∀ fault, x = .error fault → fault.IsOther) :
    J α m (Eval.ofExcept line x) := by
  cases x with
  | ok a => exact hJ.pure a m
  | error fault => exact hJ.fail line m (h fault rfl)

theorem closureHere (name : Name) (r : Routine) (m : Machine) : J Closure m (Eval.closureHere name r) :=
  have h : J Closure m (Run.read Machine.env >>= fun env => Pure.pure ⟨name, r, false, false, env⟩) :=
    hJ.bind (hJ.here m) fun _ m' _ => hJ.pure _ m'
  h

theorem newFunction (c : Closure) (m : Machine) : J FunctionObject m (Eval.newFunction c) :=
  hJ.bind (hJ.freshSerial m) fun _ m' _ => hJ.pure _ m'

theorem bindThis (c : Closure) (i : Instance) (m : Machine) : J Closure m (Eval.bindThis c i) :=
  hJ.bind (hJ.newFrame _ _ m) fun _ m' _ => hJ.pure _ m'

theorem methodTable (env : Env) (initializers : Bool) : ∀ (ms : List Method) (table : Dict FunctionObject) (m : Machine),
    J (Dict FunctionObject) m (Eval.methodTable env initializers ms table)
  | [], table, m => hJ.pure table m
  | _ :: ms, _, m => hJ.bind (hJ.newFunction _ m) fun _ m' _ => methodTable env initializers ms _ m'

theorem memberEnv (parent : Option Class) (m : Machine) : J Env m (Eval.memberEnv parent) := by
  refine hJ.bind (hJ.here m) fun here m' _ => ?_
  cases parent with
  | none => exact hJ.pure here m'
  | some c => exact hJ.newFrame _ here m'

theorem newClass (name : Name) (parent : Option Class) (ms ss : List Method) (m : Machine) :
    J Class m (Eval.newClass name parent ms ss) :=
  hJ.bind (hJ.memberEnv parent m) fun _ m' _ => hJ.bind (hJ.methodTable _ _ _ _ m') fun _ m' _ =>
    hJ.bind (hJ.methodTable _ _ _ _ m') fun _ m' _ => hJ.bind (hJ.freshSerial m') fun _ m' _ => hJ.pure _ m'

/-! ## One lemma for each kind of work -/

variable {n : Nat} {m : Machine}

theorem expr (e : Expr) (call : ∀ b m', Moment.Calls ⟨n + 1, .expr e, m⟩ ⟨n, b, m'⟩ → J _ m' (b.run n)) :
    J Value m (Access.evaluate .resolved (fun a => a.run n) e) := by
  cases e with
  | literal v => exact hJ.pure _ m
  | unary op line e => exact hJ.bind (call _ _ .unary) fun _ m' _ => hJ.ofExcept m' fun _ => Mark.applyUnary_other
  | binary op line l r =>
    exact hJ.bind (call _ _ .binaryLeft) fun _ _ hv => hJ.bind (call _ _ (.binaryRight hv)) fun _ m' _ =>
      hJ.ofExcept m' fun _ => Mark.applyBinary_other
  | logical op line l r =>
    exact hJ.bind (call _ _ .logicalLeft) fun _ m' hv => Judgement.ite (fun _ => hJ.pure _ m')
      fun hs => call _ _ (.logicalRight hv (by simpa using hs))
  | group e => exact call _ _ .group
  | var id name => exact hJ.lookUp id name m
  | assign id name e => exact hJ.bind (call _ _ .assigned) fun _ m' _ => hJ.bind (hJ.assign id name _ m') fun _ m' _ => hJ.pure _ m'
  | call f line args =>
    exact hJ.bind (call _ _ .callee) fun _ _ hv => hJ.bind (call _ _ (.arguments hv)) fun _ _ hvs => call _ _ (.call hv hvs)
  | lambda line r =>
    exact hJ.bind (hJ.closureHere _ r m) fun _ m' _ => hJ.bind (hJ.newFunction _ m') fun _ m' _ => hJ.pure _ m'
  | get e name => exact hJ.bind (call _ _ .getObject) fun _ _ hv => call _ _ (.get hv)
  | set e name value => exact hJ.bind (call _ _ .setObject) fun _ _ hv => call _ _ (.set hv)
  | this id line => exact hJ.lookUp id _ m
  | super id line method => exact call _ _ .super

theorem exprs (es : List Expr) (call : ∀ b m', Moment.Calls ⟨n + 1, .exprs es, m⟩ ⟨n, b, m'⟩ → J _ m' (b.run n)) :
    J (List Value) m (Access.evaluateAll (fun a => a.run n) es) := by
  cases es with
  | nil => exact hJ.pure _ m
  | cons e es => exact hJ.bind (call _ _ .head) fun _ _ hv => hJ.bind (call _ _ (.tail hv)) fun _ m' _ => hJ.pure _ m'

theorem setProperty (object : Value) (name : Name) (e : Expr)
    (call : ∀ b m', Moment.Calls ⟨n + 1, .setProperty object name e, m⟩ ⟨n, b, m'⟩ → J _ m' (b.run n)) :
    J Value m (Access.setProperty (fun a => a.run n) object name e) := by
  cases object with
  | object i =>
    exact hJ.bind (call _ _ .fieldValue) fun _ m' _ => hJ.bind (hJ.setField i _ _ m') fun _ m' _ => hJ.pure _ m'
  | _ => exact hJ.fail _ m nofun

theorem property (object : Value) (name : Name)
    (call : ∀ b m', Moment.Calls ⟨n + 1, .property object name, m⟩ ⟨n, b, m'⟩ → J _ m' (b.run n)) :
    J Value m (Access.property (fun a => a.run n) object name) := by
  cases object with
  | object i =>
    refine hJ.bind (hJ.field? i _ m) fun found m' hfound => Judgement.ofOption (fun hv => Judgement.ofOption (fun _ => hJ.fail _ m' nofun)
      fun f hf => call (.methodOf f.closure i name.line) _ ?_) fun v _ => hJ.pure v m'
    cases hfound
    exact .method hv hf
  | klass c =>
    exact Judgement.ofOption (fun _ => hJ.fail _ m nofun) fun f hf => Judgement.ite (fun hg => call _ _ (.staticGetter hf hg))
      fun _ => hJ.pure _ m
  | _ => exact hJ.fail _ m nofun

theorem superProperty (id : NodeId) (line : Nat) (method : Name)
    (call : ∀ b m', Moment.Calls ⟨n + 1, .superProperty id line method, m⟩ ⟨n, b, m'⟩ → J _ m' (b.run n)) :
    J Value m (Access.superProperty (fun a => a.run n) id line method) := by
  refine hJ.bind (hJ.superClass id line m) fun c m₁ hc => hJ.bind (hJ.superReceiver id line m₁) fun i m₂ hi =>
    Judgement.ofOption (fun _ => hJ.fail _ m₂ nofun) fun f hf => call (.methodOf f.closure i method.line) _ ?_
  obtain rfl := superClass_same hc
  obtain rfl := superReceiver_same hi
  exact .superMethod hc hi hf

theorem methodOf (c : Closure) (i : Instance) (line : Nat)
    (call : ∀ b m', Moment.Calls ⟨n + 1, .methodOf c i line, m⟩ ⟨n, b, m'⟩ → J _ m' (b.run n)) :
    J Value m (Access.methodOf (fun a => a.run n) c i line) :=
  hJ.bind (hJ.bindThis c i m) fun _ m' hbound => Judgement.ite (fun hg => call _ _ (.getter hbound hg))
    fun _ => hJ.bind (hJ.freshSerial m') fun _ m' _ => hJ.pure _ m'

theorem call (v : Value) (args : List Value) (line : Nat)
    (call : ∀ b m', Moment.Calls ⟨n + 1, .call v args line, m⟩ ⟨n, b, m'⟩ → J _ m' (b.run n)) :
    J Value m (Access.call (fun a => a.run n) v args line) :=
  Judgement.ofOption (fun _ => hJ.fail _ m nofun) fun _ hf => Judgement.ite (fun hl => call _ _ (.apply hf hl)) fun _ => hJ.fail _ m nofun

theorem apply (f : Callee) (args : List Value) (line : Nat)
    (call : ∀ b m', Moment.Calls ⟨n + 1, .apply f args line, m⟩ ⟨n, b, m'⟩ → J _ m' (b.run n)) :
    J Value m (Access.apply (fun a => a.run n) f args line) := by
  cases f with
  | native fn => exact hJ.callNative fn args line m
  | closure c => exact call _ _ .closure
  | construct c =>
    exact hJ.bind (hJ.newInstance c m) fun i m' hi => Judgement.ofOption (fun _ => hJ.pure _ m') fun f hf =>
      hJ.bind (hJ.bindThis f.closure i m') fun _ _ hbound => hJ.bind (call _ _ (.initializer hi hf hbound))
        fun _ m' _ => hJ.pure _ m'

theorem runBody (c : Closure) (args : List Value)
    (call : ∀ b m', Moment.Calls ⟨n + 1, .runBody c args, m⟩ ⟨n, b, m'⟩ → J _ m' (b.run n)) :
    J Value m (Access.runBody (fun a => a.run n) c args) :=
  hJ.bind (hJ.newFrame _ _ m) fun _ _ hframe => hJ.bind (hJ.within (call _ _ (.body hframe))) fun _ m' _ =>
    Judgement.ite (fun _ => hJ.receiverOf c m') fun _ => hJ.pure _ m'

theorem stmt (st : Stmt) (call : ∀ b m', Moment.Calls ⟨n + 1, .stmt st, m⟩ ⟨n, b, m'⟩ → J _ m' (b.run n))
    (define : ∀ name v m', Moment.Defines ⟨n + 1, .stmt st, m⟩ name v m' → J Unit m' (Eval.define name v)) :
    J Flow m (Access.execute (fun a => a.run n) st) := by
  cases st with
  | expr e => exact hJ.bind (call _ _ .statement) fun _ m' _ => hJ.pure _ m'
  | print e =>
    exact hJ.bind (call _ _ .print) fun _ m' _ => hJ.bind (hJ.writeLine _ m') fun _ m' _ => hJ.pure _ m'
  | varDecl name init =>
    cases init with
    | none => exact hJ.bind (define _ _ _ .declared) fun _ m' _ => hJ.pure _ m'
    | some e =>
      exact hJ.bind (call _ _ .varDecl) fun _ _ hv => hJ.bind (define _ _ _ (.initialized hv)) fun _ m' _ => hJ.pure _ m'
  | block body =>
    exact hJ.bind (hJ.here m) fun _ m' hhere => hJ.bind (hJ.newFrame _ _ m') fun _ _ hframe =>
      hJ.within (call (.stmts body) _ (by cases hhere; exact .block hframe))
  | branch c st st' =>
    cases st' with
    | none =>
      exact hJ.bind (call _ _ .condition) fun _ m' hv => Judgement.ite (fun ht => call _ _ (.thenBranch hv ht)) fun _ => hJ.pure _ m'
    | some st' =>
      exact hJ.bind (call _ _ .condition) fun _ _ hv => Judgement.ite (fun ht => call _ _ (.thenBranch hv ht))
        fun hf => call _ _ (.elseBranch hv (by simpa using hf))
  | loop c body => exact call _ _ .loop
  | funDecl name r =>
    exact hJ.bind (hJ.closureHere name r m) fun _ m' hc => hJ.bind (hJ.newFunction _ m') fun _ _ hf =>
      hJ.bind (define _ _ _ (.function hc hf)) fun _ m' _ => hJ.pure _ m'
  | returns form line e =>
    cases e with
    | none => exact hJ.pure _ m
    | some e => exact hJ.bind (call _ _ .returns) fun _ m' _ => hJ.pure _ m'
  | breaks line => exact hJ.pure _ m
  | classDecl name ref ms ss =>
    exact hJ.bind (call _ _ .superclass) fun _ _ hp => hJ.bind (define _ _ _ (.cls hp)) fun _ m' _ =>
      hJ.bind (hJ.newClass _ _ _ _ m') fun _ m' _ => hJ.bind (hJ.overwrite _ _ m') fun _ m' _ => hJ.pure _ m'

theorem superclass (ref : Option Reference) (m : Machine) : J (Option Class) m (Access.evaluateSuperclass .resolved ref) := by
  cases ref with
  | none => exact hJ.pure _ m
  | some ref =>
    refine hJ.bind (hJ.lookUp ref.id ref.name m) fun v m' _ => ?_
    cases v with
    | klass c => exact hJ.pure _ m'
    | _ => exact hJ.fail _ m' nofun

theorem stmts (sts : List Stmt) (call : ∀ b m', Moment.Calls ⟨n + 1, .stmts sts, m⟩ ⟨n, b, m'⟩ → J _ m' (b.run n)) :
    J Flow m (Access.executeAll (fun a => a.run n) sts) := by
  cases sts with
  | nil => exact hJ.pure _ m
  | cons st sts =>
    refine hJ.bind (call _ _ .first) fun flow m' hflow => ?_
    cases flow with
    | completed => exact call _ _ (.rest hflow)
    | _ => exact hJ.pure _ m'

theorem loop (c : Expr) (body : Stmt) (call : ∀ b m', Moment.Calls ⟨n + 1, .loop c body, m⟩ ⟨n, b, m'⟩ → J _ m' (b.run n)) :
    J Flow m (Access.repeatWhile (fun a => a.run n) c body) := by
  refine hJ.bind (call _ _ .loopCondition) fun v m' hv => Judgement.ite (fun ht => hJ.bind (call _ _ (.loopBody hv ht))
    fun flow m' hflow => ?_) fun _ => hJ.pure _ m'
  cases flow with
  | completed => exact call _ _ (.again hv ht hflow)
  | _ => exact hJ.pure _ m'

end

/-- The judgement holds of one step of the evaluation if it holds of what the step calls for and of what it defines. -/
theorem step {J : Judgement} (hJ : J.Closed) {n : Nat} {a : Activity} {m : Machine}
    (call : ∀ b m', Moment.Calls ⟨n + 1, a, m⟩ ⟨n, b, m'⟩ → J _ m' (b.run n))
    (define : ∀ name v m', Moment.Defines ⟨n + 1, a, m⟩ name v m' → J Unit m' (Eval.define name v)) :
    J _ m (a.run (n + 1)) := by
  rw [Activity.run_succ]
  cases a with
  | expr e => exact hJ.expr e call
  | exprs es => exact hJ.exprs es call
  | setProperty object name e => exact hJ.setProperty object name e call
  | property object name => exact hJ.property object name call
  | superProperty id line method => exact hJ.superProperty id line method call
  | methodOf c i line => exact hJ.methodOf c i line call
  | call v args line => exact hJ.call v args line call
  | apply f args line => exact hJ.apply f args line call
  | enter c args line => exact hJ.asCall fun hd => call _ _ (.enter hd)
  | runBody c args => exact hJ.runBody c args call
  | stmt st => exact hJ.stmt st call define
  | superclass cls ref => exact hJ.superclass ref m
  | stmts sts => exact hJ.stmts sts call
  | loop c body => exact hJ.loop c body call

end Judgement.Closed

end Lox
