import Lox.Proofs.Evaluation.Access
import Lox.Proofs.Evaluation.Shown

/-!
# Access as by the binding table

Where variables are accessed as the binding table says, at each node that the evaluation comes to, all of the evaluation is
the same.
-/

namespace Lox

open Eval

/-- On that machine the node's variable is accessed as the binding table says. -/
structure Access.Follows (access : Access) (id : NodeId) (name : Name) (m : Machine) : Prop where
  read : access.read id name m = lookUp id name m
  write : ∀ v, access.write id name v m = assign id name v m

theorem Access.resolved_follows (id : NodeId) (name : Name) (m : Machine) : Access.resolved.Follows id name m :=
  ⟨rfl, fun _ => rfl⟩

/-- It is so at all nodes that the moment's evaluation comes to. -/
def Access.Suits (access : Access) (x : Moment) : Prop :=
  ∀ y id name m, x.Reaches y → y.Accesses id name m → access.Follows id name m

namespace Access.Suits

variable {access : Access} {x y : Moment}

theorem calls (h : access.Suits x) (hc : x.Calls y) : access.Suits y :=
  fun z id name m hr ha => h z id name m (.step hc hr) ha

theorem accesses (h : access.Suits x) {id : NodeId} {name : Name} {m : Machine} (ha : x.Accesses id name m) :
    access.Follows id name m :=
  h x id name m .refl ha

end Access.Suits

/-! ## Equal outcomes -/

theorem Run.bind_congr {σ ε α β : Type} {body body' : Run σ ε α} {next next' : α → Run σ ε β} {s : σ} (h : body s = body' s)
    (hn : ∀ a s', body' s = .done a s' → next a s' = next' a s') : (body >>= next) s = (body' >>= next') s := by
  rw [Run.bind_apply, Run.bind_apply, h]
  cases hb : body' s with
  | done a s' => exact hn a s' hb
  | failed e s' => rfl
  | exhausted => rfl

namespace Eval

variable {α : Type} {m : Machine}

theorem ite_congr {c : Prop} [Decidable c] {x y x' y' : Eval α} (hx : c → x m = x' m) (hy : ¬ c → y m = y' m) :
    (if c then x else y) m = (if c then x' else y') m := by
  split
  · rename_i hc; exact hx hc
  · rename_i hc; exact hy hc

theorem within_congr {env : Env} {body body' : Eval α} (h : body { m with env } = body' { m with env }) :
    within env body m = within env body' m := by
  unfold within
  rw [h]

theorem asCall_congr {line : Nat} {body body' : Eval α}
    (h : ¬ maxDepth ≤ m.depth → body { m with depth := m.depth + 1 } = body' { m with depth := m.depth + 1 }) :
    asCall line body m = asCall line body' m := by
  unfold asCall
  split
  · rfl
  · rename_i hd
    simp only [h hd]

end Eval

/-! ## Steps -/

/-- With this fuel, the evaluation is the same at all moments that the access suits. -/
def Access.SameWith (access : Access) (n : Nat) : Prop :=
  ∀ a m, access.Suits ⟨n, a, m⟩ → a.runBy access n m = a.run n m

namespace Access.SameWith

variable {access : Access} {n : Nat} (ih : access.SameWith n)
include ih

theorem expr_succ (e : Expr) (m : Machine) (hs : access.Suits ⟨n + 1, .expr e, m⟩) :
    access.evaluate (fun a => a.runBy access n) e m = Eval.evaluate (n + 1) e m := by
  cases e with
  | literal => rfl
  | unary op line e =>
    rw [Eval.evaluate]
    exact Run.bind_congr (ih (.expr e) m (hs.calls .unary)) fun _ _ _ => rfl
  | binary op line l r =>
    rw [Eval.evaluate]
    refine Run.bind_congr (ih (.expr l) m (hs.calls .binaryLeft)) fun v m₁ hv => ?_
    exact Run.bind_congr (ih (.expr r) m₁ (hs.calls (.binaryRight hv))) fun _ _ _ => rfl
  | logical op line l r =>
    rw [Eval.evaluate]
    refine Run.bind_congr (ih (.expr l) m (hs.calls .logicalLeft)) fun v m₁ hv => ?_
    refine Eval.ite_congr (fun _ => rfl) fun hc => ?_
    exact ih (.expr r) m₁ (hs.calls (.logicalRight hv (by simpa using hc)))
  | group e =>
    rw [Eval.evaluate]
    exact ih (.expr e) m (hs.calls .group)
  | var id name =>
    rw [Eval.evaluate]
    exact (hs.accesses .var).read
  | assign id name e =>
    rw [Eval.evaluate]
    refine Run.bind_congr (ih (.expr e) m (hs.calls .assigned)) fun v m₁ hv => ?_
    exact Run.bind_congr ((hs.accesses (.assign hv)).write v) fun _ _ _ => rfl
  | call f line args =>
    rw [Eval.evaluate]
    refine Run.bind_congr (ih (.expr f) m (hs.calls .callee)) fun v m₁ hv => ?_
    refine Run.bind_congr (ih (.exprs args) m₁ (hs.calls (.arguments hv))) fun vs m₂ hvs => ?_
    exact ih (.call v vs line) m₂ (hs.calls (.call hv hvs))
  | lambda line r => rw [Eval.evaluate]; rfl
  | get e name =>
    rw [Eval.evaluate]
    refine Run.bind_congr (ih (.expr e) m (hs.calls .getObject)) fun v m₁ hv => ?_
    exact ih (.property v name) m₁ (hs.calls (.get hv))
  | set e name value =>
    rw [Eval.evaluate]
    refine Run.bind_congr (ih (.expr e) m (hs.calls .setObject)) fun v m₁ hv => ?_
    exact ih (.setProperty v name value) m₁ (hs.calls (.set hv))
  | this id line =>
    rw [Eval.evaluate]
    exact (hs.accesses .this).read
  | super id line method =>
    rw [Eval.evaluate]
    exact ih (.superProperty id line method) m (hs.calls .super)

theorem exprs_succ (es : List Expr) (m : Machine) (hs : access.Suits ⟨n + 1, .exprs es, m⟩) :
    Access.evaluateAll (fun a => a.runBy access n) es m = Eval.evaluateAll (n + 1) es m := by
  cases es with
  | nil => rfl
  | cons e es =>
    rw [Eval.evaluateAll]
    refine Run.bind_congr (ih (.expr e) m (hs.calls .head)) fun v m₁ hv => ?_
    exact Run.bind_congr (ih (.exprs es) m₁ (hs.calls (.tail hv))) fun _ _ _ => rfl

theorem setProperty_succ (object : Value) (name : Name) (e : Expr) (m : Machine)
    (hs : access.Suits ⟨n + 1, .setProperty object name e, m⟩) :
    Access.setProperty (fun a => a.runBy access n) object name e m = Eval.setProperty (n + 1) object name e m := by
  cases object with
  | object i =>
    rw [Eval.setProperty]
    exact Run.bind_congr (ih (.expr e) m (hs.calls .fieldValue)) fun _ _ _ => rfl
  | _ => rfl

theorem property_succ (object : Value) (name : Name) (m : Machine) (hs : access.Suits ⟨n + 1, .property object name, m⟩) :
    Access.property (fun a => a.runBy access n) object name m = Eval.property (n + 1) object name m := by
  cases object with
  | object i =>
    rw [Eval.property]
    refine Run.bind_congr rfl fun found m₁ hfound => ?_
    cases hfound
    dsimp only
    cases hfield : m.store.field? i name.text with
    | some v => rfl
    | none =>
      cases hf : i.cls.method? name.text with
      | none => rfl
      | some f => exact ih (.methodOf f.closure i name.line) m (hs.calls (.method hfield hf))
  | klass c =>
    rw [Eval.property, Access.property]
    cases hf : c.static? name.text with
    | none => rfl
    | some f =>
      exact Eval.ite_congr (fun hg => ih (.enter f.closure [] name.line) m (hs.calls (.staticGetter hf hg))) fun _ => rfl
  | _ => rfl

theorem superProperty_succ (id : NodeId) (line : Nat) (method : Name) (m : Machine)
    (hs : access.Suits ⟨n + 1, .superProperty id line method, m⟩) :
    Access.superProperty (fun a => a.runBy access n) id line method m = Eval.superProperty (n + 1) id line method m := by
  rw [Eval.superProperty]
  refine Run.bind_congr rfl fun c m₁ hc => ?_
  obtain rfl := View.superClass_machine hc
  refine Run.bind_congr rfl fun i m₂ hi => ?_
  obtain rfl := View.superReceiver_machine hi
  cases hf : c.method? method.text with
  | none => rfl
  | some f => exact ih (.methodOf f.closure i method.line) _ (hs.calls (.superMethod hc hi hf))

theorem methodOf_succ (c : Closure) (i : Instance) (line : Nat) (m : Machine) (hs : access.Suits ⟨n + 1, .methodOf c i line, m⟩) :
    Access.methodOf (fun a => a.runBy access n) c i line m = Eval.methodOf (n + 1) c i line m := by
  rw [Eval.methodOf]
  refine Run.bind_congr rfl fun bound m₁ hbound => ?_
  exact Eval.ite_congr (fun hg => ih (.enter bound [] line) m₁ (hs.calls (.getter hbound hg))) fun _ => rfl

theorem call_succ (v : Value) (args : List Value) (line : Nat) (m : Machine) (hs : access.Suits ⟨n + 1, .call v args line, m⟩) :
    Access.call (fun a => a.runBy access n) v args line m = Eval.call (n + 1) v args line m := by
  rw [Eval.call, Access.call]
  cases hf : v.callee? with
  | none => rfl
  | some f => exact Eval.ite_congr (fun hl => ih (.apply f args line) m (hs.calls (.apply hf hl))) fun _ => rfl

theorem apply_succ (f : Callee) (args : List Value) (line : Nat) (m : Machine) (hs : access.Suits ⟨n + 1, .apply f args line, m⟩) :
    Access.apply (fun a => a.runBy access n) f args line m = Eval.apply (n + 1) f args line m := by
  cases f with
  | native fn => rfl
  | closure c =>
    rw [Eval.apply]
    exact ih (.enter c args line) m (hs.calls .closure)
  | construct c =>
    rw [Eval.apply]
    refine Run.bind_congr rfl fun i m₁ hi => ?_
    cases hf : c.initializer? with
    | none => rfl
    | some f =>
      refine Run.bind_congr rfl fun bound m₂ hbound => ?_
      exact Run.bind_congr (ih (.enter bound args line) m₂ (hs.calls (.initializer hi hf hbound))) fun _ _ _ => rfl

theorem runBody_succ (c : Closure) (args : List Value) (m : Machine) (hs : access.Suits ⟨n + 1, .runBody c args, m⟩) :
    Access.runBody (fun a => a.runBy access n) c args m = Eval.runBody (n + 1) c args m := by
  rw [Eval.runBody]
  refine Run.bind_congr rfl fun env m₁ henv => ?_
  exact Run.bind_congr (Eval.within_congr (ih (.stmts c.routine.body) _ (hs.calls (.body henv)))) fun _ _ _ => rfl

theorem stmt_succ (st : Stmt) (m : Machine) (hs : access.Suits ⟨n + 1, .stmt st, m⟩) :
    Access.execute (fun a => a.runBy access n) st m = Eval.execute (n + 1) st m := by
  cases st with
  | expr e =>
    rw [Eval.execute]
    exact Run.bind_congr (ih (.expr e) m (hs.calls .statement)) fun _ _ _ => rfl
  | print e =>
    rw [Eval.execute]
    exact Run.bind_congr (ih (.expr e) m (hs.calls .print)) fun _ _ _ => rfl
  | varDecl name init =>
    cases init with
    | none => rfl
    | some e =>
      rw [Eval.execute]
      exact Run.bind_congr (ih (.expr e) m (hs.calls .varDecl)) fun _ _ _ => rfl
  | block body =>
    rw [Eval.execute]
    refine Run.bind_congr rfl fun env m₁ henv => ?_
    cases henv
    refine Run.bind_congr rfl fun env m₁ henv => ?_
    exact Eval.within_congr (ih (.stmts body) _ (hs.calls (.block henv)))
  | branch c st st' =>
    cases st' with
    | none =>
      rw [Eval.execute]
      refine Run.bind_congr (ih (.expr c) m (hs.calls .condition)) fun v m₁ hv => ?_
      exact Eval.ite_congr (fun ht => ih (.stmt st) m₁ (hs.calls (.thenBranch hv ht))) fun _ => rfl
    | some st' =>
      rw [Eval.execute]
      refine Run.bind_congr (ih (.expr c) m (hs.calls .condition)) fun v m₁ hv => ?_
      exact Eval.ite_congr (fun ht => ih (.stmt st) m₁ (hs.calls (.thenBranch hv ht))) fun hf =>
        ih (.stmt st') m₁ (hs.calls (.elseBranch hv (by simpa using hf)))
  | loop c body =>
    rw [Eval.execute]
    exact ih (.loop c body) m (hs.calls .loop)
  | funDecl name r => rfl
  | returns form line e =>
    cases e with
    | none => rfl
    | some e =>
      rw [Eval.execute]
      exact Run.bind_congr (ih (.expr e) m (hs.calls .returns)) fun _ _ _ => rfl
  | breaks line => rfl
  | classDecl name ref ms ss =>
    rw [Eval.execute]
    exact Run.bind_congr (ih (.superclass name ref) m (hs.calls .superclass)) fun _ _ _ => rfl

omit ih in
theorem superclass_succ (cls : Name) (ref : Option Reference) (m : Machine)
    (hs : access.Suits ⟨n + 1, .superclass cls ref, m⟩) :
    access.evaluateSuperclass ref m = Eval.evaluateSuperclass (n + 1) ref m := by
  cases ref with
  | none => rfl
  | some ref => exact Run.bind_congr (hs.accesses .superclass).read fun _ _ _ => rfl

theorem stmts_succ (sts : List Stmt) (m : Machine) (hs : access.Suits ⟨n + 1, .stmts sts, m⟩) :
    Access.executeAll (fun a => a.runBy access n) sts m = Eval.executeAll (n + 1) sts m := by
  cases sts with
  | nil => rfl
  | cons st sts =>
    rw [Eval.executeAll]
    refine Run.bind_congr (ih (.stmt st) m (hs.calls .first)) fun flow m₁ hflow => ?_
    cases flow with
    | completed => exact ih (.stmts sts) m₁ (hs.calls (.rest hflow))
    | _ => rfl

theorem loop_succ (c : Expr) (body : Stmt) (m : Machine) (hs : access.Suits ⟨n + 1, .loop c body, m⟩) :
    Access.repeatWhile (fun a => a.runBy access n) c body m = Eval.repeatWhile (n + 1) c body m := by
  rw [Eval.repeatWhile]
  refine Run.bind_congr (ih (.expr c) m (hs.calls .loopCondition)) fun v m₁ hv => ?_
  refine Eval.ite_congr (fun ht => ?_) fun _ => rfl
  refine Run.bind_congr (ih (.stmt body) m₁ (hs.calls (.loopBody hv ht))) fun flow m₂ hflow => ?_
  cases flow with
  | completed => exact ih (.loop c body) m₂ (hs.calls (.again hv ht hflow))
  | _ => rfl

end Access.SameWith

theorem Access.sameWith (access : Access) : ∀ n, access.SameWith n
  | 0 => fun a m _ => (a.run_zero m).symm
  | n + 1 => by
    have ih := access.sameWith n
    intro a m hs
    cases a with
    | expr e => exact ih.expr_succ e m hs
    | exprs es => exact ih.exprs_succ es m hs
    | setProperty object name e => exact ih.setProperty_succ object name e m hs
    | property object name => exact ih.property_succ object name m hs
    | superProperty id line method => exact ih.superProperty_succ id line method m hs
    | methodOf c i line => exact ih.methodOf_succ c i line m hs
    | call v args line => exact ih.call_succ v args line m hs
    | apply f args line => exact ih.apply_succ f args line m hs
    | enter c args line => exact Eval.asCall_congr fun hd => ih (.runBody c args) _ (hs.calls (.enter hd))
    | runBody c args => exact ih.runBody_succ c args m hs
    | stmt st => exact ih.stmt_succ st m hs
    | superclass cls ref => exact SameWith.superclass_succ cls ref m hs
    | stmts sts => exact ih.stmts_succ sts m hs
    | loop c body => exact ih.loop_succ c body m hs

/-- With access by the binding table the evaluation is the one that there is. -/
theorem Activity.runBy_resolved (n : Nat) (a : Activity) : a.runBy .resolved n = a.run n :=
  funext fun m => Access.sameWith .resolved n a m fun _ id name m _ _ => Access.resolved_follows id name m

/-- One step of the evaluation. -/
theorem Activity.run_succ (n : Nat) (a : Activity) : a.run (n + 1) = a.step .resolved fun a => a.run n := by
  rw [← runBy_resolved (n + 1) a, runBy]
  exact congrArg (a.step .resolved) (funext (runBy_resolved n))

end Lox
