import Lox.Proofs.Evaluation.View

/-!
# An evaluation in a view

Each step of the evaluation, and from that the whole: where the view keeps the bindings of the nodes
that are accessed, the evaluation there does the same, with the same fuel or with more.
-/

namespace Lox

namespace View

open Eval

/-- With this fuel every moment that the view suits is shown in it. -/
structure Faithful (v : View) (n : Nat) : Prop where
  expr : ∀ e m, v.Suits ⟨n, .expr e, m⟩ →
    v.Shows (Value.recoded v.code) (evaluate n e) (evaluate (n + v.spare) (e.recoded v.code)) m
  exprs : ∀ es m, v.Suits ⟨n, .exprs es, m⟩ →
    v.Shows (List.map (Value.recoded v.code)) (evaluateAll n es) (evaluateAll (n + v.spare) (recodedExprs v.code es)) m
  setProperty : ∀ u name e m, v.Suits ⟨n, .setProperty u name e, m⟩ →
    v.Shows (Value.recoded v.code) (setProperty n u name e)
      (setProperty (n + v.spare) (u.recoded v.code) (name.relined v.code.lineOf) (e.recoded v.code)) m
  property : ∀ u name m, v.Suits ⟨n, .property u name, m⟩ →
    v.Shows (Value.recoded v.code) (property n u name)
      (property (n + v.spare) (u.recoded v.code) (name.relined v.code.lineOf)) m
  superProperty : ∀ id line method m, v.Suits ⟨n, .superProperty id line method, m⟩ →
    v.Shows (Value.recoded v.code) (superProperty n id line method)
      (superProperty (n + v.spare) (v.code.idOf id) (v.code.lineOf line) (method.relined v.code.lineOf)) m
  methodOf : ∀ c i line m, v.Suits ⟨n, .methodOf c i line, m⟩ →
    v.Shows (Value.recoded v.code) (methodOf n c i line)
      (methodOf (n + v.spare) (c.recoded v.code) (i.recoded v.code) (v.code.lineOf line)) m
  call : ∀ u us line m, v.Suits ⟨n, .call u us line, m⟩ →
    v.Shows (Value.recoded v.code) (call n u us line)
      (call (n + v.spare) (u.recoded v.code) (us.map (Value.recoded v.code)) (v.code.lineOf line)) m
  apply : ∀ f us line m, v.Suits ⟨n, .apply f us line, m⟩ →
    v.Shows (Value.recoded v.code) (apply n f us line)
      (apply (n + v.spare) (f.recoded v.code) (us.map (Value.recoded v.code)) (v.code.lineOf line)) m
  enter : ∀ c us line m, v.Suits ⟨n, .enter c us line, m⟩ →
    v.Shows (Value.recoded v.code) (enter n c us line)
      (enter (n + v.spare) (c.recoded v.code) (us.map (Value.recoded v.code)) (v.code.lineOf line)) m
  runBody : ∀ c us m, v.Suits ⟨n, .runBody c us, m⟩ →
    v.Shows (Value.recoded v.code) (runBody n c us)
      (runBody (n + v.spare) (c.recoded v.code) (us.map (Value.recoded v.code))) m
  stmt : ∀ st m, v.Suits ⟨n, .stmt st, m⟩ →
    v.Shows (Flow.recoded v.code) (execute n st) (execute (n + v.spare) (st.recoded v.code)) m
  superclass : ∀ cls ref m, v.Suits ⟨n, .superclass cls ref, m⟩ →
    v.Shows (Option.map (Class.recoded v.code)) (evaluateSuperclass n ref)
      (evaluateSuperclass (n + v.spare) (ref.map (Reference.recoded v.code))) m
  stmts : ∀ sts m, v.Suits ⟨n, .stmts sts, m⟩ →
    v.Shows (Flow.recoded v.code) (executeAll n sts) (executeAll (n + v.spare) (recodedStmts v.code sts)) m
  loop : ∀ c st m, v.Suits ⟨n, .loop c st, m⟩ →
    v.Shows (Flow.recoded v.code) (repeatWhile n c st)
      (repeatWhile (n + v.spare) (c.recoded v.code) (st.recoded v.code)) m

/-! Reading the machine leaves it as it is. -/

theorem superClass_machine {id : NodeId} {line : Nat} {m m' : Machine} {c : Class} (h : superClass id line m = .done c m') :
    m' = m := by
  unfold Eval.superClass at h
  split at h
  · cases h; rfl
  · cases h

theorem superReceiver_machine {id : NodeId} {line : Nat} {m m' : Machine} {i : Instance}
    (h : superReceiver id line m = .done i m') : m' = m := by
  unfold Eval.superReceiver at h
  dsimp only at h
  split at h
  · cases h; rfl
  · cases h

namespace Faithful

variable {v : View} {n : Nat}

theorem zero (v : View) : v.Faithful 0 := by
  constructor
  all_goals
    intros
    refine .exhausted fun hs => ?_
    rw [hs]
    rfl

variable (h : v.Faithful n)
include h

/-! ## Expressions -/

theorem expr_succ (e : Expr) (m : Machine) (hs : v.Suits ⟨n + 1, .expr e, m⟩) :
    v.Shows (Value.recoded v.code) (evaluate (n + 1) e) (evaluate (n + 1 + v.spare) (e.recoded v.code)) m := by
  rw [Nat.add_right_comm]
  cases e with
  | literal u =>
    rw [Expr.recoded, Eval.evaluate, Eval.evaluate]
    have hpure := Shows.pure (v := v) (m := m) (f := Value.recoded v.code) (.ofLiteral u)
    rw [Value.recoded_ofLiteral] at hpure
    exact hpure
  | unary op line e =>
    rw [Expr.recoded, Eval.evaluate, Eval.evaluate]
    exact .bind (h.expr e m (hs.calls .unary)) fun u _ _ => .ofExcept (op.applyUnary_recoded v.code u)
  | binary op line l r =>
    rw [Expr.recoded, Eval.evaluate, Eval.evaluate]
    refine .bind (h.expr l m (hs.calls .binaryLeft)) fun u m₁ hu => ?_
    refine .bind (h.expr r m₁ (hs.calls (.binaryRight hu))) fun w _ _ => ?_
    exact .ofExcept (op.applyBinary_recoded v.code u w)
  | logical op line l r =>
    rw [Expr.recoded, Eval.evaluate, Eval.evaluate]
    refine .bind (h.expr l m (hs.calls .logicalLeft)) fun u m₁ hu => ?_
    refine .ite (by rw [op.shortCircuits_recoded]) (fun _ => .pure u) fun hc => ?_
    exact h.expr r m₁ (hs.calls (.logicalRight hu (by simpa using hc)))
  | group e =>
    rw [Expr.recoded, Eval.evaluate, Eval.evaluate]
    exact h.expr e m (hs.calls .group)
  | var id name =>
    rw [Expr.recoded, Eval.evaluate, Eval.evaluate]
    exact .lookUp _ (hs.accesses .var)
  | assign id name e =>
    rw [Expr.recoded, Eval.evaluate, Eval.evaluate]
    refine .bind (h.expr e m (hs.calls .assigned)) fun u m₁ hu => ?_
    exact .bind (.assign u (hs.accesses (.assign hu))) fun _ _ _ => .pure u
  | call f line args =>
    rw [Expr.recoded, Eval.evaluate, Eval.evaluate]
    refine .bind (h.expr f m (hs.calls .callee)) fun u m₁ hu => ?_
    refine .bind (h.exprs args m₁ (hs.calls (.arguments hu))) fun us m₂ hus => ?_
    exact h.call u us line m₂ (hs.calls (.call hu hus))
  | lambda line r =>
    rw [Expr.recoded, Eval.evaluate, Eval.evaluate]
    refine .bind (.closureHere ⟨"lambda", line⟩ r) fun c _ _ => .bind (.newFunction c) fun o _ _ => ?_
    exact .pure (f := Value.recoded v.code) (.function o)
  | get e name =>
    rw [Expr.recoded, Eval.evaluate, Eval.evaluate]
    exact .bind (h.expr e m (hs.calls .getObject)) fun u m₁ hu => h.property u name m₁ (hs.calls (.get hu))
  | set e name value =>
    rw [Expr.recoded, Eval.evaluate, Eval.evaluate]
    exact .bind (h.expr e m (hs.calls .setObject)) fun u m₁ hu => h.setProperty u name value m₁ (hs.calls (.set hu))
  | this id line =>
    rw [Expr.recoded, Eval.evaluate, Eval.evaluate]
    exact .lookUp ⟨"this", line⟩ (hs.accesses .this)
  | super id line method =>
    rw [Expr.recoded, Eval.evaluate, Eval.evaluate]
    exact h.superProperty id line method m (hs.calls .super)

theorem exprs_succ (es : List Expr) (m : Machine) (hs : v.Suits ⟨n + 1, .exprs es, m⟩) :
    v.Shows (List.map (Value.recoded v.code)) (evaluateAll (n + 1) es)
      (evaluateAll (n + 1 + v.spare) (recodedExprs v.code es)) m := by
  rw [Nat.add_right_comm]
  cases es with
  | nil => exact .pure (f := List.map (Value.recoded v.code)) []
  | cons e es =>
    rw [recodedExprs, Eval.evaluateAll, Eval.evaluateAll]
    refine .bind (h.expr e m (hs.calls .head)) fun u m₁ hu => ?_
    refine .bind (h.exprs es m₁ (hs.calls (.tail hu))) fun us _ _ => ?_
    exact .pure (f := List.map (Value.recoded v.code)) (u :: us)

theorem setProperty_succ (u : Value) (name : Name) (e : Expr) (m : Machine)
    (hs : v.Suits ⟨n + 1, .setProperty u name e, m⟩) :
    v.Shows (Value.recoded v.code) (Eval.setProperty (n + 1) u name e)
      (Eval.setProperty (n + 1 + v.spare) (u.recoded v.code) (name.relined v.code.lineOf) (e.recoded v.code)) m := by
  rw [Nat.add_right_comm]
  cases u with
  | object i =>
    rw [Value.recoded, Eval.setProperty, Eval.setProperty]
    refine .bind (h.expr e m (hs.calls .fieldValue)) fun w _ _ => ?_
    exact .bind (.setField i name.text w) fun _ _ _ => .pure w
  | _ => exact .fail name.line .fieldOfNonInstance

/-! ## Properties -/

theorem property_succ (u : Value) (name : Name) (m : Machine) (hs : v.Suits ⟨n + 1, .property u name, m⟩) :
    v.Shows (Value.recoded v.code) (Eval.property (n + 1) u name)
      (Eval.property (n + 1 + v.spare) (u.recoded v.code) (name.relined v.code.lineOf)) m := by
  rw [Nat.add_right_comm]
  cases u with
  | object i =>
    rw [Value.recoded, Eval.property, Eval.property]
    refine .bind (.field? i name.text) fun found m₁ hfound => ?_
    cases hfound
    dsimp only
    cases hfield : m.store.field? i name.text with
    | some w => exact .pure w
    | none =>
      have hmethod : (i.recoded v.code).cls.method? name.text = (i.cls.method? name.text).map (FunctionObject.recoded v.code) :=
        i.cls.method?_recoded v.code name.text
      simp only [Option.map_none, Name.relined, hmethod]
      cases ho : i.cls.method? name.text with
      | none => exact .fail name.line (.undefinedProperty name.text)
      | some o => exact h.methodOf o.closure i name.line m (hs.calls (.method hfield ho))
  | klass c =>
    rw [Value.recoded, Eval.property, Eval.property]
    simp only [Name.relined, c.static?_recoded v.code name.text]
    cases ho : c.static? name.text with
    | none => exact .fail name.line (.undefinedProperty name.text)
    | some o =>
      refine .ite Iff.rfl (fun hg => ?_) fun _ => .pure (f := Value.recoded v.code) (.function o)
      exact h.enter o.closure [] name.line m (hs.calls (.staticGetter ho hg))
  | _ => exact .fail name.line .propertyOfNonInstance

theorem superProperty_succ (id : NodeId) (line : Nat) (method : Name) (m : Machine)
    (hs : v.Suits ⟨n + 1, .superProperty id line method, m⟩) :
    v.Shows (Value.recoded v.code) (Eval.superProperty (n + 1) id line method)
      (Eval.superProperty (n + 1 + v.spare) (v.code.idOf id) (v.code.lineOf line) (method.relined v.code.lineOf)) m := by
  have hkeeps : v.Keeps m id := hs.accesses .super
  rw [Nat.add_right_comm, Eval.superProperty, Eval.superProperty]
  refine .bind (.superClass line hkeeps) fun c m₁ hc => ?_
  obtain rfl := superClass_machine hc
  refine .bind (.superReceiver line hkeeps) fun i m₂ hi => ?_
  obtain rfl := superReceiver_machine hi
  simp only [Name.relined, c.method?_recoded v.code method.text]
  cases ho : c.method? method.text with
  | none => exact .fail method.line (.undefinedProperty method.text)
  | some o => exact h.methodOf o.closure i method.line _ (hs.calls (.superMethod hc hi ho))

theorem methodOf_succ (c : Closure) (i : Instance) (line : Nat) (m : Machine) (hs : v.Suits ⟨n + 1, .methodOf c i line, m⟩) :
    v.Shows (Value.recoded v.code) (Eval.methodOf (n + 1) c i line)
      (Eval.methodOf (n + 1 + v.spare) (c.recoded v.code) (i.recoded v.code) (v.code.lineOf line)) m := by
  rw [Nat.add_right_comm, Eval.methodOf, Eval.methodOf]
  refine .bind (.bindThis c i) fun bound m₁ hbound => .ite Iff.rfl (fun hg => ?_) fun _ => ?_
  · exact h.enter bound [] line m₁ (hs.calls (.getter hbound hg))
  · refine .bind .freshSerial fun serial _ _ => ?_
    exact .pure (f := Value.recoded v.code) (.bound ⟨serial, i, bound⟩)

/-! ## Calls -/

theorem call_succ (u : Value) (us : List Value) (line : Nat) (m : Machine) (hs : v.Suits ⟨n + 1, .call u us line, m⟩) :
    v.Shows (Value.recoded v.code) (Eval.call (n + 1) u us line)
      (Eval.call (n + 1 + v.spare) (u.recoded v.code) (us.map (Value.recoded v.code)) (v.code.lineOf line)) m := by
  rw [Nat.add_right_comm, Eval.call, Eval.call]
  rw [u.callee?_recoded]
  cases hf : u.callee? with
  | none => exact .fail line .notCallable
  | some f =>
    simp only [Option.map_some, List.length_map, Callee.arity_recoded]
    refine .ite Iff.rfl (fun hl => ?_) fun _ => .fail line _
    exact h.apply f us line m (hs.calls (.apply hf hl))

theorem apply_succ (f : Callee) (us : List Value) (line : Nat) (m : Machine) (hs : v.Suits ⟨n + 1, .apply f us line, m⟩) :
    v.Shows (Value.recoded v.code) (Eval.apply (n + 1) f us line)
      (Eval.apply (n + 1 + v.spare) (f.recoded v.code) (us.map (Value.recoded v.code)) (v.code.lineOf line)) m := by
  rw [Nat.add_right_comm]
  cases f with
  | native fn =>
    rw [Callee.recoded, Eval.apply, Eval.apply]
    exact .callNative fn us line
  | closure c =>
    rw [Callee.recoded, Eval.apply, Eval.apply]
    exact h.enter c us line m (hs.calls .closure)
  | construct c =>
    rw [Callee.recoded, Eval.apply, Eval.apply]
    refine .bind (.newInstance c) fun i m₁ hi => ?_
    rw [c.initializer?_recoded]
    cases ho : c.initializer? with
    | none => exact .pure (f := Value.recoded v.code) (.object i)
    | some o =>
      refine .bind (.bindThis o.closure i) fun bound m₂ hbound => ?_
      refine .bind (h.enter bound us line m₂ (hs.calls (.initializer hi ho hbound))) fun _ _ _ => ?_
      exact .pure (f := Value.recoded v.code) (.object i)

theorem enter_succ (c : Closure) (us : List Value) (line : Nat) (m : Machine) (hs : v.Suits ⟨n + 1, .enter c us line, m⟩) :
    v.Shows (Value.recoded v.code) (Eval.enter (n + 1) c us line)
      (Eval.enter (n + 1 + v.spare) (c.recoded v.code) (us.map (Value.recoded v.code)) (v.code.lineOf line)) m := by
  rw [Nat.add_right_comm, Eval.enter, Eval.enter]
  exact .asCall fun hd => h.runBody c us _ (hs.calls (.enter hd))

theorem runBody_succ (c : Closure) (us : List Value) (m : Machine) (hs : v.Suits ⟨n + 1, .runBody c us, m⟩) :
    v.Shows (Value.recoded v.code) (Eval.runBody (n + 1) c us)
      (Eval.runBody (n + 1 + v.spare) (c.recoded v.code) (us.map (Value.recoded v.code))) m := by
  have hparams : (c.recoded v.code).routine.params = c.routine.params.map (Name.relined v.code.lineOf) := by
    obtain ⟨_, ⟨params, body⟩, _, _, _⟩ := c
    rfl
  have hbody : (c.recoded v.code).routine.body = recodedStmts v.code c.routine.body := by
    obtain ⟨_, ⟨params, body⟩, _, _, _⟩ := c
    rfl
  rw [Nat.add_right_comm, Eval.runBody, Eval.runBody, hparams, hbody, argumentFrame_recoded]
  refine .bind (.newFrame _ c.env) fun env m₁ henv => ?_
  refine .bind (.within (h.stmts c.routine.body _ (hs.calls (.body henv)))) fun flow m₂ _ => ?_
  rw [Flow.result_recoded]
  exact .ite Iff.rfl (fun _ => .receiverOf c) fun _ => .pure flow.result

/-! ## Statements -/

theorem stmt_succ (st : Stmt) (m : Machine) (hs : v.Suits ⟨n + 1, .stmt st, m⟩) :
    v.Shows (Flow.recoded v.code) (execute (n + 1) st) (execute (n + 1 + v.spare) (st.recoded v.code)) m := by
  rw [Nat.add_right_comm]
  cases st with
  | expr e =>
    rw [Stmt.recoded, Eval.execute, Eval.execute]
    exact .bind (h.expr e m (hs.calls .statement)) fun _ _ _ => .pure (f := Flow.recoded v.code) .completed
  | print e =>
    rw [Stmt.recoded, Eval.execute, Eval.execute]
    refine .bind (h.expr e m (hs.calls .print)) fun u _ _ => ?_
    rw [Value.text_recoded]
    exact .bind (.writeLine _ fun _ => rfl) fun _ _ _ => .pure (f := Flow.recoded v.code) .completed
  | varDecl name init =>
    cases init with
    | none =>
      rw [Stmt.recoded, Eval.execute, Eval.execute]
      exact .bind (.define .nil) fun _ _ _ => .pure (f := Flow.recoded v.code) .completed
    | some e =>
      rw [Stmt.recoded, Eval.execute, Eval.execute]
      refine .bind (h.expr e m (hs.calls .varDecl)) fun u _ _ => ?_
      exact .bind (.define u) fun _ _ _ => .pure (f := Flow.recoded v.code) .completed
  | block body =>
    rw [Stmt.recoded, Eval.execute, Eval.execute]
    refine .bind (f := id) (.read rfl) fun here m₁ hhere => ?_
    cases hhere
    refine .bind (.newFrame .empty m.env) fun env m₂ henv => ?_
    exact .within (h.stmts body _ (hs.calls (.block henv)))
  | branch c st st' =>
    cases st' with
    | none =>
      rw [Stmt.recoded, Eval.execute, Eval.execute]
      refine .bind (h.expr c m (hs.calls .condition)) fun u m₁ hu => ?_
      refine .ite (by rw [Value.isTruthy_recoded]) (fun ht => ?_) fun _ => .pure (f := Flow.recoded v.code) .completed
      exact h.stmt st m₁ (hs.calls (.thenBranch hu ht))
    | some st' =>
      rw [Stmt.recoded, Eval.execute, Eval.execute]
      refine .bind (h.expr c m (hs.calls .condition)) fun u m₁ hu => ?_
      refine .ite (by rw [Value.isTruthy_recoded]) (fun ht => ?_) fun hf => ?_
      · exact h.stmt st m₁ (hs.calls (.thenBranch hu ht))
      · exact h.stmt st' m₁ (hs.calls (.elseBranch hu (by simpa using hf)))
  | loop c st =>
    rw [Stmt.recoded, Eval.execute, Eval.execute]
    exact h.loop c st m (hs.calls .loop)
  | funDecl name r =>
    rw [Stmt.recoded, Eval.execute, Eval.execute]
    refine .bind (.closureHere name r) fun c _ _ => .bind (.newFunction c) fun o _ _ => ?_
    exact .bind (.define (.function o)) fun _ _ _ => .pure (f := Flow.recoded v.code) .completed
  | returns form line e =>
    cases e with
    | none =>
      rw [Stmt.recoded, Eval.execute, Eval.execute]
      exact .pure (f := Flow.recoded v.code) (.returned .nil)
    | some e =>
      rw [Stmt.recoded, Eval.execute, Eval.execute]
      refine .bind (h.expr e m (hs.calls .returns)) fun u _ _ => .pure (f := Flow.recoded v.code) (.returned u)
  | breaks line => exact .pure (f := Flow.recoded v.code) .broke
  | classDecl name ref methods statics =>
    rw [Stmt.recoded, Eval.execute, Eval.execute]
    refine .bind (h.superclass name ref m (hs.calls .superclass)) fun parent _ _ => ?_
    refine .bind (.define .nil) fun _ _ _ => .bind (.newClass name parent methods statics) fun c _ _ => ?_
    exact .bind (.overwrite (.klass c)) fun _ _ _ => .pure (f := Flow.recoded v.code) .completed

omit h in
theorem superclass_succ (cls : Name) (ref : Option Reference) (m : Machine) (hs : v.Suits ⟨n + 1, .superclass cls ref, m⟩) :
    v.Shows (Option.map (Class.recoded v.code)) (evaluateSuperclass (n + 1) ref)
      (evaluateSuperclass (n + 1 + v.spare) (ref.map (Reference.recoded v.code))) m := by
  rw [Nat.add_right_comm]
  cases ref with
  | none => exact .pure (f := Option.map (Class.recoded v.code)) none
  | some ref =>
    rw [Option.map_some, Eval.evaluateSuperclass, Eval.evaluateSuperclass]
    refine .bind (.lookUp ref.name (hs.accesses .superclass)) fun u _ _ => ?_
    cases u with
    | klass c => exact .pure (f := Option.map (Class.recoded v.code)) (some c)
    | _ => exact .fail ref.name.line .superclassNotClass

theorem stmts_succ (sts : List Stmt) (m : Machine) (hs : v.Suits ⟨n + 1, .stmts sts, m⟩) :
    v.Shows (Flow.recoded v.code) (executeAll (n + 1) sts) (executeAll (n + 1 + v.spare) (recodedStmts v.code sts)) m := by
  rw [Nat.add_right_comm]
  cases sts with
  | nil => exact .pure (f := Flow.recoded v.code) .completed
  | cons st sts =>
    rw [recodedStmts, Eval.executeAll, Eval.executeAll]
    refine .bind (h.stmt st m (hs.calls .first)) fun flow m₁ hflow => ?_
    cases flow with
    | completed => exact h.stmts sts m₁ (hs.calls (.rest hflow))
    | returned u => exact .pure (f := Flow.recoded v.code) (.returned u)
    | broke => exact .pure (f := Flow.recoded v.code) .broke

theorem loop_succ (c : Expr) (st : Stmt) (m : Machine) (hs : v.Suits ⟨n + 1, .loop c st, m⟩) :
    v.Shows (Flow.recoded v.code) (repeatWhile (n + 1) c st)
      (repeatWhile (n + 1 + v.spare) (c.recoded v.code) (st.recoded v.code)) m := by
  rw [Nat.add_right_comm, Eval.repeatWhile, Eval.repeatWhile]
  refine .bind (h.expr c m (hs.calls .loopCondition)) fun u m₁ hu => ?_
  refine .ite (by rw [Value.isTruthy_recoded]) (fun ht => ?_) fun _ => .pure (f := Flow.recoded v.code) .completed
  refine .bind (h.stmt st m₁ (hs.calls (.loopBody hu ht))) fun flow m₂ hflow => ?_
  cases flow with
  | completed => exact h.loop c st m₂ (hs.calls (.again hu ht hflow))
  | broke => exact .pure (f := Flow.recoded v.code) .completed
  | returned w => exact .pure (f := Flow.recoded v.code) (.returned w)

end Faithful

theorem faithful (v : View) : ∀ n, v.Faithful n
  | 0 => .zero v
  | n + 1 =>
    have h := faithful v n
    { expr := h.expr_succ
      exprs := h.exprs_succ
      setProperty := h.setProperty_succ
      property := h.property_succ
      superProperty := h.superProperty_succ
      methodOf := h.methodOf_succ
      call := h.call_succ
      apply := h.apply_succ
      enter := h.enter_succ
      runBody := h.runBody_succ
      stmt := h.stmt_succ
      superclass := Faithful.superclass_succ
      stmts := h.stmts_succ
      loop := h.loop_succ }

/-! ## Programs -/

/-- A program is shown in a view that suits each of its statements where that is executed. -/
theorem executeEach {v : View} {n : Nat} : ∀ {sts : List Stmt} {m : Machine},
    (∀ before st after m', sts = before ++ st :: after → Eval.executeEach n before m = .done () m' → v.Suits ⟨n, .stmt st, m'⟩) →
    v.Shows id (Eval.executeEach n sts) (Eval.executeEach (n + v.spare) (recodedStmts v.code sts)) m
  | [], _, _ => .pure (f := id) ()
  | st :: sts, m, h => by
    rw [recodedStmts, Eval.executeEach, Eval.executeEach]
    refine .bind ((v.faithful n).stmt st m (h [] st sts m rfl rfl)) fun flow m₁ hflow => ?_
    refine executeEach fun before st' after m₂ heq hm₂ => h (st :: before) st' after m₂ (by rw [heq]; rfl) ?_
    rw [Eval.executeEach, Run.bind_apply, hflow]
    exact hm₂

/-- A view suits everything if its tables bind all nodes as before. -/
theorem suits_of_tables {v : View} (h : ∀ table id, (v.tables table).get? (v.code.idOf id) = table.get? id) (x : Moment) :
    v.Suits x := fun _ id _ m _ _ => h m.bindings id

/-- A program that does not run out of fuel has the same outcome in the view. -/
theorem Shows.eq_of_ne {α : Type} {v : View} {f : α → α} {body body' : Eval α} {m : Machine} (h : v.Shows f body body' m)
    (hne : v.spare = 0 ∨ body m ≠ .exhausted) : body' (v.machine m) = v.outcome f (body m) := by
  rcases h with h | ⟨hs, h⟩
  · exact h
  · rcases hne with hz | hne
    · exact absurd hs (by rw [hz]; exact Nat.lt_irrefl 0)
    · exact absurd h hne

end View

end Lox
