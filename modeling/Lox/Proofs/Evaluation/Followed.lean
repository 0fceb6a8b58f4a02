import Lox.Proofs.Evaluation.Following
import Lox.Proofs.Evaluation.Resolved

/-!
# Twins do the same

The evaluation of a twin follows that of the code. There is one lemma for each kind of work, and from them the whole follows by
induction on the fuel of the first run. The second one needs more of it for the groups that only it has.
-/

namespace Lox

open Eval

variable {T : Ties}

theorem argumentFrame_twin {params : List Name} {args args' : List Value} (h : List.Forall₂ (Value.Twin T) args args') :
    (argumentFrame params args).Rel (Value.Twin T) (argumentFrame params args') := by
  have fold : ∀ (params : List Name) {args args' : List Value} {frame frame' : Frame},
      List.Forall₂ (Value.Twin T) args args' → frame.Rel (Value.Twin T) frame' →
      Dict.Rel (Value.Twin T) ((params.zip args).foldl (fun frame p => frame.insert p.1.text p.2) frame)
        ((params.zip args').foldl (fun frame p => frame.insert p.1.text p.2) frame') := by
    intro params
    induction params with
    | nil => intro _ _ _ _ _ hframe; exact hframe
    | cons p params ih =>
      intro _ _ _ _ h hframe
      cases h with
      | nil => exact hframe
      | cons hv h => exact ih h (hframe.insert p.text hv)
  exact fold params h .empty

namespace Eval

/-- The second run spends one unit of fuel on the step that it takes. -/
theorem Follows.stepping {α : Type} {a : Activity} {R : α → a.Result → Prop} {x : Eval α}
    (hx : Follows T R x fun k => a.step .resolved fun a => a.run k) : Follows T R x fun k => a.run k :=
  hx.step fun k => Activity.run_succ k a

/-- With this fuel all work is followed by that of a twin. -/
structure Followed (T : Ties) (n : Nat) : Prop where
  expr : ∀ {e e'}, e.Twin T e' → Follows T (Value.Twin T) (evaluate n e) fun k => evaluate k e'
  exprs : ∀ {es es'}, TwinExprs T es es' →
    Follows T (List.Forall₂ (Value.Twin T)) (evaluateAll n es) fun k => evaluateAll k es'
  setProperty : ∀ {v v' e e'} name, v.Twin T v' → e.Twin T e' →
    Follows T (Value.Twin T) (setProperty n v name e) fun k => setProperty k v' name e'
  property : ∀ {v v'} name, v.Twin T v' → Follows T (Value.Twin T) (property n v name) fun k => property k v' name
  superProperty : ∀ {id id'} line method, T.ids id id' →
    Follows T (Value.Twin T) (superProperty n id line method) fun k => superProperty k id' line method
  methodOf : ∀ {c c' i i'} line, c.Twin T c' → i.Twin T i' →
    Follows T (Value.Twin T) (methodOf n c i line) fun k => methodOf k c' i' line
  call : ∀ {v v' args args'} line, v.Twin T v' → List.Forall₂ (Value.Twin T) args args' →
    Follows T (Value.Twin T) (call n v args line) fun k => call k v' args' line
  apply : ∀ {f f' args args'} line, f.Twin T f' → List.Forall₂ (Value.Twin T) args args' →
    Follows T (Value.Twin T) (apply n f args line) fun k => apply k f' args' line
  enter : ∀ {c c' args args'} line, c.Twin T c' → List.Forall₂ (Value.Twin T) args args' →
    Follows T (Value.Twin T) (enter n c args line) fun k => enter k c' args' line
  runBody : ∀ {c c' args args'}, c.Twin T c' → List.Forall₂ (Value.Twin T) args args' →
    Follows T (Value.Twin T) (runBody n c args) fun k => runBody k c' args'
  stmt : ∀ {st st'}, st.Twin T st' → Follows T (Flow.Twin T) (execute n st) fun k => execute k st'
  superclass : ∀ {ref ref'}, Option.Rel (Reference.Twin T) ref ref' →
    Follows T (Option.Rel (Class.Twin T)) (evaluateSuperclass n ref) fun k => evaluateSuperclass k ref'
  stmts : ∀ {sts sts'}, TwinStmts T sts sts' → Follows T (Flow.Twin T) (executeAll n sts) fun k => executeAll k sts'
  loop : ∀ {c c' st st'}, c.Twin T c' → st.Twin T st' →
    Follows T (Flow.Twin T) (repeatWhile n c st) fun k => repeatWhile k c' st'

namespace Followed

theorem zero : Followed T 0 := by
  constructor
  all_goals
    intros
    exact .exhausted

variable {n : Nat} (h : Followed T n)
include h

/-! ## Expressions -/

theorem expr_succ {e e' : Expr} (he : e.Twin T e') : Follows T (Value.Twin T) (evaluate (n + 1) e) fun k => evaluate k e' := by
  -- on the size of the twin, which has groups of its own
  induction hs : sizeOf e' using Nat.strongRecOn generalizing e' with
  | ind s ih =>
    subst hs
    cases he with
    | groupLeft he => exact h.expr he
    | groupRight he => exact (ih _ (by simp) he rfl).step fun _ => rfl
    | literal v => exact .step (.pure (.ofLiteral v)) fun _ => rfl
    | unary he => exact .step (.bind (h.expr he) fun _ _ hv => .ofExcept (Mark.applyUnary_twin _ hv)) fun _ => rfl
    | binary hl hr =>
      exact .step (.bind (h.expr hl) fun _ _ hv => .bind (h.expr hr) fun _ _ hw => .ofExcept (Mark.applyBinary_twin _ hv hw))
        fun _ => rfl
    | logical hl hr =>
      exact .step (.bind (h.expr hl) fun _ _ hv => .ite (by rw [hv.shortCircuits]) (.pure hv) (h.expr hr)) fun _ => rfl
    | var hi => exact .step (.lookUp hi _) fun _ => rfl
    | assign he hi =>
      exact .step (.bind (h.expr he) fun _ _ hv => .bind (.assign hi hv) fun _ _ _ => .pure hv) fun _ => rfl
    | call hf hargs =>
      exact .step (.bind (h.expr hf) fun _ _ hv => .bind (h.exprs hargs) fun _ _ hvs => h.call _ hv hvs) fun _ => rfl
    | lambda hr =>
      exact .step (.bind (.closureHere _ hr) fun _ _ hc => .bind (.newFunction hc) fun _ _ hf => .pure (.function hf))
        fun _ => rfl
    | get he => exact .step (.bind (h.expr he) fun _ _ hv => h.property _ hv) fun _ => rfl
    | set he hv => exact .step (.bind (h.expr he) fun _ _ hobject => h.setProperty _ hobject hv) fun _ => rfl
    | this hi => exact .step (.lookUp hi _) fun _ => rfl
    | super hi => exact .step (h.superProperty _ _ hi) fun _ => rfl

theorem exprs_succ {es es' : List Expr} (hes : TwinExprs T es es') :
    Follows T (List.Forall₂ (Value.Twin T)) (evaluateAll (n + 1) es) fun k => evaluateAll k es' := by
  cases hes with
  | nil => exact .step (.pure .nil) fun _ => rfl
  | cons he hes =>
    exact .step (.bind (h.expr he) fun _ _ hv => .bind (h.exprs hes) fun _ _ hvs => .pure (.cons hv hvs)) fun _ => rfl

/-! ## Properties and calls -/

theorem setProperty_succ {v v' : Value} {e e' : Expr} (name : Name) (hv : v.Twin T v') (he : e.Twin T e') :
    Follows T (Value.Twin T) (Eval.setProperty (n + 1) v name e) fun k => Eval.setProperty k v' name e' := by
  cases hv with
  | object hi =>
    exact .step (.bind (h.expr he) fun _ _ hv => .bind (.setField hi name.text hv) fun _ _ _ => .pure hv) fun _ => rfl
  | _ => exact .step (.fail _ _) fun _ => rfl

theorem property_succ {v v' : Value} (name : Name) (hv : v.Twin T v') :
    Follows T (Value.Twin T) (Eval.property (n + 1) v name) fun k => Eval.property k v' name := by
  cases hv with
  | @object i i' hi =>
    refine .stepping (a := .property (.object i') name) ?_
    refine .bind (.field? hi name.text) fun _ _ hfound => ?_
    cases hfound with
    | some hv => exact .pure hv
    | none =>
      rcases rel_cases (hi.cls.method? name.text) with ⟨hf, hf'⟩ | ⟨f, f', hf, hf', hff⟩
      · simp only [hf, hf', Option.elim]; exact .fail _ _
      · simp only [hf, hf', Option.elim]; exact h.methodOf name.line hff.closure hi
  | @klass c c' hc =>
    refine .stepping (a := .property (.klass c') name) ?_
    rw [Eval.property]
    unfold Activity.step Access.property
    rcases rel_cases (hc.static? name.text) with ⟨hf, hf'⟩ | ⟨f, f', hf, hf', hff⟩
    · simp only [hf, hf', Option.elim]; exact .fail _ _
    · simp only [hf, hf', Option.elim]
      exact .ite (by rw [hff.closure.isGetter]) (h.enter name.line hff.closure .nil) (.pure (.function hff))
  | _ => exact .step (.fail _ _) fun _ => rfl

theorem superProperty_succ {id id' : NodeId} (line : Nat) (method : Name) (hi : T.ids id id') :
    Follows T (Value.Twin T) (Eval.superProperty (n + 1) id line method) fun k => Eval.superProperty k id' line method := by
  refine .stepping (a := .superProperty id' line method) ?_
  refine .bind (.superClass hi line) fun c c' hc => .bind (.superReceiver hi line) fun i i' hi => ?_
  rcases rel_cases (hc.method? method.text) with ⟨hf, hf'⟩ | ⟨f, f', hf, hf', hff⟩
  · simp only [hf, hf', Option.elim]; exact .fail _ _
  · simp only [hf, hf', Option.elim]; exact h.methodOf method.line hff.closure hi

theorem methodOf_succ {c c' : Closure} {i i' : Instance} (line : Nat) (hc : c.Twin T c') (hi : i.Twin T i') :
    Follows T (Value.Twin T) (Eval.methodOf (n + 1) c i line) fun k => Eval.methodOf k c' i' line := by
  refine .step (.bind (.bindThis hc hi) fun bound bound' hb => .ite (by rw [hb.isGetter]) (h.enter line hb .nil)
    (.bind .freshSerial fun _ _ heq => .pure (.bound ⟨heq.symm, hi, hb⟩))) fun _ => rfl

theorem call_succ {v v' : Value} {args args' : List Value} (line : Nat) (hv : v.Twin T v')
    (hargs : List.Forall₂ (Value.Twin T) args args') :
    Follows T (Value.Twin T) (Eval.call (n + 1) v args line) fun k => Eval.call k v' args' line := by
  refine .stepping (a := .call v' args' line) ?_
  rw [Eval.call]
  unfold Activity.step Access.call
  rcases rel_cases hv.callee? with ⟨hf, hf'⟩ | ⟨f, f', hf, hf', hff⟩
  · simp only [hf, hf', Option.elim]; exact .fail _ _
  · simp only [hf, hf', Option.elim, hff.arity, ← hargs.length_eq]
    exact .ite Iff.rfl (h.apply line hff hargs) (.fail _ _)

theorem apply_succ {f f' : Callee} {args args' : List Value} (line : Nat) (hf : f.Twin T f')
    (hargs : List.Forall₂ (Value.Twin T) args args') :
    Follows T (Value.Twin T) (Eval.apply (n + 1) f args line) fun k => Eval.apply k f' args' line := by
  cases hf with
  | native fn => exact .step (.callNative fn hargs line) fun _ => rfl
  | closure hc => exact .step (h.enter line hc hargs) fun _ => rfl
  | @construct c c' hc =>
    refine .stepping (a := .apply (.construct c') args' line) ?_
    refine .bind (.newInstance hc) fun i i' hi => ?_
    rcases rel_cases hc.initializer? with ⟨hf, hf'⟩ | ⟨f, f', hf, hf', hff⟩
    · simp only [hf, hf', Option.elim]; exact .pure (.object hi)
    · simp only [hf, hf', Option.elim]
      exact .bind (.bindThis hff.closure hi) fun _ _ hb => .bind (h.enter line hb hargs) fun _ _ _ => .pure (.object hi)

theorem enter_succ {c c' : Closure} {args args' : List Value} (line : Nat) (hc : c.Twin T c')
    (hargs : List.Forall₂ (Value.Twin T) args args') :
    Follows T (Value.Twin T) (Eval.enter (n + 1) c args line) fun k => Eval.enter k c' args' line :=
  .step (.asCall (h.runBody hc hargs)) fun _ => rfl

theorem runBody_succ {c c' : Closure} {args args' : List Value} (hc : c.Twin T c')
    (hargs : List.Forall₂ (Value.Twin T) args args') :
    Follows T (Value.Twin T) (Eval.runBody (n + 1) c args) fun k => Eval.runBody k c' args' := by
  have hframe : (argumentFrame c.routine.params args).Rel (Value.Twin T) (argumentFrame c'.routine.params args') := by
    rw [hc.routine.params]
    exact argumentFrame_twin hargs
  refine .step (y := fun k => Eval.newFrame (argumentFrame c'.routine.params args') c'.env >>= fun env =>
    Eval.within env (executeAll k c'.routine.body) >>= fun flow =>
      if c'.isInitializer then receiverOf c' else Pure.pure flow.result) ?_ fun _ => rfl
  rw [Eval.runBody, hc.env]
  refine .bind (.newFrame hframe c.env) fun env _ heq => ?_
  subst heq
  refine .bind (.within (h.stmts hc.routine.body)) fun flow flow' hflow => ?_
  exact .ite (by rw [hc.isInitializer]) (.receiverOf hc) (.pure hflow.result)

/-! ## Statements -/

theorem stmt_succ {st st' : Stmt} (hst : st.Twin T st') :
    Follows T (Flow.Twin T) (execute (n + 1) st) fun k => execute k st' := by
  cases hst with
  | expr he => exact .step (.bind (h.expr he) fun _ _ _ => .pure .completed) fun _ => rfl
  | print he =>
    exact .step (.bind (h.expr he) fun _ _ hv => .bind (.writeLine hv _) fun _ _ _ => .pure .completed) fun _ => rfl
  | declared name => exact .step (.bind (.define .nil) fun _ _ _ => .pure .completed) fun _ => rfl
  | initialized he =>
    exact .step (.bind (h.expr he) fun _ _ hv => .bind (.define hv) fun _ _ _ => .pure .completed) fun _ => rfl
  | @block sts sts' _ hsts =>
    refine .step (.bind (R := Eq) (.read fun _ _ hm => hm.env.symm) fun here _ heq => ?_) fun _ => rfl
    subst heq
    refine .bind (.newFrame .empty here) fun env _ heq => ?_
    subst heq
    exact .within (h.stmts hsts)
  | branch hc hst =>
    exact .step (.bind (h.expr hc) fun _ _ hv => .ite (by rw [hv.isTruthy]) (h.stmt hst) (.pure .completed)) fun _ => rfl
  | branches hc hst hother =>
    exact .step (.bind (h.expr hc) fun _ _ hv => .ite (by rw [hv.isTruthy]) (h.stmt hst) (h.stmt hother)) fun _ => rfl
  | loop hc hst => exact .step (h.loop hc hst) fun _ => rfl
  | funDecl hr =>
    exact .step (.bind (.closureHere _ hr) fun _ _ hc => .bind (.newFunction hc) fun _ _ hf =>
      .bind (.define (.function hf)) fun _ _ _ => .pure .completed) fun _ => rfl
  | returns form line => exact .step (.pure (.returned .nil)) fun _ => rfl
  | returned he => exact .step (.bind (h.expr he) fun _ _ hv => .pure (.returned hv)) fun _ => rfl
  | breaks line => exact .step (.pure .broke) fun _ => rfl
  | classDecl href hms hss =>
    exact .step (.bind (h.superclass href) fun _ _ hparent => .bind (.define .nil) fun _ _ _ =>
      .bind (.newClass _ hparent hms hss) fun _ _ hc => .bind (.overwrite (.klass hc)) fun _ _ _ => .pure .completed) fun _ => rfl

omit h in
theorem superclass_succ {ref ref' : Option Reference} (href : Option.Rel (Reference.Twin T) ref ref') :
    Follows T (Option.Rel (Class.Twin T)) (evaluateSuperclass (n + 1) ref) fun k => evaluateSuperclass k ref' := by
  cases href with
  | none => exact .step (.pure .none) fun _ => rfl
  | @some r r' hr =>
    refine .step (y := fun _ => Access.evaluateSuperclass .resolved (some r')) ?_ fun _ => rfl
    rw [evaluateSuperclass, Access.evaluateSuperclass, hr.name]
    refine .bind (.lookUp hr.ids r.name) fun v v' hv => ?_
    cases hv with
    | klass hc => exact .pure (.some hc)
    | _ => exact .fail _ _

theorem stmts_succ {sts sts' : List Stmt} (hsts : TwinStmts T sts sts') :
    Follows T (Flow.Twin T) (executeAll (n + 1) sts) fun k => executeAll k sts' := by
  cases hsts with
  | nil => exact .step (.pure .completed) fun _ => rfl
  | @cons st st' sts sts' hst hsts =>
    refine .stepping (a := .stmts (st' :: sts')) ?_
    refine .bind (h.stmt hst) fun _ _ hflow => ?_
    cases hflow with
    | completed => exact h.stmts hsts
    | returned hv => exact .pure (.returned hv)
    | broke => exact .pure .broke

theorem loop_succ {c c' : Expr} {st st' : Stmt} (hc : c.Twin T c') (hst : st.Twin T st') :
    Follows T (Flow.Twin T) (repeatWhile (n + 1) c st) fun k => repeatWhile k c' st' := by
  refine .stepping (a := .loop c' st') ?_
  refine .bind (h.expr hc) fun v v' hv => .ite (by rw [hv.isTruthy]) ?_ (.pure .completed)
  refine .bind (h.stmt hst) fun _ _ hflow => ?_
  cases hflow with
  | completed => exact h.loop hc hst
  | returned hv => exact .pure (.returned hv)
  | broke => exact .pure .completed

end Followed

/-- The evaluation of a twin follows that of the code. -/
theorem followed (T : Ties) : ∀ n, Followed T n
  | 0 => .zero
  | n + 1 =>
    have h := followed T n
    { expr := h.expr_succ
      exprs := h.exprs_succ
      setProperty := h.setProperty_succ
      property := h.property_succ
      superProperty := h.superProperty_succ
      methodOf := h.methodOf_succ
      call := h.call_succ
      apply := h.apply_succ
      enter := h.enter_succ
      runBody := h.runBody_succ
      stmt := h.stmt_succ
      superclass := Followed.superclass_succ
      stmts := h.stmts_succ
      loop := h.loop_succ }

/-! ## Programs -/

theorem Follows.executeEach {n : Nat} : ∀ {sts sts' : List Stmt}, TwinStmts T sts sts' →
    Follows T Eq (executeEach n sts) fun k => executeEach k sts'
  | _, _, .nil => .pure rfl
  | _, _, .cons hst hsts => .bind ((followed T n).stmt hst) fun _ _ _ => Follows.executeEach hsts

theorem Follows.flushing {x : Eval Unit} {y : Nat → Eval Unit} (h : Follows T Eq x y) :
    Follows T Eq (flushing x) fun k => flushing (y k) := by
  intro m m' hm
  unfold Eval.flushing
  dsimp only
  rcases h m m' hm with hx | ⟨o, least, ho, hl⟩
  · rw [hx]; exact .inl rfl
  · refine .inr ?_
    generalize x m = o₁ at ho
    cases ho with
    | @done a b m₁ m₂ hab hm₁ =>
      refine ⟨if m₂.output.flushFails then .failed (.output .flushFailed) m₂ else .done b m₂, least, ?_, fun k hk => by rw [hl k hk]⟩
      dsimp only
      rw [hm₁.output]
      split
      · exact .failed hm₁
      · exact .done hab hm₁
    | @failed e m₁ m₂ hm₁ =>
      refine ⟨if m₂.output.flushFails then .failed (.output .flushFailed) m₂ else .failed e m₂, least, ?_, fun k hk => by rw [hl k hk]⟩
      dsimp only
      rw [hm₁.output]
      split
      · exact .failed hm₁
      · exact .failed hm₁

end Eval

end Lox
