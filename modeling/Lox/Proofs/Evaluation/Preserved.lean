import Lox.Proofs.Evaluation.Every

/-!
# Evaluation turns only to code that passes

Where the code of a moment passes and that of its machine does, the same holds of every moment that it comes
to, of the values that it gives, and of the machine that it leaves.
-/

namespace Lox

variable (P : Context → Stmt → Prop)

/-- The code to be run passes, and that of the values at hand. -/
def Activity.Every : Activity → Prop
  | .expr e => ∃ ctx, e.Every P ctx
  | .exprs es => ∃ ctx, EveryExprs P es ctx
  | .setProperty object _ value => object.Every P ∧ ∃ ctx, value.Every P ctx
  | .property object _ => object.Every P
  | .superProperty _ _ _ => True
  | .methodOf method receiver _ => method.Every P ∧ receiver.cls.Every P
  | .call callee arguments _ => callee.Every P ∧ ∀ v ∈ arguments, v.Every P
  | .apply callee arguments _ => callee.Every P ∧ ∀ v ∈ arguments, v.Every P
  | .enter c arguments _ => c.Every P ∧ ∀ v ∈ arguments, v.Every P
  | .runBody c arguments => c.Every P ∧ ∀ v ∈ arguments, v.Every P
  | .stmt st => ∃ ctx, st.Every P ctx
  | .superclass _ _ => True
  | .stmts sts => ∃ ctx, EveryStmts P sts ctx
  | .loop condition body => ∃ ctx : Context, condition.Every P ctx ∧ body.Every P ctx.loop

def Flow.Every : Flow → Prop
  | .completed => True
  | .returned v => v.Every P
  | .broke => True

/-- The code of the results passes. -/
def Activity.Gives : (a : Activity) → a.Result → Prop
  | .expr _, v => Value.Every P v
  | .exprs _, vs => ∀ v ∈ (show List Value from vs), v.Every P
  | .setProperty _ _ _, v => Value.Every P v
  | .property _ _, v => Value.Every P v
  | .superProperty _ _ _, v => Value.Every P v
  | .methodOf _ _ _, v => Value.Every P v
  | .call _ _ _, v => Value.Every P v
  | .apply _ _ _, v => Value.Every P v
  | .enter _ _ _, v => Value.Every P v
  | .runBody _ _, v => Value.Every P v
  | .stmt _, flow => Flow.Every P flow
  | .superclass _ _, c => ∀ parent ∈ (show Option Class from c), parent.Every P
  | .stmts _, flow => Flow.Every P flow
  | .loop _ _, flow => Flow.Every P flow

def Moment.Every (x : Moment) : Prop := x.activity.Every P ∧ x.machine.Every P

variable {P}

theorem Flow.Every.result : ∀ {flow : Flow}, flow.Every P → flow.result.Every P
  | .completed, _ => trivial
  | .returned _, h => h
  | .broke, _ => trivial

/-- The code of a class passes with that of its initializer. -/
theorem Class.Every.initializer {c : Class} (h : c.Every P) {f : FunctionObject} (hf : c.initializer? = some f) :
    f.closure.Every P := h.method hf

theorem Closure.Every.body {c : Closure} (h : c.Every P) :
    ∃ ctx : Context, EveryStmts P c.routine.body (ctx.enter c.kind) := by
  obtain ⟨_, ⟨_, _⟩, _, _, _⟩ := c
  exact h

namespace Eval

theorem Preserves.superclass {n : Nat} (ref : Option Reference) :
    Preserves P (fun parent => ∀ c ∈ parent, c.Every P) (evaluateSuperclass (n + 1) ref) := by
  cases ref with
  | none => exact .pure nofun
  | some ref =>
    rw [Eval.evaluateSuperclass]
    refine .bind (.lookUp ref.id ref.name) fun v hv => ?_
    cases v with
    | klass c => exact .pure fun _ hc => by cases hc; exact hv
    | _ => exact .fail

/-- With this fuel all work preserves the check. -/
def PreservesWith (P : Context → Stmt → Prop) (n : Nat) : Prop :=
  ∀ a : Activity, a.Every P → Preserves P (a.Gives P) (a.run n)

namespace PreservesWith

variable {n : Nat} (ih : PreservesWith P n)
include ih

/-! ## Expressions -/

theorem expr_succ {e : Expr} {ctx : Context} (h : e.Every P ctx) : Preserves P (Value.Every P) (evaluate (n + 1) e) := by
  cases e with
  | literal v =>
    rw [Eval.evaluate]
    exact .pure (by cases v <;> trivial)
  | unary op line e =>
    rw [Eval.evaluate]
    exact .bind (ih (.expr e) ⟨ctx, h⟩) fun v _ => .ofExcept fun u => Mark.applyUnary_every
  | binary op line l r =>
    rw [Eval.evaluate]
    refine .bind (ih (.expr l) ⟨ctx, h.1⟩) fun v _ => .bind (ih (.expr r) ⟨ctx, h.2⟩) fun w _ => ?_
    exact .ofExcept fun u => Mark.applyBinary_every
  | logical op line l r =>
    rw [Eval.evaluate]
    refine .bind (ih (.expr l) ⟨ctx, h.1⟩) fun v hv => ?_
    split
    · exact .pure hv
    · exact ih (.expr r) ⟨ctx, h.2⟩
  | group e =>
    rw [Eval.evaluate]
    exact ih (.expr e) ⟨ctx, h⟩
  | var id name =>
    rw [Eval.evaluate]
    exact .lookUp id name
  | assign id name e =>
    rw [Eval.evaluate]
    exact .bind (ih (.expr e) ⟨ctx, h⟩) fun v hv => .bind (.assign hv) fun _ _ => .pure hv
  | call f line args =>
    rw [Eval.evaluate]
    refine .bind (ih (.expr f) ⟨ctx, h.1⟩) fun v hv => .bind (ih (.exprs args) ⟨ctx, h.2⟩) fun vs hvs => ?_
    exact ih (.call v vs line) ⟨hv, hvs⟩
  | lambda line r =>
    rw [Eval.evaluate]
    exact .bind (.closureHere h) fun c hc => .bind (.newFunction hc) fun f hf => .pure hf
  | get e name =>
    rw [Eval.evaluate]
    exact .bind (ih (.expr e) ⟨ctx, h⟩) fun v hv => ih (.property v name) hv
  | set e name value =>
    rw [Eval.evaluate]
    exact .bind (ih (.expr e) ⟨ctx, h.1⟩) fun v hv => ih (.setProperty v name value) ⟨hv, ctx, h.2⟩
  | this id line =>
    rw [Eval.evaluate]
    exact .lookUp id ⟨"this", line⟩
  | super id line method =>
    rw [Eval.evaluate]
    exact ih (.superProperty id line method) trivial

theorem exprs_succ {es : List Expr} {ctx : Context} (h : EveryExprs P es ctx) :
    Preserves P (fun vs => ∀ v ∈ vs, v.Every P) (evaluateAll (n + 1) es) := by
  cases es with
  | nil => exact .pure nofun
  | cons e es =>
    rw [Eval.evaluateAll]
    refine .bind (ih (.expr e) ⟨ctx, h.1⟩) fun v hv => .bind (ih (.exprs es) ⟨ctx, h.2⟩) fun vs hvs => .pure ?_
    exact List.forall_mem_cons.mpr ⟨hv, hvs⟩

theorem setProperty_succ {object : Value} {name : Name} {e : Expr} {ctx : Context} (h : e.Every P ctx) :
    Preserves P (Value.Every P) (setProperty (n + 1) object name e) := by
  cases object with
  | object i =>
    rw [Eval.setProperty]
    exact .bind (ih (.expr e) ⟨ctx, h⟩) fun v hv => .bind (.setField hv) fun _ _ => .pure hv
  | _ => exact .fail

/-! ## Properties and calls -/

theorem property_succ {object : Value} (name : Name) (h : object.Every P) :
    Preserves P (Value.Every P) (property (n + 1) object name) := by
  cases object with
  | object i =>
    rw [Eval.property]
    refine .bind (.field? i name.text) fun found hfound => ?_
    cases found with
    | some v => exact .pure (hfound v rfl)
    | none =>
      cases hf : i.cls.method? name.text with
      | none => exact .fail
      | some f => exact ih (.methodOf f.closure i name.line) ⟨Class.Every.method h hf, h⟩
  | klass c =>
    rw [Eval.property]
    cases hf : c.static? name.text with
    | none => exact .fail
    | some f =>
      dsimp only
      split
      · exact ih (.enter f.closure [] name.line) ⟨Class.Every.static h hf, nofun⟩
      · exact .pure (Class.Every.static h hf)
  | _ => exact .fail

theorem superProperty_succ (id : NodeId) (line : Nat) (method : Name) :
    Preserves P (Value.Every P) (superProperty (n + 1) id line method) := by
  rw [Eval.superProperty]
  refine .bind (.superClass id line) fun c hc => .bind (.superReceiver id line) fun i hi => ?_
  cases hf : c.method? method.text with
  | none => exact .fail
  | some f => exact ih (.methodOf f.closure i method.line) ⟨hc.method hf, hi⟩

theorem methodOf_succ {c : Closure} {i : Instance} (line : Nat) (hc : c.Every P) (hi : i.cls.Every P) :
    Preserves P (Value.Every P) (methodOf (n + 1) c i line) := by
  rw [Eval.methodOf]
  refine .bind (.bindThis hc hi) fun bound hbound => ?_
  split
  · exact ih (.enter bound [] line) ⟨hbound, nofun⟩
  · exact .bind .freshSerial fun _ _ => .pure ⟨hi, hbound⟩

theorem call_succ {f : Value} {args : List Value} (line : Nat) (hf : f.Every P) (hargs : ∀ v ∈ args, v.Every P) :
    Preserves P (Value.Every P) (call (n + 1) f args line) := by
  rw [Eval.call]
  cases hcallee : f.callee? with
  | none => exact .fail
  | some callee =>
    dsimp only
    split
    · exact ih (.apply callee args line) ⟨hf.callee hcallee, hargs⟩
    · exact .fail

theorem apply_succ {f : Callee} {args : List Value} (line : Nat) (hf : f.Every P) (hargs : ∀ v ∈ args, v.Every P) :
    Preserves P (Value.Every P) (apply (n + 1) f args line) := by
  cases f with
  | native fn =>
    rw [Eval.apply]
    exact .callNative fn args line
  | closure c =>
    rw [Eval.apply]
    exact ih (.enter c args line) ⟨hf, hargs⟩
  | construct c =>
    rw [Eval.apply]
    refine .bind (.newInstance hf) fun i hi => ?_
    cases hinit : c.initializer? with
    | none => exact .pure hi
    | some f =>
      refine .bind (.bindThis (Class.Every.initializer hf hinit) hi) fun bound hbound => ?_
      exact .bind (ih (.enter bound args line) ⟨hbound, hargs⟩) fun _ _ => .pure hi

theorem runBody_succ {c : Closure} {args : List Value} (hc : c.Every P) (hargs : ∀ v ∈ args, v.Every P) :
    Preserves P (Value.Every P) (runBody (n + 1) c args) := by
  rw [Eval.runBody]
  refine .bind (.newFrame c.env fun x v hv => hargs v (mem_of_argumentFrame hv)) fun env _ => ?_
  obtain ⟨ctx, hbody⟩ := hc.body
  refine .bind (.within (ih (.stmts c.routine.body) ⟨_, hbody⟩)) fun flow hflow => ?_
  split
  · exact .receiverOf c
  · exact .pure hflow.result

/-! ## Statements -/

theorem stmt_succ {st : Stmt} {ctx : Context} (h : st.Every P ctx) : Preserves P (Flow.Every P) (execute (n + 1) st) := by
  cases st with
  | expr e =>
    rw [Eval.execute]
    exact .bind (ih (.expr e) ⟨ctx, h.2⟩) fun _ _ => .pure trivial
  | print e =>
    rw [Eval.execute]
    exact .bind (ih (.expr e) ⟨ctx, h.2⟩) fun v _ => .bind (.writeLine _ _) fun _ _ => .pure trivial
  | varDecl name init =>
    cases init with
    | none =>
      rw [Eval.execute]
      exact .bind (.define (v := .nil) trivial) fun _ _ => .pure trivial
    | some e =>
      rw [Eval.execute]
      exact .bind (ih (.expr e) ⟨ctx, h.2⟩) fun v hv => .bind (.define hv) fun _ _ => .pure trivial
  | block sts =>
    rw [Eval.execute]
    refine .bind (Q := fun _ => True) (.read fun _ _ => trivial) fun here _ => ?_
    refine .bind (.newFrame here fun _ _ hv => by cases hv) fun env _ => ?_
    exact .within (ih (.stmts sts) ⟨ctx, h.2⟩)
  | branch c st st' =>
    cases st' with
    | none =>
      rw [Eval.execute]
      refine .bind (ih (.expr c) ⟨ctx, h.condition⟩) fun v _ => ?_
      split
      · exact ih (.stmt st) ⟨ctx, h.thenBranch⟩
      · exact .pure trivial
    | some st' =>
      rw [Eval.execute]
      refine .bind (ih (.expr c) ⟨ctx, h.condition⟩) fun v _ => ?_
      split
      · exact ih (.stmt st) ⟨ctx, h.thenBranch⟩
      · exact ih (.stmt st') ⟨ctx, h.2.2.2⟩
  | loop c st =>
    rw [Eval.execute]
    exact ih (.loop c st) ⟨ctx, h.2⟩
  | funDecl name r =>
    rw [Eval.execute]
    refine .bind (.closureHere h.2) fun c hc => .bind (.newFunction hc) fun f hf => ?_
    exact .bind (.define (v := .function f) hf) fun _ _ => .pure trivial
  | returns form line e =>
    cases e with
    | none => exact .pure (a := Flow.returned .nil) trivial
    | some e =>
      rw [Eval.execute]
      exact .bind (ih (.expr e) ⟨ctx, h.2⟩) fun v hv => .pure hv
  | breaks line => exact .pure (a := Flow.broke) trivial
  | classDecl name ref ms ss =>
    rw [Eval.execute]
    refine .bind (ih (.superclass name ref) trivial) fun parent hparent => .bind (.define (v := .nil) trivial) fun _ _ => ?_
    refine .bind (.newClass hparent h.2.1 h.2.2) fun c hc => .bind (.overwrite (v := .klass c) hc) fun _ _ => .pure trivial

theorem stmts_succ {sts : List Stmt} {ctx : Context} (h : EveryStmts P sts ctx) :
    Preserves P (Flow.Every P) (executeAll (n + 1) sts) := by
  cases sts with
  | nil => exact .pure (a := Flow.completed) trivial
  | cons st sts =>
    rw [Eval.executeAll]
    refine .bind (ih (.stmt st) ⟨ctx, h.1⟩) fun flow hflow => ?_
    cases flow with
    | completed => exact ih (.stmts sts) ⟨ctx, h.2⟩
    | returned v => exact .pure hflow
    | broke => exact .pure hflow

theorem loop_succ {c : Expr} {st : Stmt} {ctx : Context} (hc : c.Every P ctx) (hst : st.Every P ctx.loop) :
    Preserves P (Flow.Every P) (repeatWhile (n + 1) c st) := by
  rw [Eval.repeatWhile]
  refine .bind (ih (.expr c) ⟨ctx, hc⟩) fun v _ => ?_
  split
  · refine .bind (ih (.stmt st) ⟨ctx.loop, hst⟩) fun flow hflow => ?_
    cases flow with
    | completed => exact ih (.loop c st) ⟨ctx, hc, hst⟩
    | returned v => exact .pure hflow
    | broke => exact .pure trivial
  · exact .pure trivial

end PreservesWith

theorem preserves (P : Context → Stmt → Prop) : ∀ n, PreservesWith P n
  | 0, a, _ => by
    intro m _
    rw [Activity.run_zero]
    trivial
  | n + 1, a, h => by
    have ih := preserves P n
    cases a with
    | expr e => obtain ⟨ctx, h⟩ := h; exact ih.expr_succ h
    | exprs es => obtain ⟨ctx, h⟩ := h; exact ih.exprs_succ h
    | setProperty object name value => obtain ⟨_, ctx, h⟩ := h; exact ih.setProperty_succ h
    | property object name => exact ih.property_succ name h
    | superProperty id line method => exact ih.superProperty_succ id line method
    | methodOf c i line => exact ih.methodOf_succ line h.1 h.2
    | call v args line => exact ih.call_succ line h.1 h.2
    | apply f args line => exact ih.apply_succ line h.1 h.2
    | enter c args line => exact .asCall (ih (.runBody c args) h)
    | runBody c args => exact ih.runBody_succ h.1 h.2
    | stmt st => obtain ⟨ctx, h⟩ := h; exact ih.stmt_succ h
    | superclass cls ref => exact .superclass ref
    | stmts sts => obtain ⟨ctx, h⟩ := h; exact ih.stmts_succ h
    | loop c st => obtain ⟨ctx, hc, hst⟩ := h; exact ih.loop_succ hc hst

end Eval

/-! ## Moments -/

namespace Moment

open Eval

variable {x y : Moment} {n : Nat} {m m' : Machine}

theorem after {a : Activity} {r : a.Result} (hr : a.run n m = .done r m') (h : Moment.Every P ⟨n, a, m⟩) :
    m'.Every P ∧ a.Gives P r := (preserves P n a h.1).of_done h.2 hr

theorem Every.calls (h : x.Every P) (hc : x.Calls y) : y.Every P := by
  obtain ⟨h, hm⟩ := h
  cases hc with
  | unary | group | assigned | getObject => exact ⟨h, hm⟩
  | binaryLeft | logicalLeft | callee | setObject | head =>
    obtain ⟨ctx, h⟩ := h
    exact ⟨⟨ctx, h.1⟩, hm⟩
  | binaryRight hv | logicalRight hv _ =>
    obtain ⟨ctx, h⟩ := h
    exact ⟨⟨ctx, h.2⟩, (after (a := .expr _) hv ⟨⟨ctx, h.1⟩, hm⟩).1⟩
  | arguments hv =>
    obtain ⟨ctx, h⟩ := h
    exact ⟨⟨ctx, h.2⟩, (after (a := .expr _) hv ⟨⟨ctx, h.1⟩, hm⟩).1⟩
  | call hv hvs =>
    obtain ⟨ctx, h⟩ := h
    obtain ⟨hm, hf⟩ := after (a := .expr _) hv ⟨⟨ctx, h.1⟩, hm⟩
    obtain ⟨hm, hargs⟩ := after (a := .exprs _) hvs ⟨⟨ctx, h.2⟩, hm⟩
    exact ⟨⟨hf, hargs⟩, hm⟩
  | get hv =>
    obtain ⟨hm, hobject⟩ := after (a := .expr _) hv ⟨h, hm⟩
    exact ⟨hobject, hm⟩
  | set hv =>
    obtain ⟨ctx, h⟩ := h
    obtain ⟨hm, hobject⟩ := after (a := .expr _) hv ⟨⟨ctx, h.1⟩, hm⟩
    exact ⟨⟨hobject, ctx, h.2⟩, hm⟩
  | super => exact ⟨trivial, hm⟩
  | tail hv =>
    obtain ⟨ctx, h⟩ := h
    exact ⟨⟨ctx, h.2⟩, (after (a := .expr _) hv ⟨⟨ctx, h.1⟩, hm⟩).1⟩
  | fieldValue => exact ⟨h.2, hm⟩
  | method _ hf => exact ⟨⟨Class.Every.method h hf, h⟩, hm⟩
  | staticGetter hf _ => exact ⟨⟨Class.Every.static h hf, nofun⟩, hm⟩
  | superMethod hcls hi hf =>
    obtain ⟨-, hcls⟩ := (Preserves.superClass _ _).of_done hm hcls
    obtain ⟨-, hi⟩ := (Preserves.superReceiver _ _).of_done hm hi
    exact ⟨⟨hcls.method hf, hi⟩, hm⟩
  | getter hbound _ =>
    obtain ⟨hm, hbound⟩ := (Preserves.bindThis h.1 h.2).of_done hm hbound
    exact ⟨⟨hbound, nofun⟩, hm⟩
  | apply hf _ => exact ⟨⟨h.1.callee hf, h.2⟩, hm⟩
  | closure => exact ⟨h, hm⟩
  | initializer hinst hf hbound =>
    obtain ⟨hm, hi⟩ := (Preserves.newInstance h.1).of_done hm hinst
    obtain ⟨hm, hbound⟩ := (Preserves.bindThis (Class.Every.initializer h.1 hf) hi).of_done hm hbound
    exact ⟨⟨hbound, h.2⟩, hm⟩
  | enter _ => exact ⟨h, hm⟩
  | body hframe =>
    obtain ⟨ctx, hbody⟩ := h.1.body
    obtain ⟨hm, -⟩ := (Preserves.newFrame _ fun x v hv => h.2 v (mem_of_argumentFrame hv)).of_done hm hframe
    exact ⟨⟨_, hbody⟩, hm⟩
  | statement | print | varDecl | returns =>
    obtain ⟨ctx, h⟩ := h
    exact ⟨⟨ctx, h.2⟩, hm⟩
  | block hframe =>
    obtain ⟨ctx, h⟩ := h
    obtain ⟨hm, -⟩ := (Preserves.newFrame _ fun _ _ hv => by cases hv).of_done hm hframe
    exact ⟨⟨ctx, h.2⟩, hm⟩
  | condition =>
    obtain ⟨ctx, h⟩ := h
    exact ⟨⟨ctx, h.condition⟩, hm⟩
  | thenBranch hv _ =>
    obtain ⟨ctx, h⟩ := h
    exact ⟨⟨ctx, h.thenBranch⟩, (after (a := .expr _) hv ⟨⟨ctx, h.condition⟩, hm⟩).1⟩
  | elseBranch hv _ =>
    obtain ⟨ctx, h⟩ := h
    exact ⟨⟨ctx, h.2.2.2⟩, (after (a := .expr _) hv ⟨⟨ctx, h.condition⟩, hm⟩).1⟩
  | loop =>
    obtain ⟨ctx, h⟩ := h
    exact ⟨⟨ctx, h.2⟩, hm⟩
  | superclass => exact ⟨trivial, hm⟩
  | first =>
    obtain ⟨ctx, h⟩ := h
    exact ⟨⟨ctx, h.1⟩, hm⟩
  | rest hf =>
    obtain ⟨ctx, h⟩ := h
    exact ⟨⟨ctx, h.2⟩, (after (a := .stmt _) hf ⟨⟨ctx, h.1⟩, hm⟩).1⟩
  | loopCondition =>
    obtain ⟨ctx, hc, -⟩ := h
    exact ⟨⟨ctx, hc⟩, hm⟩
  | loopBody hv _ =>
    obtain ⟨ctx, hc, hst⟩ := h
    exact ⟨⟨ctx.loop, hst⟩, (after (a := .expr _) hv ⟨⟨ctx, hc⟩, hm⟩).1⟩
  | again hv _ hf =>
    obtain ⟨ctx, hc, hst⟩ := h
    obtain ⟨hm, -⟩ := after (a := .expr _) hv ⟨⟨ctx, hc⟩, hm⟩
    exact ⟨⟨ctx, hc, hst⟩, (after (a := .stmt _) hf ⟨⟨ctx.loop, hst⟩, hm⟩).1⟩

theorem Every.reaches (h : x.Every P) (hr : x.Reaches y) : y.Every P := by
  induction hr with
  | refl => exact h
  | step hc _ ih => exact ih (h.calls hc)

end Moment

end Lox
