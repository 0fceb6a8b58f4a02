import Lox.Proofs.Evaluation.Receivers
import Lox.Proofs.Evaluation.Stored

/-!
# Where values come from

Besides simple values a program can come to nothing but functions, classes, instances and bound methods that were made in some
moment of the evaluation, and to what belongs to these.
-/

namespace Lox

open Eval

/-- The value is simple, was made in one of the moments, or belongs to such a value. -/
inductive Arises (met : Moment → Prop) : Value → Prop where
  | nil : Arises met .nil
  | bool {b} : Arises met (.bool b)
  | number {x} : Arises met (.number x)
  | string {s} : Arises met (.string s)
  | native {fn} : Arises met (.native fn)
  | function {x c serial} : met x → x.MakesFunction c → Arises met (.function ⟨serial, c⟩)
  | klass {x parent c} : met x → x.Declares parent c → (∀ k ∈ parent, Arises met (.klass k)) → Arises met (.klass c)
  | object {n c args line m i m'} : met ⟨n + 1, .apply (.construct c) args line, m⟩ → newInstance c m = .done i m' →
    Arises met (.klass c) → Arises met (.object i)
  | bound {x k name f o b serial} : met x → x.Binds f.closure o b → Arises met (.klass k) → k.method? name = some f →
    Arises met (.object o) → Arises met (.bound ⟨serial, o, b⟩)
  | cls {o} : Arises met (.object o) → Arises met (.klass o.cls)
  | superclass {c layer rest} : Arises met (.klass c) → c.ancestors = layer :: rest → Arises met (.klass ⟨layer, rest⟩)
  | static {c name f} : Arises met (.klass c) → c.static? name = some f → Arises met (.function f)
  | receiver {b} : Arises met (.bound b) → Arises met (.object b.receiver)

section
variable {met : Moment → Prop}

theorem Arises.mono {met' : Moment → Prop} {v : Value} (h : Arises met v) (hm : ∀ x, met x → met' x) : Arises met' v := by
  induction h with
  | nil => exact .nil
  | bool => exact .bool
  | number => exact .number
  | string => exact .string
  | native => exact .native
  | function hx hc => exact .function (hm _ hx) hc
  | klass hx hc _ ih => exact .klass (hm _ hx) hc ih
  | object hx hi _ ih => exact .object (hm _ hx) hi ih
  | bound hx hb _ hf _ ihk iho => exact .bound (hm _ hx) hb ihk hf iho
  | cls _ ih => exact .cls ih
  | superclass _ hc ih => exact .superclass ih hc
  | static _ hf ih => exact .static ih hf
  | receiver _ ih => exact .receiver ih

theorem Arises.literal (v : Literal) : Arises met (.ofLiteral v) := by
  cases v <;> constructor

theorem Mark.applyUnary_arises {op : Mark} {v u : Value} (h : op.applyUnary v = .ok u) : Arises met u := by
  unfold Mark.applyUnary at h
  split at h <;> cases h <;> constructor

theorem Mark.onNumbers_arises {op : Mark} {x y : Float} {u : Value} (h : op.onNumbers x y = .ok u) : Arises met u := by
  unfold Mark.onNumbers at h
  split at h
  case h_4 | h_5 => split at h <;> cases h; constructor
  all_goals cases h
  all_goals constructor

theorem Mark.applyBinary_arises {op : Mark} {v w u : Value} (h : op.applyBinary v w = .ok u) : Arises met u := by
  unfold Mark.applyBinary at h
  split at h
  case h_4 => exact Mark.onNumbers_arises h
  all_goals cases h
  all_goals constructor

end

section
variable (met : Moment → Prop)

/-- The function is a method of a class that has arisen. -/
def Closure.IsMethod (c : Closure) : Prop := ∃ k name f, Arises met (.klass k) ∧ k.method? name = some f ∧ f.closure = c

def Callee.Arises : Callee → Prop
  | .native _ => True
  | .closure _ => True
  | .construct c => Lox.Arises met (.klass c)

def Flow.Arises : Flow → Prop
  | .completed => True
  | .returned v => Lox.Arises met v
  | .broke => True

/-- The values at hand have arisen. -/
def Activity.Arises : Activity → Prop
  | .setProperty object _ _ => Lox.Arises met object
  | .property object _ => Lox.Arises met object
  | .methodOf c i _ => c.IsMethod met ∧ Lox.Arises met (.object i)
  | .call v arguments _ => Lox.Arises met v ∧ ∀ v ∈ arguments, Lox.Arises met v
  | .apply f arguments _ => f.Arises met ∧ ∀ v ∈ arguments, Lox.Arises met v
  | .enter _ arguments _ => ∀ v ∈ arguments, Lox.Arises met v
  | .runBody _ arguments => ∀ v ∈ arguments, Lox.Arises met v
  | _ => True

/-- The results have arisen. -/
def Activity.Yields : (a : Activity) → a.Result → Prop
  | .expr _, v => Lox.Arises met v
  | .exprs _, vs => ∀ v ∈ (show List Value from vs), Lox.Arises met v
  | .setProperty _ _ _, v => Lox.Arises met v
  | .property _ _, v => Lox.Arises met v
  | .superProperty _ _ _, v => Lox.Arises met v
  | .methodOf _ _ _, v => Lox.Arises met v
  | .call _ _ _, v => Lox.Arises met v
  | .apply _ _ _, v => Lox.Arises met v
  | .enter _ _ _, v => Lox.Arises met v
  | .runBody _ _, v => Lox.Arises met v
  | .stmt _, flow => Flow.Arises met flow
  | .superclass _ _, parent => ∀ k ∈ (show Option Class from parent), Lox.Arises met (.klass k)
  | .stmts _, flow => Flow.Arises met flow
  | .loop _ _, flow => Flow.Arises met flow

/-- All values that there are have arisen, those at hand and those in the store. -/
def Moment.Arisen (x : Moment) : Prop := x.activity.Arises met ∧ x.machine.store.Holds (Arises met)

end

variable {met : Moment → Prop}

theorem Flow.Arises.result : ∀ {flow : Flow}, flow.Arises met → Lox.Arises met flow.result
  | .completed, _ => .nil
  | .returned _, h => h
  | .broke, _ => .nil

theorem Arises.callee {v : Value} {f : Callee} (h : Arises met v) (hf : v.callee? = some f) : f.Arises met := by
  cases v <;> cases hf
  case klass => exact h
  all_goals trivial

theorem Arises.isMethod {k : Class} {name : String} {f : FunctionObject} (h : Arises met (.klass k))
    (hf : k.method? name = some f) : f.closure.IsMethod met := ⟨k, name, f, h, hf, rfl⟩

/-! ## More moments -/

section
variable {met' : Moment → Prop} (hm : ∀ x, met x → met' x)
include hm

theorem Callee.Arises.mono : ∀ {f : Callee}, f.Arises met → f.Arises met'
  | .native _, _ => trivial
  | .closure _, _ => trivial
  | .construct _, h => Lox.Arises.mono h hm

theorem Activity.Arises.mono {a : Activity} (h : a.Arises met) : a.Arises met' := by
  have all : ∀ {args : List Value}, (∀ v ∈ args, Lox.Arises met v) → ∀ v ∈ args, Lox.Arises met' v :=
    fun h v hv => (h v hv).mono hm
  cases a with
  | setProperty | property => exact Lox.Arises.mono h hm
  | methodOf =>
    obtain ⟨⟨k, name, f, hk, hf⟩, hi⟩ := h
    exact ⟨⟨k, name, f, hk.mono hm, hf⟩, hi.mono hm⟩
  | call => exact ⟨h.1.mono hm, all h.2⟩
  | apply => exact ⟨h.1.mono hm, all h.2⟩
  | enter | runBody => exact all h
  | _ => trivial

theorem Moment.Arisen.mono {x : Moment} (h : x.Arisen met) : x.Arisen met' :=
  ⟨h.1.mono hm, h.2.imp fun _ hv => hv.mono hm⟩

end

/-! ## Evaluations -/

/-- A run with that fuel on a moment that is met gives and leaves values that have arisen, if it finds such values. -/
def YieldsWith (met : Moment → Prop) (n : Nat) : Prop :=
  ∀ a m, met ⟨n, a, m⟩ → a.Arises met → Leaves (Arises met) (a.Yields met) (a.run n) m

section
variable {n : Nat} (hcalls : ∀ {x y : Moment}, met x → x.Calls y → met y) (ih : YieldsWith met n) {m : Machine}
include hcalls ih

namespace YieldsWith

theorem call {x : Moment} (hx : met x) {a : Activity} {m : Machine} (hc : x.Calls ⟨n, a, m⟩) (ha : a.Arises met) :
    Leaves (Arises met) (a.Yields met) (a.run n) m := ih a m (hcalls hx hc) ha

/-! ## Expressions -/

theorem expr_succ {e : Expr} (hx : met ⟨n + 1, .expr e, m⟩) :
    Leaves (Arises met) (Arises met) (Access.evaluate .resolved (fun a => a.run n) e) m := by
  have call := @call _ _ hcalls ih _ hx
  cases e with
  | literal v => exact .pure (.literal v)
  | unary op line e => exact .bind (call .unary trivial) fun _ _ _ _ => .ofExcept fun _ => Mark.applyUnary_arises
  | binary op line l r =>
    exact .bind (call .binaryLeft trivial) fun _ _ hv _ => .bind (call (.binaryRight hv) trivial) fun _ _ _ _ =>
      .ofExcept fun _ => Mark.applyBinary_arises
  | logical op line l r =>
    exact .bind (call .logicalLeft trivial) fun _ _ hv hval => .ite (fun _ => .pure hval)
      fun hs => call (.logicalRight hv (by simpa using hs)) trivial
  | group e => exact call .group trivial
  | var id name => exact .lookUp id name
  | assign id name e =>
    exact .bind (call .assigned trivial) fun _ _ _ hv => .bind (.assign hv) fun _ _ _ _ => .pure hv
  | call f line args =>
    exact .bind (call .callee trivial) fun _ _ hf hfun => .bind (call (.arguments hf) trivial) fun _ _ hvs hargs =>
      call (.call hf hvs) ⟨hfun, hargs⟩
  | lambda line r =>
    refine .bind (Q := fun _ => True) (.read fun _ => trivial) fun c _ hc _ => .bind (.newFunction c) fun f _ _ hf => ?_
    subst hf
    exact .pure (.function hx (.lambda hc))
  | get e name => exact .bind (call .getObject trivial) fun _ _ hv hobject => call (.get hv) hobject
  | set e name value => exact .bind (call .setObject trivial) fun _ _ hv hobject => call (.set hv) hobject
  | this id line => exact .lookUp id _
  | super id line method => exact call .super trivial

theorem exprs_succ {es : List Expr} (hx : met ⟨n + 1, .exprs es, m⟩) :
    Leaves (Arises met) (fun vs => ∀ v ∈ vs, Arises met v) (Access.evaluateAll (fun a => a.run n) es) m := by
  have call := @call _ _ hcalls ih _ hx
  cases es with
  | nil => exact .pure nofun
  | cons e es =>
    exact .bind (call .head trivial) fun _ _ hv hval => .bind (call (.tail hv) trivial) fun _ _ _ hvals =>
      .pure (List.forall_mem_cons.mpr ⟨hval, hvals⟩)

theorem setProperty_succ {object : Value} {name : Name} {e : Expr} (hx : met ⟨n + 1, .setProperty object name e, m⟩) :
    Leaves (Arises met) (Arises met) (Access.setProperty (fun a => a.run n) object name e) m := by
  have call := @call _ _ hcalls ih _ hx
  cases object with
  | object i => exact .bind (call .fieldValue trivial) fun _ _ _ hv => .bind (.setField hv) fun _ _ _ _ => .pure hv
  | _ => exact .fail

/-! ## Properties and calls -/

theorem property_succ {object : Value} {name : Name} (hx : met ⟨n + 1, .property object name, m⟩) (ho : Arises met object) :
    Leaves (Arises met) (Arises met) (Access.property (fun a => a.run n) object name) m := by
  have call := @call _ _ hcalls ih _ hx
  cases object with
  | object i =>
    refine .bind (.field? i name.text) fun found m' hfound hv => ?_
    obtain ⟨rfl, rfl⟩ := Outcome.done.inj hfound
    refine .ofOption (fun hnone => .ofOption (fun _ => .fail) fun f hf => ?_) fun v hsome => .pure (hv v hsome)
    exact call (.method hnone hf) ⟨ho.cls.isMethod hf, ho⟩
  | klass c =>
    refine .ofOption (fun _ => .fail) fun f hf => .ite (fun hg => ?_) fun _ => .pure (.static ho hf)
    exact call (.staticGetter hf hg) nofun
  | _ => exact .fail

theorem superProperty_succ {id : NodeId} {line : Nat} {method : Name} (hx : met ⟨n + 1, .superProperty id line method, m⟩) :
    Leaves (Arises met) (Arises met) (Access.superProperty (fun a => a.run n) id line method) m := by
  have call := @call _ _ hcalls ih _ hx
  refine .bind (.superClass id line) fun c m₁ hc hcls => .bind (.superReceiver id line) fun i m₂ hi hrec => ?_
  obtain rfl := superClass_same hc
  obtain rfl := superReceiver_same hi
  exact .ofOption (fun _ => .fail) fun f hf => call (.superMethod hc hi hf) ⟨hcls.isMethod hf, hrec⟩

theorem methodOf_succ {c : Closure} {i : Instance} {line : Nat} (hx : met ⟨n + 1, .methodOf c i line, m⟩)
    (hc : c.IsMethod met) (hi : Arises met (.object i)) :
    Leaves (Arises met) (Arises met) (Access.methodOf (fun a => a.run n) c i line) m := by
  have call := @call _ _ hcalls ih _ hx
  obtain ⟨k, name, f, hk, hf, rfl⟩ := hc
  refine .bind (.bindThis hi) fun b _ hb _ => .ite (fun hg => call (.getter hb hg) nofun) fun _ => ?_
  exact .bind .freshSerial fun _ _ _ _ => .pure (.bound hx (.access hb) hk hf hi)

theorem call_succ {v : Value} {args : List Value} {line : Nat} (hx : met ⟨n + 1, .call v args line, m⟩) (hv : Arises met v)
    (hargs : ∀ v ∈ args, Arises met v) : Leaves (Arises met) (Arises met) (Access.call (fun a => a.run n) v args line) m := by
  have call := @call _ _ hcalls ih _ hx
  exact .ofOption (fun _ => .fail) fun f hf => .ite (fun hl => call (.apply hf hl) ⟨hv.callee hf, hargs⟩) fun _ => .fail

theorem apply_succ {f : Callee} {args : List Value} {line : Nat} (hx : met ⟨n + 1, .apply f args line, m⟩) (hf : f.Arises met)
    (hargs : ∀ v ∈ args, Arises met v) : Leaves (Arises met) (Arises met) (Access.apply (fun a => a.run n) f args line) m := by
  have call := @call _ _ hcalls ih _ hx
  cases f with
  | native fn => exact .callNative .nil (fun _ => .number) (fun _ => .string) fn args line
  | closure c => exact call .closure hargs
  | construct c =>
    refine .bind (.newInstance c) fun i _ hi _ => ?_
    have ho : Arises met (.object i) := .object hx hi hf
    refine .ofOption (fun _ => .pure ho) fun f hinit => .bind (.bindThis ho) fun b _ hb _ => ?_
    exact .bind (call (.initializer hi hinit hb) hargs) fun _ _ _ _ => .pure ho

theorem runBody_succ {c : Closure} {args : List Value} (hx : met ⟨n + 1, .runBody c args, m⟩)
    (hargs : ∀ v ∈ args, Arises met v) : Leaves (Arises met) (Arises met) (Access.runBody (fun a => a.run n) c args) m := by
  have call := @call _ _ hcalls ih _ hx
  refine .bind (.newFrame fun x v hv => hargs v (mem_of_argumentFrame hv)) fun env _ hframe _ => ?_
  refine .bind (.within (call (.body hframe) trivial)) fun flow _ _ hflow => .ite (fun _ => .receiverOf c) fun _ => ?_
  exact .pure (Flow.Arises.result hflow)

/-! ## Statements -/

theorem stmt_succ {st : Stmt} (hx : met ⟨n + 1, .stmt st, m⟩) :
    Leaves (Arises met) (Flow.Arises met) (Access.execute (fun a => a.run n) st) m := by
  have call := @call _ _ hcalls ih _ hx
  cases st with
  | expr e => exact .bind (call .statement trivial) fun _ _ _ _ => .pure trivial
  | print e => exact .bind (call .print trivial) fun _ _ _ _ => .bind (.writeLine _ _) fun _ _ _ _ => .pure trivial
  | varDecl name init =>
    cases init with
    | none => exact .bind (.define .nil) fun _ _ _ _ => .pure trivial
    | some e => exact .bind (call .varDecl trivial) fun _ _ _ hv => .bind (.define hv) fun _ _ _ _ => .pure trivial
  | block body =>
    refine .bind (Q := fun _ => True) (.read fun _ => trivial) fun _ _ hhere _ => ?_
    obtain ⟨rfl, rfl⟩ := Outcome.done.inj hhere
    exact .bind (.newFrame nofun) fun _ _ hframe _ => .within (call (a := .stmts body) (.block hframe) trivial)
  | branch c st st' =>
    cases st' with
    | none =>
      exact .bind (call .condition trivial) fun _ _ hv _ => .ite (fun ht => call (.thenBranch hv ht) trivial)
        fun _ => .pure trivial
    | some st' =>
      exact .bind (call .condition trivial) fun _ _ hv _ => .ite (fun ht => call (.thenBranch hv ht) trivial)
        fun hf => call (.elseBranch hv (by simpa using hf)) trivial
  | loop c body => exact call .loop trivial
  | funDecl name r =>
    refine .bind (Q := fun _ => True) (.read fun _ => trivial) fun c _ hc _ => .bind (.newFunction c) fun f _ _ hf => ?_
    subst hf
    exact .bind (.define (.function hx (.funDecl hc))) fun _ _ _ _ => .pure trivial
  | returns form line e =>
    cases e with
    | none => exact .pure .nil
    | some e => exact .bind (call .returns trivial) fun _ _ _ hv => .pure hv
  | breaks line => exact .pure trivial
  | classDecl name ref ms ss =>
    refine .bind (call .superclass trivial) fun parent _ hp hparent => .bind (.define .nil) fun _ _ hd _ => ?_
    refine .bind (.newClass hparent) fun c _ hc _ => ?_
    exact .bind (.overwrite (.klass hx (.classDecl hp hd hc) hparent)) fun _ _ _ _ => .pure trivial

theorem stmts_succ {sts : List Stmt} (hx : met ⟨n + 1, .stmts sts, m⟩) :
    Leaves (Arises met) (Flow.Arises met) (Access.executeAll (fun a => a.run n) sts) m := by
  have call := @call _ _ hcalls ih _ hx
  cases sts with
  | nil => exact .pure trivial
  | cons st sts =>
    refine .bind (call .first trivial) fun flow _ hflow harises => ?_
    cases flow with
    | completed => exact call (.rest hflow) trivial
    | returned v => exact .pure harises
    | broke => exact .pure trivial

theorem loop_succ {c : Expr} {body : Stmt} (hx : met ⟨n + 1, .loop c body, m⟩) :
    Leaves (Arises met) (Flow.Arises met) (Access.repeatWhile (fun a => a.run n) c body) m := by
  have call := @call _ _ hcalls ih _ hx
  refine .bind (call .loopCondition trivial) fun v _ hv _ => .ite (fun ht => ?_) fun _ => .pure trivial
  refine .bind (call (.loopBody hv ht) trivial) fun flow _ hflow harises => ?_
  cases flow with
  | completed => exact call (.again hv ht hflow) trivial
  | returned v => exact .pure harises
  | broke => exact .pure trivial

omit hcalls ih in
theorem superclass_succ (ref : Option Reference) :
    Leaves (Arises met) (fun parent => ∀ k ∈ parent, Arises met (.klass k)) (Access.evaluateSuperclass .resolved ref) m := by
  cases ref with
  | none => exact .pure nofun
  | some ref =>
    refine .bind (.lookUp ref.id ref.name) fun v _ _ hv => ?_
    cases v with
    | klass c => exact .pure fun _ hc => by cases hc; exact hv
    | _ => exact .fail

end YieldsWith

end

/-- What a moment that is met gives and leaves has arisen in such moments. -/
theorem yields (hcalls : ∀ {x y : Moment}, met x → x.Calls y → met y) : ∀ n, YieldsWith met n
  | 0, a, m, _, _ => by
    intro _
    rw [Activity.run_zero]
    trivial
  | n + 1, a, m, hx, ha => by
    have ih := yields hcalls n
    intro hm
    rw [Activity.run_succ]
    revert hm
    cases a with
    | expr e => exact ih.expr_succ hcalls hx
    | exprs es => exact ih.exprs_succ hcalls hx
    | setProperty object name e => exact ih.setProperty_succ hcalls hx
    | property object name => exact ih.property_succ hcalls hx ha
    | superProperty id line method => exact ih.superProperty_succ hcalls hx
    | methodOf c i line => exact ih.methodOf_succ hcalls hx ha.1 ha.2
    | call v args line => exact ih.call_succ hcalls hx ha.1 ha.2
    | apply f args line => exact ih.apply_succ hcalls hx ha.1 ha.2
    | enter c args line => exact Leaves.asCall fun hd => ih.call hcalls hx (.enter hd) ha
    | runBody c args => exact ih.runBody_succ hcalls hx ha
    | stmt st => exact ih.stmt_succ hcalls hx
    | superclass cls ref => exact YieldsWith.superclass_succ ref
    | stmts sts => exact ih.stmts_succ hcalls hx
    | loop c body => exact ih.loop_succ hcalls hx

/-! ## Moments -/

namespace Moment

variable (hcalls : ∀ {x y : Moment}, met x → x.Calls y → met y) {x y : Moment} (hx : met x)
include hcalls hx

theorem Calls.arising {n : Nat} {a : Activity} {m m' : Machine} {v : a.Result} (hc : x.Calls ⟨n, a, m⟩) (ha : a.Arises met)
    (hm : m.store.Holds (Arises met)) (hv : a.run n m = .done v m') : m'.store.Holds (Arises met) ∧ a.Yields met v :=
  (yields hcalls n a m (hcalls hx hc) ha).of_done hm hv

/-- From values that have arisen a moment turns to others that have. -/
theorem Arisen.calls (h : x.Arisen met) (hc : x.Calls y) : y.Arisen met := by
  obtain ⟨ha, hm⟩ := h
  cases hc with
  | unary | binaryLeft | logicalLeft | group | assigned | callee | getObject | setObject | super | head | fieldValue
  | statement | print | varDecl | condition | loop | returns | superclass | first | loopCondition => exact ⟨trivial, hm⟩
  | binaryRight hv => exact ⟨trivial, (Calls.arising (a := .expr _) hcalls hx .binaryLeft trivial hm hv).1⟩
  | logicalRight hv _ => exact ⟨trivial, (Calls.arising (a := .expr _) hcalls hx .logicalLeft trivial hm hv).1⟩
  | arguments hv => exact ⟨trivial, (Calls.arising (a := .expr _) hcalls hx .callee trivial hm hv).1⟩
  | call hv hvs =>
    obtain ⟨hm, hf⟩ := Calls.arising (a := .expr _) hcalls hx .callee trivial hm hv
    obtain ⟨hm, hargs⟩ := Calls.arising (a := .exprs _) hcalls hx (.arguments hv) trivial hm hvs
    exact ⟨⟨hf, hargs⟩, hm⟩
  | get hv =>
    obtain ⟨hm, hobject⟩ := Calls.arising (a := .expr _) hcalls hx .getObject trivial hm hv
    exact ⟨hobject, hm⟩
  | set hv =>
    obtain ⟨hm, hobject⟩ := Calls.arising (a := .expr _) hcalls hx .setObject trivial hm hv
    exact ⟨hobject, hm⟩
  | tail hv => exact ⟨trivial, (Calls.arising (a := .expr _) hcalls hx .head trivial hm hv).1⟩
  | method _ hf => exact ⟨⟨(Arises.cls ha).isMethod hf, ha⟩, hm⟩
  | staticGetter => exact ⟨nofun, hm⟩
  | closure => exact ⟨ha.2, hm⟩
  | superMethod hc hi hf =>
    obtain ⟨-, hcls⟩ := (Leaves.superClass _ _).of_done hm hc
    obtain ⟨-, hi⟩ := (Leaves.superReceiver _ _).of_done hm hi
    exact ⟨⟨Arises.isMethod hcls hf, hi⟩, hm⟩
  | getter hb _ => exact ⟨nofun, ((Leaves.bindThis ha.2).of_done hm hb).1⟩
  | apply hf _ => exact ⟨⟨ha.1.callee hf, ha.2⟩, hm⟩
  | initializer hi _ hb =>
    obtain ⟨hm, -⟩ := (Leaves.newInstance _).of_done hm hi
    exact ⟨ha.2, ((Leaves.bindThis (.object hx hi ha.1)).of_done hm hb).1⟩
  | enter _ => exact ⟨ha, hm⟩
  | body hframe => exact ⟨trivial, ((Leaves.newFrame fun x v hv => ha v (mem_of_argumentFrame hv)).of_done hm hframe).1⟩
  | block hframe => exact ⟨trivial, ((Leaves.newFrame nofun).of_done hm hframe).1⟩
  | thenBranch hv _ | elseBranch hv _ => exact ⟨trivial, (Calls.arising (a := .expr _) hcalls hx .condition trivial hm hv).1⟩
  | rest hflow => exact ⟨trivial, (Calls.arising (a := .stmt _) hcalls hx .first trivial hm hflow).1⟩
  | loopBody hv _ => exact ⟨trivial, (Calls.arising (a := .expr _) hcalls hx .loopCondition trivial hm hv).1⟩
  | again hv ht hflow =>
    obtain ⟨hm, -⟩ := Calls.arising (a := .expr _) hcalls hx .loopCondition trivial hm hv
    exact ⟨trivial, (Calls.arising (a := .stmt _) hcalls hx (.loopBody hv ht) trivial hm hflow).1⟩

theorem Arisen.reaches (h : x.Arisen met) (hr : x.Reaches y) : y.Arisen met := by
  induction hr with
  | refl => exact h
  | step hc _ ih => exact ih (hcalls hx hc) (h.calls hcalls hx hc)

end Moment

end Lox
