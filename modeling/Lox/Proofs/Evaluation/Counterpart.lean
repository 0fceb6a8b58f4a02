import Lox.Proofs.Evaluation.Followed
import Lox.Proofs.Evaluation.Frames

/-!
# Moments with a twin

A moment has a twin if its code, the values at hand and its machine have one. All moments that it comes to then have one, too.
-/

namespace Lox

open Eval

variable {T : Ties}

/-- Where the first run ends with a result, this has a counterpart, and the machine a twin. -/
theorem Eval.Follows.of_done {α β : Type} {R : α → β → Prop} {body : Eval α} {body' : Nat → Eval β} (h : Follows T R body body')
    {m m' m₁ : Machine} (hm : m.Twin T m') {a : α} (ha : body m = .done a m₁) : ∃ b m₁', R a b ∧ m₁.Twin T m₁' := by
  rcases h m m' hm with hx | ⟨o, -, ho, -⟩
  · rw [ha] at hx; cases hx
  · rw [ha] at ho
    cases ho with
    | done hab hm₁ => exact ⟨_, _, hab, hm₁⟩

theorem Eval.Follows.of_ends {α β : Type} {R : α → β → Prop} {body : Eval α} {body' : Nat → Eval β} (h : Follows T R body body')
    {m m' m₁ : Machine} (hm : m.Twin T m') (he : (body m).EndsIn m₁) : ∃ m₁', m₁.Twin T m₁' := by
  rcases h m m' hm with hx | ⟨o, -, ho, -⟩
  · rw [hx] at he; exact he.elim
  · generalize body m = o₁ at he ho
    cases ho with
    | done _ hm₁ => exact ⟨_, by rw [he]; exact hm₁⟩
    | failed hm₁ => exact ⟨_, by rw [he]; exact hm₁⟩

/-- The groups around a twin can be left out. -/
theorem Expr.Twin.ungrouped : ∀ {e e' : Expr}, e.Twin T e' → ∃ e₁, e.Twin T e₁ ∧ ∀ x, e₁ ≠ .group x
  | _, _, .groupLeft h =>
    have ⟨e₁, h, hne⟩ := h.ungrouped
    ⟨e₁, .groupLeft h, hne⟩
  | _, _, .groupRight h => h.ungrouped
  | _, _, .literal v => ⟨_, .literal v, nofun⟩
  | _, _, .unary h => ⟨_, .unary h, nofun⟩
  | _, _, .binary hl hr => ⟨_, .binary hl hr, nofun⟩
  | _, _, .logical hl hr => ⟨_, .logical hl hr, nofun⟩
  | _, _, .var h => ⟨_, .var h, nofun⟩
  | _, _, .assign he h => ⟨_, .assign he h, nofun⟩
  | _, _, .call hf hargs => ⟨_, .call hf hargs, nofun⟩
  | _, _, .lambda hr => ⟨_, .lambda hr, nofun⟩
  | _, _, .get he => ⟨_, .get he, nofun⟩
  | _, _, .set he hv => ⟨_, .set he hv, nofun⟩
  | _, _, .this h => ⟨_, .this h, nofun⟩
  | _, _, .super h => ⟨_, .super h, nofun⟩

variable (T) in
/-- The code to be run and the values at hand are twins. -/
inductive Activity.Twin : Activity → Activity → Prop where
  | expr {e e'} : e.Twin T e' → Twin (.expr e) (.expr e')
  | exprs {es es'} : TwinExprs T es es' → Twin (.exprs es) (.exprs es')
  | setProperty {v v' name e e'} : v.Twin T v' → e.Twin T e' → Twin (.setProperty v name e) (.setProperty v' name e')
  | property {v v' name} : v.Twin T v' → Twin (.property v name) (.property v' name)
  | superProperty {id id' line method} : T.ids id id' → Twin (.superProperty id line method) (.superProperty id' line method)
  | methodOf {c c' i i' line} : c.Twin T c' → i.Twin T i' → Twin (.methodOf c i line) (.methodOf c' i' line)
  | call {v v' args args' line} : v.Twin T v' → List.Forall₂ (Value.Twin T) args args' →
    Twin (.call v args line) (.call v' args' line)
  | apply {f f' args args' line} : f.Twin T f' → List.Forall₂ (Value.Twin T) args args' →
    Twin (.apply f args line) (.apply f' args' line)
  | enter {c c' args args' line} : c.Twin T c' → List.Forall₂ (Value.Twin T) args args' →
    Twin (.enter c args line) (.enter c' args' line)
  | runBody {c c' args args'} : c.Twin T c' → List.Forall₂ (Value.Twin T) args args' → Twin (.runBody c args) (.runBody c' args')
  | stmt {st st'} : st.Twin T st' → Twin (.stmt st) (.stmt st')
  | superclass {cls ref ref'} : Option.Rel (Reference.Twin T) ref ref' → Twin (.superclass cls ref) (.superclass cls ref')
  | stmts {sts sts'} : TwinStmts T sts sts' → Twin (.stmts sts) (.stmts sts')
  | loop {c c' st st'} : c.Twin T c' → st.Twin T st' → Twin (.loop c st) (.loop c' st')

namespace Moment

variable {x y : Moment}

variable (T) in
def HasTwin (x : Moment) : Prop := ∃ a m', x.activity.Twin T a ∧ x.machine.Twin T m'

theorem HasTwin.of {n : Nat} {a a' : Activity} {m m' : Machine} (ha : a.Twin T a') (hm : m.Twin T m') : HasTwin T ⟨n, a, m⟩ :=
  ⟨a', m', ha, hm⟩

section
variable {n : Nat} {m m' : Machine}

theorem hasTwin_of_expr {e e' : Expr} (htwin : e.Twin T e') (hm : m.Twin T m') (hc : Calls ⟨n, .expr e, m⟩ y) :
    y.HasTwin T := by
  obtain ⟨_, htwin, hne⟩ := htwin.ungrouped
  cases htwin with
  | groupRight => exact absurd rfl (hne _)
  | groupLeft he =>
    cases hc
    exact .of (.expr he) hm
  | unary he =>
    cases hc
    exact .of (.expr he) hm
  | binary hl hr =>
    cases hc with
    | binaryLeft => exact .of (.expr hl) hm
    | binaryRight hv =>
      obtain ⟨_, _, -, hm⟩ := ((followed T _).expr hl).of_done hm hv
      exact .of (.expr hr) hm
  | logical hl hr =>
    cases hc with
    | logicalLeft => exact .of (.expr hl) hm
    | logicalRight hv _ =>
      obtain ⟨_, _, -, hm⟩ := ((followed T _).expr hl).of_done hm hv
      exact .of (.expr hr) hm
  | assign he _ =>
    cases hc
    exact .of (.expr he) hm
  | call hf hargs =>
    cases hc with
    | callee => exact .of (.expr hf) hm
    | arguments hv =>
      obtain ⟨_, _, -, hm⟩ := ((followed T _).expr hf).of_done hm hv
      exact .of (.exprs hargs) hm
    | call hv hvs =>
      obtain ⟨_, _, hv, hm⟩ := ((followed T _).expr hf).of_done hm hv
      obtain ⟨_, _, hvs, hm⟩ := ((followed T _).exprs hargs).of_done hm hvs
      exact .of (.call hv hvs) hm
  | get he =>
    cases hc with
    | getObject => exact .of (.expr he) hm
    | get hv =>
      obtain ⟨_, _, hv, hm⟩ := ((followed T _).expr he).of_done hm hv
      exact .of (.property hv) hm
  | set he hvalue =>
    cases hc with
    | setObject => exact .of (.expr he) hm
    | set hv =>
      obtain ⟨_, _, hv, hm⟩ := ((followed T _).expr he).of_done hm hv
      exact .of (.setProperty hv hvalue) hm
  | super hi =>
    cases hc
    exact .of (.superProperty hi) hm
  | literal | var | lambda | this => cases hc

theorem hasTwin_of_property {v v' : Value} {name : Name} (hv : v.Twin T v') (hm : m.Twin T m')
    (hc : Calls ⟨n, .property v name, m⟩ y) : y.HasTwin T := by
  cases hc with
  | method _ hf =>
    cases hv with
    | object hi =>
      obtain ⟨_, hff⟩ := rel_of_some (hf ▸ hi.cls.method? _)
      exact .of (.methodOf hff.closure hi) hm
  | staticGetter hf _ =>
    cases hv with
    | klass hc =>
      obtain ⟨_, hff⟩ := rel_of_some (hf ▸ hc.static? _)
      exact .of (.enter hff.closure .nil) hm

theorem hasTwin_of_apply {f f' : Callee} {args args' : List Value} {line : Nat} (hf : f.Twin T f')
    (hargs : List.Forall₂ (Value.Twin T) args args') (hm : m.Twin T m') (hc : Calls ⟨n, .apply f args line, m⟩ y) :
    y.HasTwin T := by
  cases hc with
  | closure =>
    cases hf with
    | closure hc => exact .of (.enter hc hargs) hm
  | initializer hi hinit hb =>
    cases hf with
    | construct hc =>
      obtain ⟨_, _, hi, hm⟩ := (Follows.newInstance hc).of_done hm hi
      obtain ⟨_, hff⟩ := rel_of_some (hinit ▸ hc.initializer?)
      obtain ⟨_, _, hb, hm⟩ := (Follows.bindThis hff.closure hi).of_done hm hb
      exact .of (.enter hb hargs) hm

theorem hasTwin_of_stmt {st st' : Stmt} (hst : st.Twin T st') (hm : m.Twin T m') (hc : Calls ⟨n, .stmt st, m⟩ y) :
    y.HasTwin T := by
  cases hc with
  | statement => cases hst with
    | expr he => exact .of (.expr he) hm
  | print => cases hst with
    | print he => exact .of (.expr he) hm
  | varDecl => cases hst with
    | initialized he => exact .of (.expr he) hm
  | block hframe => cases hst with
    | block _ hsts =>
      obtain ⟨_, _, -, hm⟩ := (Follows.newFrame .empty _).of_done hm hframe
      exact .of (.stmts hsts) (hm.inEnv _)
  | condition => cases hst with
    | branch hc _ => exact .of (.expr hc) hm
    | branches hc _ _ => exact .of (.expr hc) hm
  | thenBranch hv _ => cases hst with
    | branch hc hst | branches hc hst _ =>
      obtain ⟨_, _, -, hm⟩ := ((followed T _).expr hc).of_done hm hv
      exact .of (.stmt hst) hm
  | elseBranch hv _ => cases hst with
    | branches hc _ hst =>
      obtain ⟨_, _, -, hm⟩ := ((followed T _).expr hc).of_done hm hv
      exact .of (.stmt hst) hm
  | loop => cases hst with
    | loop hc hst => exact .of (.loop hc hst) hm
  | returns => cases hst with
    | returned he => exact .of (.expr he) hm
  | superclass => cases hst with
    | classDecl href _ _ => exact .of (.superclass href) hm

theorem hasTwin_of_loop {c c' : Expr} {st st' : Stmt} (hcond : c.Twin T c') (hst : st.Twin T st') (hm : m.Twin T m')
    (hc : Calls ⟨n, .loop c st, m⟩ y) : y.HasTwin T := by
  cases hc with
  | loopCondition => exact .of (.expr hcond) hm
  | loopBody hv _ =>
    obtain ⟨_, _, -, hm⟩ := ((followed T _).expr hcond).of_done hm hv
    exact .of (.stmt hst) hm
  | again hv _ hf =>
    obtain ⟨_, _, -, hm⟩ := ((followed T _).expr hcond).of_done hm hv
    obtain ⟨_, _, -, hm⟩ := ((followed T _).stmt hst).of_done hm hf
    exact .of (.loop hcond hst) hm

end

theorem HasTwin.calls (h : x.HasTwin T) (hc : x.Calls y) : y.HasTwin T := by
  obtain ⟨a, m', ha, hm⟩ := h
  obtain ⟨n, activity, m⟩ := x
  cases ha with
  | expr he => exact hasTwin_of_expr he hm hc
  | exprs hes =>
    cases hc with
    | head =>
      cases hes with
      | cons he _ => exact .of (.expr he) hm
    | tail hv =>
      cases hes with
      | cons he hes =>
        obtain ⟨_, _, -, hm⟩ := ((followed T _).expr he).of_done hm hv
        exact .of (.exprs hes) hm
  | setProperty _ he =>
    cases hc
    exact .of (.expr he) hm
  | property hv => exact hasTwin_of_property hv hm hc
  | superProperty hid =>
    cases hc with
    | superMethod hc hi hf =>
      obtain ⟨_, _, hc, -⟩ := (Follows.superClass hid _).of_done hm hc
      obtain ⟨_, _, hi, -⟩ := (Follows.superReceiver hid _).of_done hm hi
      obtain ⟨_, hff⟩ := rel_of_some (hf ▸ hc.method? _)
      exact .of (.methodOf hff.closure hi) hm
  | methodOf hcode hi =>
    cases hc with
    | getter hb _ =>
      obtain ⟨_, _, hb, hm⟩ := (Follows.bindThis hcode hi).of_done hm hb
      exact .of (.enter hb .nil) hm
  | call hv hargs =>
    cases hc with
    | apply hf _ =>
      obtain ⟨_, hff⟩ := rel_of_some (hf ▸ hv.callee?)
      exact .of (.apply hff hargs) hm
  | apply hf hargs => exact hasTwin_of_apply hf hargs hm hc
  | enter hcode hargs =>
    cases hc
    exact .of (.runBody hcode hargs) hm.deeper
  | runBody hcode hargs =>
    cases hc with
    | body hframe =>
      obtain ⟨_, _, -, hm⟩ := (Follows.newFrame (argumentFrame_twin hargs) _).of_done hm hframe
      exact .of (.stmts hcode.routine.body) (hm.inEnv _)
  | stmt hst => exact hasTwin_of_stmt hst hm hc
  | superclass => cases hc
  | stmts hsts =>
    cases hc with
    | first =>
      cases hsts with
      | cons hst _ => exact .of (.stmt hst) hm
    | rest hf =>
      cases hsts with
      | cons hst hsts =>
        obtain ⟨_, _, -, hm⟩ := ((followed T _).stmt hst).of_done hm hf
        exact .of (.stmts hsts) hm
  | loop hcond hst => exact hasTwin_of_loop hcond hst hm hc

theorem HasTwin.reaches (h : x.HasTwin T) (hr : x.Reaches y) : y.HasTwin T := by
  induction hr with
  | refl => exact h
  | step hc _ ih => exact ih (h.calls hc)

end Moment

end Lox
