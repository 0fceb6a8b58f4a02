import Mathlib.Logic.Relation
import Mathlib.Order.WellFounded
import Lox.Proofs.Evaluation.Enough
import Lox.Syntax.Grammar

/-!
# Runs of `for` statements

A `for` statement is run turn by turn. In each turn the condition holds, the body completes, and then the increment is evaluated
once. Everything else ends the loop, and the increment is not evaluated any more.
-/

namespace Lox

open Eval

/-- The machine in a new block. -/
def Machine.opened (m : Machine) : Machine := { m with store := (m.store.extend .empty m.env).2, env := (m.store.extend .empty m.env).1 }

/-- The same outcome, back in the environment. -/
def Outcome.backIn {α : Type} (env : Env) : Outcome Machine Error α → Outcome Machine Error α
  | .done a m => .done a { m with env }
  | .failed e m => .failed e { m with env }
  | .exhausted => .exhausted

/-- Where the body runs: in a block of its own if the increment comes behind it. -/
def Machine.inTurn (m : Machine) : (increment : Option Expr) → Machine
  | none => m
  | some _ => m.opened

/-- Evaluates the increment, if there is one. -/
def Eval.advance (fuel : Nat) : (increment : Option Expr) → Eval Unit
  | none => return ()
  | some e => do
    let _ ← evaluate fuel e
    return ()

section
variable (condition : Expr) (body : Stmt) (increment : Option Expr)

/-- A turn leads from the first machine to the second: the condition holds, the body completes, and the increment is evaluated. -/
inductive ForTurn : Machine → Machine → Prop where
  | turn {m v m₁ m₂ m₃} : ComesTo (fun n => evaluate n condition) m (.done v m₁) → v.isTruthy = true →
    ComesTo (fun n => execute n body) (m₁.inTurn increment) (.done .completed m₂) →
    ComesTo (fun n => advance n increment) m₂ (.done () m₃) → ForTurn m { m₃ with env := m.env }

/-- The loop ends in what would be the next turn. -/
inductive ForStop : Machine → Outcome Machine Error Flow → Prop where
  | ends {m v m₁} : ComesTo (fun n => evaluate n condition) m (.done v m₁) → v.isTruthy = false →
    ForStop m (.done .completed m₁)
  | broke {m v m₁ m₂} : ComesTo (fun n => evaluate n condition) m (.done v m₁) → v.isTruthy = true →
    ComesTo (fun n => execute n body) (m₁.inTurn increment) (.done .broke m₂) →
    ForStop m (.done .completed { m₂ with env := m.env })
  | returned {m v m₁ w m₂} : ComesTo (fun n => evaluate n condition) m (.done v m₁) → v.isTruthy = true →
    ComesTo (fun n => execute n body) (m₁.inTurn increment) (.done (.returned w) m₂) →
    ForStop m (.done (.returned w) { m₂ with env := m.env })
  | condition {m o o'} : ComesTo (fun n => evaluate n condition) m o → o.Stops o' → ForStop m o'
  | body {m v m₁ o o'} : ComesTo (fun n => evaluate n condition) m (.done v m₁) → v.isTruthy = true →
    ComesTo (fun n => execute n body) (m₁.inTurn increment) o → o.Stops o' → ForStop m (o'.backIn m.env)
  | increment {m v m₁ m₂ o o'} : ComesTo (fun n => evaluate n condition) m (.done v m₁) → v.isTruthy = true →
    ComesTo (fun n => execute n body) (m₁.inTurn increment) (.done .completed m₂) →
    ComesTo (fun n => advance n increment) m₂ o → o.Stops o' → ForStop m (o'.backIn m.env)

/-- The loop makes some turns and ends, or it goes on turning. -/
inductive ForTurns (m : Machine) : Outcome Machine Error Flow → Prop where
  | stop {m' o} : Relation.ReflTransGen (ForTurn condition body increment) m m' → ForStop condition body increment m' o → ForTurns m o
  | forever (at' : Nat → Machine) : at' 0 = m → (∀ n, ForTurn condition body increment (at' n) (at' (n + 1))) →
    ForTurns m .exhausted

end

/-- The initializer is run once before the turns, in a block around the loop. A loop without a condition has one that holds. -/
inductive ForRun (condition increment : Option Expr) (body : Stmt) : (first : Option Stmt) → Machine → Outcome Machine Error Flow →
    Prop where
  | bare {m o} : ForTurns (condition.getD (.literal (.bool true))) body increment m o → ForRun condition increment body none m o
  | started {first m m₁ o} : ComesTo (fun n => execute n first) m.opened (.done .completed m₁) →
    ForTurns (condition.getD (.literal (.bool true))) body increment m₁ o →
    ForRun condition increment body (some first) m (o.backIn m.env)
  | unstarted {first m o} : ComesTo (fun n => execute n first) m.opened o → (∀ m', o ≠ .done .completed m') →
    ForRun condition increment body (some first) m (o.backIn m.env)

/-! ## Statements -/

/-- All work ends in the environment where it has begun. -/
theorem Activity.run_backIn (a : Activity) (n : Nat) (m : Machine) : (a.run n m).backIn m.env = a.run n m := by
  have h := (Moment.orderly ⟨n, a, m⟩).env
  change ∀ m', (a.run n m).EndsIn m' → m'.env = m.env at h
  cases ho : a.run n m with
  | done r m' =>
    rw [ho] at h
    exact congrArg (Outcome.done r) (by rw [← h m' rfl])
  | failed e m' =>
    rw [ho] at h
    exact congrArg (Outcome.failed e) (by rw [← h m' rfl])
  | exhausted => rfl

theorem Eval.execute_block (n : Nat) (sts : List Stmt) (m : Machine) :
    execute (n + 1) (.block sts) m = (executeAll n sts m.opened).backIn m.env := rfl

namespace Eval.ComesTo

variable {m m' m₁ m₂ : Machine} {flow : Flow} {v : Value} {st : Stmt} {sts : List Stmt} {e : Expr} {increment : Option Expr}
variable {o o' : Outcome Machine Error Flow} {α : Type} {stopped : Outcome Machine Error α}

theorem env_of_execute (h : ComesTo (fun n => execute n st) m o) : o.backIn m.env = o := by
  obtain ⟨n, rfl⟩ := h.exists
  exact (Activity.stmt st).run_backIn n m

theorem env_of_evaluate (h : ComesTo (fun n => evaluate n e) m (.done v m')) : m'.env = m.env := by
  obtain ⟨n, hn⟩ := h.exists
  exact Moment.env_of_done (a := .expr e) hn

theorem block (h : ComesTo (fun n => executeAll n sts) m.opened o) : ComesTo (fun n => execute n (.block sts)) m (o.backIn m.env) :=
  of_succ (h.mono fun n hn => (execute_block n sts m).trans (congrArg (Outcome.backIn m.env) hn))

theorem noStatements : ComesTo (fun n => executeAll n []) m (.done .completed m) := of_succ (.pure Flow.completed)

/-- The first statement completes. -/
theorem next (h : ComesTo (fun n => execute n st) m (.done .completed m')) (hn : ComesTo (fun n => executeAll n sts) m' o) :
    ComesTo (fun n => executeAll n (st :: sts)) m o := of_succ (h.bind hn)

/-- The first statement does not complete. -/
theorem only (h : ComesTo (fun n => execute n st) m o) (ho : ∀ m', o ≠ .done .completed m') :
    ComesTo (fun n => executeAll n (st :: sts)) m o := by
  refine of_succ ?_
  cases o with
  | done flow m' =>
    refine h.bind ?_
    cases flow with
    | completed => exact absurd rfl (ho m')
    | returned v => exact .pure (Flow.returned v)
    | broke => exact .pure Flow.broke
  | failed e m' => exact h.stops (.failed e m')
  | exhausted => exact h.stops .exhausted

theorem single (h : ComesTo (fun n => execute n st) m o) : ComesTo (fun n => executeAll n [st]) m o := by
  by_cases ho : ∃ m', o = .done .completed m'
  · obtain ⟨m', rfl⟩ := ho
    exact h.next noStatements
  · push Not at ho
    exact h.only ho

theorem expr (h : ComesTo (fun n => evaluate n e) m (.done v m')) : ComesTo (fun n => execute n (.expr e)) m (.done .completed m') :=
  of_succ (h.bind (.pure Flow.completed))

theorem expr_stops {o : Outcome Machine Error Value} (h : ComesTo (fun n => evaluate n e) m o) (hs : o.Stops o') :
    ComesTo (fun n => execute n (.expr e)) m o' := of_succ (h.stops hs)

/-- How the increment is evaluated. -/
theorem of_advance {o : Outcome Machine Error Unit} (h : ComesTo (fun n => advance n (some e)) m o) :
    (∃ v m', ComesTo (fun n => evaluate n e) m (.done v m') ∧ o = .done () m') ∨
      ∃ o' : Outcome Machine Error Value, ComesTo (fun n => evaluate n e) m o' ∧ o'.Stops o := by
  obtain ⟨o', ho⟩ := (steady_evaluate e).comesTo m
  obtain ⟨v, m', rfl⟩ | ⟨o₁, hs⟩ := o'.done_or_stops
  · exact .inl ⟨v, m', ho, h.unique (ho.bind (.pure ()))⟩
  · exact .inr ⟨o', ho, h.unique (ho.stops hs) ▸ hs⟩

theorem exists_advance (increment : Option Expr) (m : Machine) : ∃ o, ComesTo (fun n => advance n increment) m o := by
  cases increment with
  | none => exact ⟨_, .pure ()⟩
  | some e =>
    obtain ⟨o, ho⟩ := (steady_evaluate e).comesTo m
    obtain ⟨v, m', rfl⟩ | ⟨o', hs⟩ := o.done_or_stops
    · exact ⟨_, ho.bind (.pure ())⟩
    · exact ⟨o', ho.stops hs⟩

/-! ## Bodies -/

/-- The body completes, and the increment comes after it. -/
theorem bodyThen (h : ComesTo (fun n => execute n st) (m.inTurn increment) (.done .completed m₁))
    (hn : ComesTo (fun n => advance n increment) m₁ (.done () m₂)) :
    ComesTo (fun n => execute n (Parse.bodyThen st increment)) m (.done .completed { m₂ with env := m.env }) := by
  cases increment with
  | none =>
    cases hn.unique (.pure ())
    rw [← env_of_execute h] at h
    exact h
  | some e =>
    obtain ⟨v, m', he, heq⟩ | ⟨o, -, hs⟩ := of_advance hn
    · cases heq
      exact (h.next he.expr.single).block
    · cases hs

/-- The body does not complete, so that the increment is not evaluated. -/
theorem bodyOnly (h : ComesTo (fun n => execute n st) (m.inTurn increment) o) (ho : ∀ m', o ≠ .done .completed m') :
    ComesTo (fun n => execute n (Parse.bodyThen st increment)) m (o.backIn m.env) := by
  cases increment with
  | none =>
    rw [← env_of_execute h] at h
    exact h
  | some e => exact (h.only ho).block

theorem bodyThen_stops (h : ComesTo (fun n => execute n st) (m.inTurn increment) (.done .completed m₁))
    {o : Outcome Machine Error Unit} (hn : ComesTo (fun n => advance n increment) m₁ o) (hs : o.Stops o') :
    ComesTo (fun n => execute n (Parse.bodyThen st increment)) m (o'.backIn m.env) := by
  cases increment with
  | none =>
    cases hn.unique (.pure ())
    cases hs
  | some e =>
    obtain ⟨v, m', he, rfl⟩ | ⟨o₁, he, hs'⟩ := of_advance hn
    · cases hs
    · exact (h.next (he.expr_stops (hs'.trans hs)).single).block

/-! ## Loops -/

section
variable {condition : Expr} {body : Stmt}

theorem loop_ends (h : ComesTo (fun n => evaluate n condition) m (.done v m₁)) (hv : v.isTruthy = false) :
    ComesTo (fun n => repeatWhile n condition body) m (.done .completed m₁) := by
  refine of_succ (h.bind ?_)
  simp only [hv]
  exact .pure Flow.completed

variable (h : ComesTo (fun n => evaluate n condition) m (.done v m₁)) (hv : v.isTruthy = true)
include h hv

theorem loop_again (hb : ComesTo (fun n => execute n body) m₁ (.done .completed m₂))
    (hn : ComesTo (fun n => repeatWhile n condition body) m₂ o) : ComesTo (fun n => repeatWhile n condition body) m o := by
  refine of_succ (h.bind ?_)
  simp only [hv]
  exact hb.bind hn

theorem loop_broke (hb : ComesTo (fun n => execute n body) m₁ (.done .broke m₂)) :
    ComesTo (fun n => repeatWhile n condition body) m (.done .completed m₂) := by
  refine of_succ (h.bind ?_)
  simp only [hv]
  exact hb.bind (.pure Flow.completed)

theorem loop_returned {w : Value} (hb : ComesTo (fun n => execute n body) m₁ (.done (.returned w) m₂)) :
    ComesTo (fun n => repeatWhile n condition body) m (.done (.returned w) m₂) := by
  refine of_succ (h.bind ?_)
  simp only [hv]
  exact hb.bind (.pure (Flow.returned w))

theorem loop_stops {o : Outcome Machine Error Flow} (hb : ComesTo (fun n => execute n body) m₁ o) (hs : o.Stops o') :
    ComesTo (fun n => repeatWhile n condition body) m o' := by
  refine of_succ (h.bind ?_)
  simp only [hv]
  exact hb.stops hs

end

end Eval.ComesTo

/-! ## Turns -/

section
variable {condition : Expr} {body : Stmt} {increment : Option Expr} {m m' : Machine} {o : Outcome Machine Error Flow}

theorem ForTurn.completed (h : ForTurn condition body increment m m') : ∃ v m₁,
    ComesTo (fun n => evaluate n condition) m (.done v m₁) ∧ v.isTruthy = true ∧
      ComesTo (fun n => execute n (Parse.bodyThen body increment)) m₁ (.done .completed m') := by
  cases h with
  | turn hc hv hb hi => exact ⟨_, _, hc, hv, hc.env_of_evaluate ▸ hb.bodyThen hi⟩

theorem ForStop.loop (h : ForStop condition body increment m o) :
    ComesTo (fun n => repeatWhile n condition (Parse.bodyThen body increment)) m o := by
  cases h with
  | ends hc hv => exact hc.loop_ends hv
  | broke hc hv hb => exact hc.env_of_evaluate ▸ hc.loop_broke hv (hb.bodyOnly nofun)
  | returned hc hv hb => exact hc.env_of_evaluate ▸ hc.loop_returned hv (hb.bodyOnly nofun)
  | condition hc hs => exact .of_succ (hc.stops hs)
  | body hc hv hb hs =>
    rw [← hc.env_of_evaluate]
    cases hs with
    | failed => exact hc.loop_stops hv (hb.bodyOnly nofun) (.failed _ _)
    | exhausted => exact hc.loop_stops hv (hb.bodyOnly nofun) .exhausted
  | increment hc hv hb hi hs =>
    rw [← hc.env_of_evaluate]
    cases hs with
    | failed => exact hc.loop_stops hv (hb.bodyThen_stops hi (.failed _ _)) (.failed _ _)
    | exhausted => exact hc.loop_stops hv (hb.bodyThen_stops hi .exhausted) .exhausted

theorem exists_turn_or_stop (condition : Expr) (body : Stmt) (increment : Option Expr) (m : Machine) :
    (∃ m', ForTurn condition body increment m m') ∨ ∃ o, ForStop condition body increment m o := by
  obtain ⟨o, hc⟩ := (steady_evaluate condition).comesTo m
  obtain ⟨v, m₁, rfl⟩ | ⟨o', hs⟩ := o.done_or_stops
  case inr => exact .inr ⟨o', .condition hc hs⟩
  by_cases hv : v.isTruthy = true
  case neg => exact .inr ⟨_, .ends hc (Bool.eq_false_iff.mpr hv)⟩
  obtain ⟨o, hb⟩ := (steady_execute body).comesTo (m₁.inTurn increment)
  obtain ⟨flow, m₂, rfl⟩ | ⟨o', hs⟩ := o.done_or_stops
  case inr => exact .inr ⟨_, .body hc hv hb hs⟩
  cases flow with
  | broke => exact .inr ⟨_, .broke hc hv hb⟩
  | returned w => exact .inr ⟨_, .returned hc hv hb⟩
  | completed =>
    obtain ⟨o, hi⟩ := ComesTo.exists_advance increment m₂
    obtain ⟨⟨⟩, m₃, rfl⟩ | ⟨o', hs⟩ := o.done_or_stops
    · exact .inl ⟨_, .turn hc hv hb hi⟩
    · exact .inr ⟨_, .increment hc hv hb hi hs⟩

/-- A loop that goes on turning is never done, whatever its fuel. -/
theorem exhausted_of_turns {at' : Nat → Machine} (h : ∀ n, ForTurn condition body increment (at' n) (at' (n + 1))) :
    ∀ fuel n, repeatWhile fuel condition (Parse.bodyThen body increment) (at' n) = .exhausted := by
  intro fuel
  induction fuel with
  | zero => exact fun _ => rfl
  | succ fuel ih =>
    intro n
    obtain ⟨v, m₁, hc, hv, hb⟩ := (h n).completed
    rw [repeatWhile, Run.bind_apply]
    rcases hc.eq_or_exhausted (steady_evaluate _) fuel with he | he
    · simp only [he, hv, if_true, Run.bind_apply]
      rcases hb.eq_or_exhausted (steady_execute _) fuel with he | he
      · simp only [he]
        exact ih (n + 1)
      · simp only [he]
    · simp only [he]

theorem ForTurns.loop (h : ForTurns condition body increment m o) :
    ComesTo (fun n => repeatWhile n condition (Parse.bodyThen body increment)) m o := by
  cases h with
  | stop hturns hstop =>
    induction hturns using Relation.ReflTransGen.head_induction_on with
    | refl => exact hstop.loop
    | head ht _ ih =>
      obtain ⟨v, m₁, hc, hv, hb⟩ := ht.completed
      exact hc.loop_again hv hb ih
  | forever at' hzero hturns => exact .of_forall fun n => hzero ▸ exhausted_of_turns hturns n 0

/-- Either the loop makes as many turns as there are before one stops it, or there are more and more of them. -/
theorem exists_forTurns (condition : Expr) (body : Stmt) (increment : Option Expr) (m : Machine) :
    ∃ o, ForTurns condition body increment m o := by
  by_cases hacc : Acc (fun m' m => ForTurn condition body increment m m') m
  · suffices h : ∃ m' o, Relation.ReflTransGen (ForTurn condition body increment) m m' ∧ ForStop condition body increment m' o by
      obtain ⟨m', o, hturns, hstop⟩ := h
      exact ⟨o, .stop hturns hstop⟩
    induction hacc with
    | intro m _ ih =>
      obtain ⟨m', ht⟩ | ⟨o, hs⟩ := exists_turn_or_stop condition body increment m
      · obtain ⟨m'', o, hturns, hstop⟩ := ih m' ht
        exact ⟨m'', o, .head ht hturns, hstop⟩
      · exact ⟨m, o, .refl, hs⟩
  · obtain ⟨at', hzero, hturns⟩ := not_acc_iff_exists_descending_chain.mp hacc
    exact ⟨.exhausted, .forever at' hzero hturns⟩

end

/-! ## Statements -/

variable {condition increment : Option Expr} {body : Stmt} {first : Option Stmt} {m : Machine} {o : Outcome Machine Error Flow}

theorem ForRun.comesTo (h : ForRun condition increment body first m o) :
    ComesTo (fun n => execute n (Parse.forLoop first condition increment body)) m o := by
  cases h with
  | bare h => exact .of_succ h.loop
  | @started first _ m₁ o hf h =>
    have hloop : ComesTo (fun n => execute n (.loop _ _)) m₁ o := .of_succ h.loop
    exact (hf.next hloop.single).block
  | unstarted hf ho => exact (hf.only ho).block

theorem exists_forRun (condition increment : Option Expr) (body : Stmt) (first : Option Stmt) (m : Machine) :
    ∃ o, ForRun condition increment body first m o := by
  cases first with
  | none =>
    obtain ⟨o, ho⟩ := exists_forTurns (condition.getD (.literal (.bool true))) body increment m
    exact ⟨o, .bare ho⟩
  | some first =>
    obtain ⟨o, hf⟩ := (steady_execute first).comesTo m.opened
    by_cases hdone : ∃ m', o = .done .completed m'
    · obtain ⟨m₁, rfl⟩ := hdone
      obtain ⟨o, ho⟩ := exists_forTurns (condition.getD (.literal (.bool true))) body increment m₁
      exact ⟨_, .started hf ho⟩
    · push Not at hdone
      exact ⟨_, .unstarted hf hdone⟩

/-- The statement is run in turns, and in no other way. -/
theorem comesTo_forLoop : ComesTo (fun n => execute n (Parse.forLoop first condition increment body)) m o ↔
    ForRun condition increment body first m o := by
  refine ⟨fun h => ?_, ForRun.comesTo⟩
  obtain ⟨o', ho⟩ := exists_forRun condition increment body first m
  exact h.unique ho.comesTo ▸ ho

end Lox
