import Lox.Proofs.Evaluation.Ordered
import Lox.Proofs.Evaluation.Preserved
import Lox.Proofs.Syntax.LoopFree

/-!
# The budget of code without loops

Where there is no loop, what an evaluation turns to has less to do than the evaluation itself: either one call less may still be
made, or as many calls and there is less code at hand. So no chain of such turns goes on for ever.
-/

namespace Lox

/-! ## Moments without loops -/

def Activity.IsLoop (a : Activity) : Prop := ∃ condition body, a = .loop condition body

/-- There is no loop in the code that the moment may run. -/
structure Moment.LoopFree (x : Moment) : Prop where
  every : x.Every Stmt.NoLoop
  notLoop : ¬ x.activity.IsLoop

/-- How much code there is at hand. Between two bodies come a call, what is called, and the entry. -/
noncomputable def Activity.weight : Activity → Nat
  | .expr e => 3 + 2 * sizeOf e
  | .exprs es => 3 + 2 * sizeOf es
  | .setProperty _ _ value => 4 + 2 * sizeOf value
  | .property _ _ => 2
  | .superProperty _ _ _ => 2
  | .methodOf _ _ _ => 1
  | .call _ _ _ => 2
  | .apply _ _ _ => 1
  | .enter _ _ _ => 0
  | .runBody c _ => 4 + 2 * sizeOf c.routine.body
  | .stmt st => 3 + 2 * sizeOf st
  | .superclass _ _ => 0
  | .stmts sts => 3 + 2 * sizeOf sts
  | .loop _ _ => 0

namespace Moment

/-- The calls that may still be made. -/
def budget (x : Moment) : Nat := maxDepth - x.machine.depth

/-- The moment has less to do than the other one. -/
def Less (y x : Moment) : Prop :=
  y.budget < x.budget ∨ y.budget = x.budget ∧ y.activity.weight < x.activity.weight

theorem less_wf : WellFounded Less := by
  have hlex : WellFounded (Prod.Lex (· < ·) (· < ·) : Nat × Nat → Nat × Nat → Prop) := (Prod.lex Nat.lt_wfRel Nat.lt_wfRel).wf
  refine Subrelation.wf ?_ (InvImage.wf (fun x : Moment => (x.budget, x.activity.weight)) hlex)
  exact fun {y x} (h : y.Less x) => Prod.lex_def.mpr h

variable {x y : Moment}

/-- A body runs in a call of its own, of which there are no more than may go on at a time. -/
theorem Calls.counted {c : Closure} {args : List Value} (hc : x.Calls y) (hy : y.activity = .runBody c args) :
    y.machine.depth = x.machine.depth + 1 ∧ y.machine.depth ≤ maxDepth := by
  cases hc with
  | enter h => exact ⟨rfl, Nat.lt_of_not_le h⟩
  | _ => cases hy

theorem LoopFree.calls (h : x.LoopFree) (hc : x.Calls y) : y.LoopFree where
  every := h.every.calls hc
  notLoop := by
    rintro ⟨condition, body, hy⟩
    cases hc with
    | loop =>
      obtain ⟨⟨ctx, h, -⟩, -⟩ := h.every
      exact h _ _ rfl
    | again => exact h.notLoop ⟨_, _, rfl⟩
    | _ => cases hy

/-- A body takes one from the budget. All else has less code at hand, and works at the same depth. -/
theorem LoopFree.less (h : x.LoopFree) (hc : x.Calls y) : y.Less x := by
  have hy := h.calls hc
  have hdepth : y.machine.depth = x.machine.depth + y.activity.body?.toList.length := x.orderly.deeper y hc
  cases hc with
  | enter hlt => exact .inl (Nat.sub_lt_sub_left (Nat.lt_of_not_le hlt) (Nat.lt_succ_self _))
  | loop => exact absurd ⟨_, _, rfl⟩ hy.notLoop
  | loopCondition | loopBody | again => exact absurd ⟨_, _, rfl⟩ h.notLoop
  | _ =>
    refine .inr ⟨congrArg (maxDepth - ·) hdepth, ?_⟩
    simp +arith [Activity.weight]

end Moment

end Lox
