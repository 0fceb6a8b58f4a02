import Lox.Proofs.Evaluation.ForLoop
import Lox.Proofs.Evaluation.Vacant

/-!
# Where a break and a return lead

A break leaves the statements around it up to the next loop, and that loop completes. A return leaves all statements around it, loops
among them, and the function has its result. Nothing else is run on the way.
-/

namespace Lox

open Eval

namespace Activity

/-- Statements, without a loop around them. -/
def IsStraight : Activity → Prop
  | stmt _ => True
  | stmts _ => True
  | _ => False

end Activity

namespace Moment

/-- The evaluation of the first moment turns to the second, by way of such work alone. -/
inductive ReachesBy (p : Activity → Prop) : Moment → Moment → Prop where
  | refl {x} : ReachesBy p x x
  | step {x y z} : Calls x y → p y.activity → ReachesBy p y z → ReachesBy p x z

/-- The statements end in that flow. -/
inductive FlowsTo : Moment → Flow → Machine → Prop where
  | stmt {n st m flow m'} : execute n st m = .done flow m' → FlowsTo ⟨n, .stmt st, m⟩ flow m'
  | stmts {n sts m flow m'} : executeAll n sts m = .done flow m' → FlowsTo ⟨n, .stmts sts, m⟩ flow m'
  | loop {n c st m flow m'} : repeatWhile n c st m = .done flow m' → FlowsTo ⟨n, .loop c st, m⟩ flow m'

variable {x y z : Moment} {flow : Flow} {m' : Machine} {p : Activity → Prop}

theorem ReachesBy.trans (h : x.ReachesBy p y) (h' : y.ReachesBy p z) : x.ReachesBy p z := by
  induction h with
  | refl => exact h'
  | step hc hy _ ih => exact .step hc hy (ih h')

theorem FlowsTo.inPlace (h : x.FlowsTo flow m') : x.FlowsTo flow { m' with env := x.machine.env } := by
  cases h with
  | @stmt n st m flow m' h => exact env_of_done (a := .stmt st) h ▸ .stmt h
  | @stmts n sts m flow m' h => exact env_of_done (a := .stmts sts) h ▸ .stmts h
  | @loop n c st m flow m' h => exact env_of_done (a := .loop c st) h ▸ .loop h

/-- What leaves a statement leaves those around it. Only a return leaves a loop as it is. -/
theorem Calls.flowsTo (hc : x.Calls y) (hx : x.activity.IsStraight ∨ x.activity.IsStatement ∧ flow ≠ .broke)
    (hne : flow ≠ .completed) (h : y.FlowsTo flow m') : x.FlowsTo flow { m' with env := x.machine.env } := by
  cases hc with
  | @block n m sts env m₁ hframe =>
    cases hframe
    cases h with
    | stmts h => exact .stmt ((execute_block n sts m).trans (congrArg (Outcome.backIn m.env) h))
  | @thenBranch n m c st st' v m₁ hv ht =>
    cases h with
    | stmt h =>
      refine FlowsTo.inPlace (.stmt ?_)
      cases st' with
      | none => exact (Run.bind_of_done hv).trans (by rw [if_pos ht, h])
      | some st' => exact (Run.bind_of_done hv).trans (by rw [if_pos ht, h])
  | @elseBranch n m c st st' v m₁ hv ht =>
    cases h with
    | stmt h => exact FlowsTo.inPlace (.stmt ((Run.bind_of_done hv).trans (by rw [if_neg (by simp [ht]), h])))
  | loop =>
    cases h with
    | loop h => exact FlowsTo.inPlace (.stmt h)
  | first =>
    cases h with
    | stmt h =>
      refine FlowsTo.inPlace (.stmts ((Run.bind_of_done h).trans ?_))
      cases flow with
      | completed => exact absurd rfl hne
      | returned v => rfl
      | broke => rfl
  | rest hst =>
    cases h with
    | stmts h => exact FlowsTo.inPlace (.stmts ((Run.bind_of_done hst).trans h))
  | loopBody hv ht =>
    cases h with
    | stmt h =>
      refine FlowsTo.inPlace (.loop ((Run.bind_of_done hv).trans ?_))
      rw [if_pos ht]
      refine (Run.bind_of_done h).trans ?_
      cases flow with
      | completed => exact absurd rfl hne
      | returned v => rfl
      | broke => exact hx.elim False.elim fun hx => absurd rfl hx.2
  | again hv ht hst =>
    cases h with
    | loop h =>
      refine FlowsTo.inPlace (.loop ((Run.bind_of_done hv).trans ?_))
      rw [if_pos ht]
      exact (Run.bind_of_done hst).trans h
  | body => exact (hx.elim id And.left).elim
  | _ => cases h

/-- What leaves a statement leaves all that it is reached from by way of statements. -/
theorem ReachesBy.flowsTo (hp : ∀ a, p a → a.IsStraight ∨ a.IsStatement ∧ flow ≠ .broke)
    (hne : flow ≠ .completed) (hr : x.ReachesBy p y) (hx : p x.activity) (h : y.FlowsTo flow m') :
    x.FlowsTo flow { m' with env := x.machine.env } := by
  induction hr with
  | refl => exact h.inPlace
  | step hc hy _ ih =>
    have hleft := hc.flowsTo (hp _ hx) hne (ih hy h)
    exact hleft

end Moment

variable {n k : Nat} {m m' m'' : Machine} {st : Stmt}

/-- A break in the body of a loop completes it, on the machine where the break is. -/
theorem break_leaves_loop {condition : Expr} {body : Stmt}
    (hr : Moment.ReachesBy Activity.IsStraight ⟨n, .loop condition body, m⟩ ⟨k, .stmt st, m'⟩)
    (hb : execute k st m' = .done .broke m'') :
    repeatWhile n condition body m = .done .completed { m'' with env := m.env } := by
  cases hr with
  | step hc hy hr =>
    cases hc with
    | loopBody hv ht =>
      have hleft : Moment.FlowsTo _ .broke _ := hr.flowsTo (fun _ => .inl) nofun trivial (.stmt hb)
      cases hleft with
      | stmt h =>
        refine (Run.bind_of_done hv).trans ?_
        rw [if_pos ht]
        refine (Run.bind_of_done h).trans ?_
        rw [Moment.env_of_done (a := .expr condition) hv]
        rfl
    | loopCondition => cases hy
    | again => cases hy

/-- A return in the body of a function ends the call, on the machine where the return is. -/
theorem return_leaves_function {c : Closure} {args : List Value} {v : Value}
    (hr : Moment.ReachesBy Activity.IsStatement ⟨n, .runBody c args, m⟩ ⟨k, .stmt st, m'⟩)
    (hb : execute k st m' = .done (.returned v) m'') :
    runBody n c args m = (if c.isInitializer then receiverOf c else pure v) { m'' with env := m.env } := by
  cases hr with
  | step hc hy hr =>
    cases hc with
    | @body n m c args env m₁ hframe =>
      have hleft : Moment.FlowsTo _ (.returned v) _ := hr.flowsTo (fun _ hp => .inr ⟨hp, nofun⟩) nofun trivial (.stmt hb)
      cases hframe
      cases hleft with
      | stmts h =>
        have hwithin : within (m.store.frames.size :: c.env) (executeAll n c.routine.body)
            { m with store := (m.store.extend (argumentFrame c.routine.params args) c.env).2 } =
              .done (.returned v) { m'' with env := m.env } := congrArg (Outcome.backIn m.env) h
        refine (Run.bind_of_done rfl).trans ((Run.bind_of_done hwithin).trans ?_)
        split <;> rfl

end Lox
