import Lox.Proofs.Session.Agreement
import Lox.Proofs.Session.Jobs

/-!
# Every exit restores the machine

Whatever way a job ends, the environment is the global one again, and no call goes on. While it is done, the depth counts
the function bodies that run. There are at most a thousand, and only the attempt at one more raises the overflow.
-/

namespace Lox

/-- No scope is open but the global one, and no call goes on. -/
structure Machine.AtRest (m : Machine) : Prop where
  env : m.env = globalEnv
  depth : m.depth = 0

/-- The machines that there are between jobs, whatever jobs have been done and whatever way they have ended. -/
inductive Machine.Idle : Machine → Prop where
  | start (input output clock) : Idle (.start input output clock)
  | after {m j m'} : Idle m → (Job.run j m).EndsIn m' → Idle m'
  /-- The host may read from the input and write to the output itself, and time goes on. -/
  | between {m} (input output clock) : Idle m → Idle { m with input, output, clock }

/-- Such are the machines of all sessions. -/
theorem History.Possible.idle {h : History} (hp : h.Possible) : h.session.machine.Idle := by
  induction hp with
  | start => exact .start _ _ _
  | next _ _ hans ih =>
    obtain ⟨j, -, he⟩ | ⟨-, he⟩ := Request.answer_ends hans
    · exact .after ih he
    · exact he ▸ ih
  | between input output clock _ ih => exact .between input output clock ih

namespace Job

/-- The job comes to the moment while the bodies of those functions run, the innermost first. -/
inductive Runs (j : Job) (m : Machine) : List Closure → Moment → Prop where
  | begins {x} : j.Begins m x → Runs j m [] x
  | calls {cs x y} : Runs j m cs x → x.Calls y → Runs j m (y.activity.body?.toList ++ cs) y

variable {j : Job} {m m' : Machine} {cs : List Closure} {x y : Moment}

theorem Runs.reaches (h : j.Runs m cs x) (hr : x.Reaches y) : ∃ cs', j.Runs m cs' y := by
  induction hr generalizing cs with
  | refl => exact ⟨cs, h⟩
  | step hc _ ih => exact ih (h.calls hc)

/-! ## Depth -/

theorem machine_depth (j : Job) (m : Machine) : (j.machine m).depth = m.depth := by cases j <;> rfl

theorem machine_env (j : Job) (m : Machine) : (j.machine m).env = m.env := by cases j <;> rfl

/-- The depth grows with the bodies that run, and only with them. -/
theorem Runs.depth (h : j.Runs m cs x) : x.machine.depth = m.depth + cs.length := by
  induction h with
  | begins hb => rw [(j.orderly m).deeper _ hb, machine_depth]; cases hb <;> rfl
  | @calls cs x y _ hc ih => rw [x.orderly.deeper y hc, ih, List.length_append]; omega

theorem body_of_calls (hc : x.Calls y) (hb : y.activity.body? ≠ none) :
    x.machine.depth < maxDepth ∧ y.activity.body?.toList.length = 1 := by
  cases hc with
  | enter hd => exact ⟨Nat.lt_of_not_le hd, rfl⟩
  | _ => exact absurd rfl hb

theorem Runs.bounded (h : j.Runs m cs x) (hm : m.depth = 0) : cs.length ≤ maxDepth := by
  induction h with
  | begins => exact Nat.zero_le _
  | @calls cs x y hx hc ih =>
    rw [List.length_append]
    by_cases hb : y.activity.body? = none
    · rw [hb]
      simpa using ih
    · -- one more body: it was admitted, as the depth was still below the bound
      obtain ⟨hlt, hone⟩ := body_of_calls hc hb
      rw [hx.depth, hm, Nat.zero_add] at hlt
      omega

/-! ## Rest -/

theorem rest_of_ends (hm : m.AtRest) (he : (j.run m).EndsIn m') : m'.AtRest where
  env := ((j.orderly m).env m' (ends he)).trans ((machine_env j m).trans hm.env)
  depth := ((j.orderly m).depth m' (ends he)).trans ((machine_depth j m).trans hm.depth)

end Job

theorem Machine.Idle.atRest {m : Machine} (h : m.Idle) : m.AtRest := by
  induction h with
  | start => exact ⟨rfl, rfl⟩
  | after _ he ih => exact Job.rest_of_ends ih he
  | between _ _ _ _ ih => exact ⟨ih.env, ih.depth⟩

/-! ## Overflow -/

namespace Job

variable {j : Job} {m m' : Machine} {cs : List Closure} {x : Moment}

/-- An error of a moment is one of the evaluation. -/
theorem Runs.stops (h : j.Runs m cs x) {e : Error} (hf : x.outcome.Fails e) : (j.evaluate (j.machine m)).Fails e := by
  induction h with
  | begins hb => exact (j.orderly m).stops _ hb e hf
  | calls _ hc ih => exact ih ((Moment.orderly _).stops _ hc e hf)

/-- An overflow has been raised by a moment that the job comes to. -/
theorem overflows_of_fails {line : Nat} (hf : (j.run m).Fails (.runtime line .stackOverflow)) :
    ∃ cs x, j.Runs m cs x ∧ x.Overflows line := by
  obtain hf | he := evaluate_fails hf
  · obtain ho | ⟨z, hb, hf⟩ := (j.orderly m).raised line hf
    · exact ho.elim
    · obtain ⟨y, hr, hy⟩ := Moment.fails_iff_overflows.mp hf
      obtain ⟨cs, hcs⟩ := (Runs.begins hb).reaches hr
      exact ⟨cs, y, hcs, hy⟩
  · cases he

/-- How a job leaves the machine, and how it uses it. -/
structure Restores (j : Job) (m : Machine) : Prop where
  before : m.AtRest
  /-- With a result or with an error. -/
  after : ∀ m', (j.run m).EndsIn m' → m'.AtRest
  /-- Bodies are counted at all moments. -/
  counted : ∀ x y, j.Begins m x → x.Reaches y → ∃ cs, j.Runs m cs y
  counts : ∀ cs x, j.Runs m cs x → x.machine.depth = cs.length ∧ cs.length ≤ 1000
  returns : ∀ cs x m', j.Runs m cs x → x.outcome.EndsIn m' → m'.env = x.machine.env ∧ m'.depth = cs.length
  admits : ∀ cs n c args line m', j.Runs m cs ⟨n + 1, .enter c args line, m'⟩ → cs.length < 1000 →
    j.Runs m (c :: cs) ⟨n, .runBody c args, { m' with depth := cs.length + 1 }⟩
  refuses : ∀ cs n c args line m', j.Runs m cs ⟨n + 1, .enter c args line, m'⟩ → cs.length = 1000 →
    Eval.enter (n + 1) c args line m' = .failed (.runtime line .stackOverflow) m' ∧
      ((j.run m).Fails (.runtime line .stackOverflow) ∨ (j.run m).Fails (.output .flushFailed))
  raised : ∀ line fault, (j.run m).Fails (.runtime line fault) → fault.message = "Stack overflow." →
    ∃ cs n c args m', j.Runs m cs ⟨n + 1, .enter c args line, m'⟩ ∧ cs.length = 1000

end Job

/-- Every exit restores the machine: in all machines between jobs, for all jobs. -/
theorem every_exit_restores {m : Machine} (hm : m.Idle) (j : Job) : j.Restores m := by
  have hrest := hm.atRest
  have depth : ∀ {cs x}, j.Runs m cs x → x.machine.depth = cs.length := fun h => by
    rw [h.depth, hrest.depth, Nat.zero_add]
  refine ⟨hrest, fun m' => Job.rest_of_ends hrest, fun x y hb hr => (Job.Runs.begins hb).reaches hr,
    fun cs x h => ⟨depth h, h.bounded hrest.depth⟩, fun cs x m' h he => ?_,
    fun cs n c args line m' h hlt => ?_, fun cs n c args line m' h hfull => ?_,
    fun line fault hf hmessage => ?_⟩
  · exact ⟨x.orderly.env m' he, (x.orderly.depth m' he).trans (depth h)⟩
  · have hd : m'.depth = cs.length := depth h
    have hc := h.calls (.enter (by rw [hd]; exact Nat.not_le.mpr hlt))
    rw [hd] at hc
    exact hc
  · have hd : m'.depth = cs.length := depth h
    have ho : Eval.enter (n + 1) c args line m' = .failed (.runtime line .stackOverflow) m' :=
      if_pos (by rw [hd, hfull]; exact Nat.le_refl _)
    exact ⟨ho, Job.fails_of_evaluate (h.stops ⟨m', ho⟩)⟩
  · obtain rfl : fault = .stackOverflow := RuntimeFault.message_injective hmessage
    obtain ⟨cs, x, h, ⟨hd⟩⟩ := Job.overflows_of_fails hf
    have hle := h.bounded hrest.depth
    rw [← depth h] at hle
    exact ⟨cs, _, _, _, _, h, (depth h).symm.trans (Nat.le_antisymm hle hd)⟩

/-- A constructor fails in a block, and the host calls on. -/
theorem exit_of_constructor_restores :
    let h := History.start (.ofBytes []) .unlimited 0
    ∃ a, h.session.answer? (.run 40 "class A { init() { { nil(); } } } A();") = some a ∧
      a.errors = [.runtime 1 .notCallable] ∧ (Job.call 5 (.native .clock) [] 1).Restores a.session.machine := by
  intro h
  have hrun : (h.session.answer? (.run 40 "class A { init() { { nil(); } } } A();")).map Answer.errors =
      some [.runtime 1 .notCallable] := by decide +kernel
  obtain ⟨a, ha, he⟩ := Option.map_eq_some_iff.mp hrun
  have hp : (h.after (.run 40 "class A { init() { { nil(); } } } A();") a).Possible := .next .start trivial ha
  exact ⟨a, ha, he, every_exit_restores hp.idle _⟩

end Lox
