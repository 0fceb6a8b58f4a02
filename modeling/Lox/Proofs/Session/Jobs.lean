import Lox.Proofs.Session.Invariant
import Lox.Proofs.Evaluation.Ordered

/-!
# Jobs of a machine

A host has a machine interpret statements or call a value. What a session does for a request is such a job, unless it finds
a static error.
-/

namespace Lox

/-- What a host has a machine do: with any statements and any table, or with any values. -/
inductive Job where
  | interpret (fuel : Nat) (program : List Stmt) (table : BindingTable)
  | call (fuel : Nat) (callee : Value) (arguments : List Value) (line : Nat)

namespace Job

def Result : Job → Type
  | interpret _ _ _ => Unit
  | call _ _ _ _ => Value

def run : (j : Job) → Eval j.Result
  | interpret fuel program table => Eval.interpret fuel program table
  | call fuel callee arguments line => Eval.call fuel callee arguments line

/-- The machine on which the evaluation begins. -/
def machine (m : Machine) : Job → Machine
  | interpret _ _ table => { m with bindings := m.bindings.merge table }
  | call _ _ _ _ => m

/-- The moments that the evaluation begins with: the statements of the program, or the call. -/
inductive Begins (m : Machine) : Job → Moment → Prop where
  | statement {fuel program table before st after m'} : program = before ++ st :: after →
    Eval.executeEach fuel before ((interpret fuel program table).machine m) = .done () m' →
    Begins m (interpret fuel program table) ⟨fuel, .stmt st, m'⟩
  | call {fuel callee arguments line} : Begins m (call fuel callee arguments line) ⟨fuel, .call callee arguments line, m⟩

/-- The evaluation, without the flush that may follow it. -/
def evaluate : (j : Job) → Eval j.Result
  | interpret fuel program _ => Eval.executeEach fuel program
  | call fuel callee arguments line => Eval.call fuel callee arguments line

def work (j : Job) (m : Machine) : Work :=
  ⟨∀ z, j.Begins m z → z.Plain, j.Begins m, fun _ => False, fun hp => hp⟩

/-! ## The flush -/

section
variable {j : Job} {m m' : Machine} {e : Error}

theorem run_interpret (fuel : Nat) (program : List Stmt) (table : BindingTable) (m : Machine) :
    (interpret fuel program table).run m =
      Eval.flushing (Eval.executeEach fuel program) ((interpret fuel program table).machine m) := rfl

theorem ends (he : (j.run m).EndsIn m') : (j.evaluate (j.machine m)).EndsIn m' := by
  cases j with
  | call => exact he
  | interpret fuel program table =>
    rw [run_interpret] at he
    unfold Eval.flushing at he
    change (Eval.executeEach fuel program ((interpret fuel program table).machine m)).EndsIn m'
    cases hr : Eval.executeEach fuel program ((interpret fuel program table).machine m) with
    | exhausted => rw [hr] at he; exact he
    | done a m₁ => rw [hr] at he; dsimp only at he; split at he <;> exact he
    | failed e m₁ => rw [hr] at he; dsimp only at he; split at he <;> exact he

/-- No error of a job has another source than its evaluation and the flush. -/
theorem evaluate_fails (hf : (j.run m).Fails e) : (j.evaluate (j.machine m)).Fails e ∨ e = .output .flushFailed := by
  obtain ⟨m', hf⟩ := hf
  cases j with
  | call => exact .inl ⟨m', hf⟩
  | interpret fuel program table =>
    rw [run_interpret] at hf
    unfold Eval.flushing at hf
    split at hf
    · split at hf <;> cases hf
      exact .inr rfl
    · rename_i hr
      split at hf <;> cases hf
      · exact .inr rfl
      · exact .inl ⟨_, hr⟩
    · cases hf

/-- A failure to flush replaces an error of the evaluation. -/
theorem fails_of_evaluate (hf : (j.evaluate (j.machine m)).Fails e) :
    (j.run m).Fails e ∨ (j.run m).Fails (.output .flushFailed) := by
  obtain ⟨m', hf⟩ := hf
  cases j with
  | call => exact .inl ⟨m', hf⟩
  | interpret fuel program table =>
    have hf : Eval.executeEach fuel program ((interpret fuel program table).machine m) = .failed e m' := hf
    rw [run_interpret]
    unfold Eval.flushing
    rw [hf]
    dsimp only
    split
    · exact .inr ⟨_, rfl⟩
    · exact .inl ⟨_, rfl⟩

end

end Job

/-! ## Order -/

theorem Orderly.executeEach {w : Work} {n : Nat} : ∀ {sts : List Stmt} {m : Machine},
    (∀ before st after m', sts = before ++ st :: after → Eval.executeEach n before m = .done () m' → w.turns ⟨n, .stmt st, m'⟩) →
    Orderly w m (fun z => ∃ before st after m', sts = before ++ st :: after ∧ Eval.executeEach n before m = .done () m' ∧
      z = ⟨n, .stmt st, m'⟩) (Eval.executeEach n sts m)
  | [], m, _ => by
    refine (own (.pure ())).congr fun z => ⟨?_, False.elim⟩
    rintro ⟨before, st, after, m', heq, -⟩
    cases before <;> cases heq
  | st :: sts, m, hturns => by
    have hrest : ∀ flow m', Eval.execute n st m = .done flow m' → Orderly w m' _ (Eval.executeEach n sts m') :=
      fun flow m' hf => executeEach fun before st' after m'' heq hm => hturns (st :: before) st' after m'' (by rw [heq]; rfl)
        (by rw [Eval.executeEach, Run.bind_of_done hf]; exact hm)
    have hst : Moment.Orderly ⟨n, .stmt st, m⟩ := Moment.orderly _
    have hfirst : Orderly w m (· = ⟨n, .stmt st, m⟩) (Eval.execute n st m) :=
      single hst (hturns [] st sts m rfl rfl) rfl rfl (fun m' he => ⟨hst.env m' he, hst.depth m' he, m', he, rfl⟩)
        fun _ => Iff.rfl
    refine (hfirst.bind hrest).congr fun z => ⟨?_, ?_⟩
    · rintro ⟨before, st', after, m', heq, hm, rfl⟩
      cases before with
      | nil => cases heq; cases hm; exact .inl rfl
      | cons st₀ before =>
        cases heq
        obtain ⟨flow, m₁, hf, hm⟩ := Run.of_bind_done hm
        exact .inr ⟨flow, m₁, hf, before, st', after, m', rfl, hm, rfl⟩
    · rintro (rfl | ⟨flow, m₁, hf, before, st', after, m', rfl, hm, rfl⟩)
      · exact ⟨[], st, sts, m, rfl, rfl, rfl⟩
      · exact ⟨st :: before, st', after, m', rfl, by rw [Eval.executeEach, Run.bind_of_done hf]; exact hm, rfl⟩

namespace Job

variable {j : Job} {m m' : Machine}

/-- All that a job does is orderly, up to the flush. -/
theorem orderly (j : Job) (m : Machine) : Orderly (j.work m) (j.machine m) (j.Begins m) (j.evaluate (j.machine m)) := by
  cases j with
  | call fuel callee arguments line =>
    have h : Moment.Orderly ⟨fuel, .call callee arguments line, m⟩ := Moment.orderly _
    refine (Orderly.single (w := (call fuel callee arguments line).work m) (m := m) h Begins.call rfl rfl
      (fun m' he => ⟨h.env m' he, h.depth m' he, m', he, rfl⟩) fun _ => Iff.rfl).congr fun z => ⟨fun hb => ?_, ?_⟩
    · cases hb; rfl
    · rintro rfl; exact .call
  | interpret fuel program table =>
    refine (Orderly.executeEach (w := (interpret fuel program table).work m) fun _ _ _ _ heq hm => Begins.statement heq hm).congr
      fun z => ⟨fun hb => ?_, ?_⟩
    · cases hb with
      | statement heq hm => exact ⟨_, _, _, _, heq, hm, rfl⟩
    · rintro ⟨before, st, after, m', heq, hm, rfl⟩
      exact .statement heq hm

end Job

/-! ## Requests as jobs -/

namespace Request

variable {r : Request} {s : Session}

/-- What the session has its machine do for the request. If there is a static error, nothing runs. -/
def job? (s : Session) : Request → Option Job
  | run fuel source => (analyze source s.nextId).checked.map fun c => .interpret fuel c.program c.table
  | call fuel callee arguments line => some (.call fuel callee arguments line)

theorem begins_iff {x : Moment} : r.Begins s x ↔ ∃ j, r.job? s = some j ∧ j.Begins s.machine x := by
  cases r with
  | call fuel callee arguments line =>
    refine ⟨fun hb => ⟨_, rfl, ?_⟩, fun ⟨j, hj, hb⟩ => ?_⟩
    · cases hb; exact .call
    · cases hj; cases hb; exact .call
  | run fuel source =>
    refine ⟨fun hb => ?_, fun ⟨j, hj, hb⟩ => ?_⟩
    · cases hb with
      | statement hc heq hm =>
        refine ⟨_, by rw [job?, hc]; rfl, .statement heq ?_⟩
        rw [← hm, Request.machine, hc]
        rfl
    · obtain ⟨c, hc, rfl⟩ := Option.map_eq_some_iff.mp hj
      cases hb with
      | statement heq hm =>
        refine .statement hc heq ?_
        rw [← hm, Request.machine, hc]
        rfl

/-- The machine after a request is one at the end of its job, or that before it. -/
theorem answer_ends {a : Answer} (ha : s.answer? r = some a) :
    (∃ j, r.job? s = some j ∧ (j.run s.machine).EndsIn a.session.machine) ∨
      r.job? s = none ∧ a.session.machine = s.machine := by
  cases r with
  | call fuel callee arguments line =>
    refine .inl ⟨_, rfl, ?_⟩
    change (Eval.call fuel callee arguments line s.machine).EndsIn a.session.machine
    simp only [Session.answer?, Session.call] at ha
    cases ho : Eval.call fuel callee arguments line s.machine <;> rw [ho] at ha <;> cases ha <;> rfl
  | run fuel source =>
    simp only [Session.answer?, Session.run] at ha
    cases hc : (analyze source s.nextId).checked with
    | none => rw [hc] at ha; cases ha; exact .inr ⟨by rw [job?, hc]; rfl, rfl⟩
    | some c =>
      rw [hc] at ha
      refine .inl ⟨_, by rw [job?, hc]; rfl, ?_⟩
      change (Eval.interpret fuel c.program c.table s.machine).EndsIn a.session.machine
      dsimp only at ha
      cases ho : Eval.interpret fuel c.program c.table s.machine <;> rw [ho] at ha <;> cases ha <;> rfl

end Request

end Lox
