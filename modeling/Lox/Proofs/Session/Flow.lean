import Lox.Proofs.Session.Every
import Lox.Proofs.Evaluation.Confined

/-!
# Control flow at run time

No `return` leaves a program or takes a value out of an initializer, and no `break` leaves the body that it stands
in, in any history of a session.
-/

namespace Lox

variable {h : History} {r : Request}

/-- All programs that run are confined, as the resolution has found no error in them. -/
theorem Request.confined (r : Request) (s : Session) : r.Passes Stmt.Confined s := by
  cases r with
  | call => trivial
  | run fuel source =>
    intro c hc
    obtain ⟨-, he, -⟩ := of_analyze hc
    exact (resolveStmts_confined c.program {} he).every

/-- Flows end where they belong in the request: those of its statements complete, those of bodies complete or
return, those of initializers return nothing, and no loop ends in a `break` for what is around it. -/
structure History.FlowsStay (h : History) (r : Request) : Prop where
  program : ∀ n st m flow m', r.Begins h.session ⟨n, .stmt st, m⟩ → Eval.execute n st m = .done flow m' →
    flow = .completed
  body : ∀ n c args m env m₁ flow m', r.Meets h.session ⟨n + 1, .runBody c args, m⟩ →
    Eval.newFrame (argumentFrame c.routine.params args) c.env m = .done env m₁ →
    Eval.within env (Eval.executeAll n c.routine.body) m₁ = .done flow m' →
    flow ≠ .broke ∧ (c.isInitializer = true → flow = .completed ∨ flow = .returned .nil)
  loop : ∀ n c st m flow m', r.Meets h.session ⟨n, .stmt (.loop c st), m⟩ →
    Eval.execute n (.loop c st) m = .done flow m' → flow ≠ .broke

/-- Outside of all functions and loops a flow that stays there has completed. -/
theorem Flow.Stays.completed : ∀ {flow : Flow}, flow.Stays {} → flow = .completed
  | .completed, _ => rfl
  | .returned _, h => absurd rfl h.1
  | .broke, h => nomatch h

/-- In the body of a function a flow that stays there has completed or returned. -/
theorem Flow.Stays.of_body {ctx : Context} {c : Closure} : ∀ {flow : Flow}, flow.Stays (ctx.enter c.kind) →
    flow ≠ .broke ∧ (c.isInitializer = true → flow = .completed ∨ flow = .returned .nil)
  | .completed, _ => ⟨nofun, fun _ => .inl rfl⟩
  | .returned v, h => by
    refine ⟨nofun, fun hi => .inr ?_⟩
    have hkind : c.kind = .initializer := by rw [Closure.kind, hi]; rfl
    rw [h.2 hkind]
  | .broke, h => nomatch h

/-- In every history, control flow does not leak out of programs, bodies and loops. -/
theorem control_flow_never_leaks (hp : h.Possible) (ha : h.Allows r) : h.FlowsStay r := by
  have hevery : h.Every Stmt.Confined := hp.every fun p _ => p.2.confined p.1
  have meets : ∀ {x : Moment}, r.Meets h.session x → x.Every Stmt.Confined := hevery.meets (r.confined _) ha
  refine ⟨fun n st m flow m' hb hf => ?_, fun n c args m env m₁ flow m' hx _ hf => ?_, fun n c st m flow m' hx hf => ?_⟩
  · cases hb with
    | @statement fuel source c before _ after _ hc hprog _ =>
      have hall := (Request.run n source).confined h.session c hc
      rw [hprog] at hall
      exact ((Eval.stays n).stmt (EveryStmts.append hall).2.1 hf).completed
  · obtain ⟨⟨hc, -⟩, -⟩ := meets hx
    obtain ⟨ctx, hbody⟩ := Closure.Every.body hc
    exact (Eval.Gives.within ((Eval.stays n).stmts hbody) hf).of_body
  · obtain ⟨⟨ctx, hst⟩, -⟩ := meets hx
    cases n with
    | zero => cases hf
    | succ n =>
      rw [Eval.execute] at hf
      exact ((Eval.stays n).loop c hst.2.2 hf).2

/-- The loop in the initializer returns before its `break`, and the one in the program breaks. -/
theorem control_flow_of_initializer :
    let h := History.start (.ofBytes []) .unlimited 0
    let r := Request.run 30 "class A { init() { while (true) { return; break; } } } while (true) { A(); break; }"
    ∃ a, h.session.answer? r = some a ∧ a.errors = [] ∧ h.FlowsStay r := by
  intro h r
  have hrun : (h.session.answer? r).map Answer.errors = some [] := by decide +kernel
  obtain ⟨a, ha, he⟩ := Option.map_eq_some_iff.mp hrun
  have hallows : h.Allows r := trivial
  exact ⟨a, ha, he, control_flow_never_leaks .start hallows⟩

end Lox
