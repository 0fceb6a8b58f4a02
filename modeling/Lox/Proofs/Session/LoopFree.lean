import Lox.Proofs.Grammar.LoopFree
import Lox.Proofs.Session.Every
import Lox.Proofs.Evaluation.Settled

/-!
# Sessions without loops

If no source of a session has a word that makes a loop, every request comes to an end, however the programs call themselves: a
body runs only in a call that counts, and no more than `maxDepth` calls go on at a time.
-/

namespace Lox

open Filter

/-! ## Programs and the flush -/

namespace Eval.Settles

theorem executeEach : ∀ {sts : List Stmt} {ctx : Context} {m : Machine}, EveryStmts Stmt.NoLoop sts ctx →
    m.Every Stmt.NoLoop → Settles (fun n => executeEach n sts) m
  | [], _, _, _, _ => .pure ()
  | st :: _, ctx, m, hsts, hm => by
    have hst : Moment.LoopFree ⟨0, .stmt st, m⟩ := ⟨⟨⟨ctx, hsts.1⟩, hm⟩, nofun⟩
    refine Settles.bind hst.settles fun flow m' hflow => ?_
    obtain ⟨n, hflow⟩ := hflow.exists
    exact executeEach hsts.2 (Moment.after (a := .stmt st) hflow ⟨⟨ctx, hsts.1⟩, hm⟩).1

theorem flushing {body : Nat → Eval Unit} {m : Machine} (h : Settles body m) : Settles (fun n => flushing (body n)) m := by
  obtain ⟨o, ho, hbody⟩ := h
  cases o with
  | done a m' =>
    by_cases hf : m'.output.flushFails
    · exact ⟨.failed (.output .flushFailed) m', trivial, hbody.mono fun n hb => by simp only [Eval.flushing, hb, if_pos hf]⟩
    · exact ⟨.done a m', trivial, hbody.mono fun n hb => by simp only [Eval.flushing, hb, if_neg hf]⟩
  | failed e m' =>
    by_cases hf : m'.output.flushFails
    · exact ⟨.failed (.output .flushFailed) m', trivial, hbody.mono fun n hb => by simp only [Eval.flushing, hb, if_pos hf]⟩
    · exact ⟨.failed e m', ho, hbody.mono fun n hb => by simp only [Eval.flushing, hb, if_neg hf]⟩
  | exhausted => exact ho.elim

theorem interpret {sts : List Stmt} {ctx : Context} {m : Machine} (table : BindingTable) (h : EveryStmts Stmt.NoLoop sts ctx)
    (hm : m.Every Stmt.NoLoop) : Settles (fun n => interpret n sts table) m :=
  .first (fun _ => trivial) fun _ m' hm' => by cases hm'; exact .flushing (executeEach h hm)

end Eval.Settles

/-! ## Requests -/

/-- The source has no word that makes a loop. -/
def IsCalm (source : String) : Prop := ∀ t ∈ tokensOf (Item.ofSource source), t.kind.Calm

instance (source : String) : Decidable (IsCalm source) :=
  inferInstanceAs (Decidable (∀ t ∈ tokensOf (Item.ofSource source), t.kind ≠ .keyword .while ∧ t.kind ≠ .keyword .for))

def Request.Calm : Request → Prop
  | .run _ source => IsCalm source
  | .call .. => True

theorem Request.Calm.passes {r : Request} (h : r.Calm) (s : Session) : r.Passes Stmt.NoLoop s := by
  cases r with
  | call => trivial
  | run fuel source =>
    intro c hc
    rw [(of_analyze hc).1]
    exact parseProgram_loopFree h s.nextId {}

/-- What a run of a source may end in: a result, static errors, before which nothing runs, or one error of the run. -/
inductive Report.Ends (s s' : Session) (report : Report) : Prop where
  | ok : report.status = .ok → report.errors = [] → Ends s s' report
  | rejected : report.status = .staticError → s'.machine = s.machine → Ends s s' report
  | stopped {e} : report.status = .runtimeError → report.errors = [e] → e.OfRun → Ends s s' report

/-- The requests that may be made come to an end. -/
structure History.Ends (h : History) : Prop where
  /-- With enough fuel the run of a source without loops is always answered in the same way. -/
  run : ∀ source, IsCalm source → ∃ enough report s',
    (∀ fuel ≥ enough, h.session.run fuel source = some (report, s')) ∧ report.Ends h.session s'
  /-- So is a call, whatever is called. -/
  call : ∀ callee arguments line, h.Offers callee → (∀ v ∈ arguments, h.Offers v) → ∃ enough result s',
    (∀ fuel ≥ enough, h.session.call fuel callee arguments line = some (result, s')) ∧ ∀ e, result = .error e → e.OfRun
  /-- Every body runs in a call that counts. -/
  counted : ∀ (r : Request) (x y : Moment) c arguments, r.Meets h.session x → x.Calls y → y.activity = .runBody c arguments →
    y.machine.depth = x.machine.depth + 1 ∧ y.machine.depth ≤ maxDepth

section
variable {h : History}

theorem History.Every.run_ends (he : h.Every Stmt.NoLoop) {source : String} (hcalm : IsCalm source) : ∃ enough report s',
    (∀ fuel ≥ enough, h.session.run fuel source = some (report, s')) ∧ report.Ends h.session s' := by
  let a := analyze source h.session.nextId
  cases hc : a.checked with
  | none =>
    refine ⟨0, ⟨.staticError, a.errors, a.warnings⟩, { h.session with nextId := a.nextId }, fun fuel _ => ?_, .rejected rfl rfl⟩
    simp only [Session.run, a, hc]
  | some c =>
    have hpass := Request.Calm.passes (r := .run 0 source) hcalm h.session c hc
    obtain ⟨o, ho, hrun⟩ := Eval.Settles.interpret c.table hpass he.machine
    obtain ⟨enough, hrun⟩ := eventually_atTop.mp hrun
    cases o with
    | done _ m =>
      refine ⟨enough, ⟨.ok, [], a.warnings⟩, ⟨m, a.nextId⟩, fun fuel hf => ?_, .ok rfl rfl⟩
      simp only [Session.run, a, hc, hrun fuel hf]
    | failed e m =>
      refine ⟨enough, ⟨.runtimeError, [e], a.warnings⟩, ⟨m, a.nextId⟩, fun fuel hf => ?_, .stopped rfl rfl ho⟩
      simp only [Session.run, a, hc, hrun fuel hf]
    | exhausted => exact ho.elim

theorem History.Every.call_ends (he : h.Every Stmt.NoLoop) {callee : Value} {arguments : List Value} (line : Nat)
    (hf : h.Offers callee) (hargs : ∀ v ∈ arguments, h.Offers v) : ∃ enough result s',
    (∀ fuel ≥ enough, h.session.call fuel callee arguments line = some (result, s')) ∧ ∀ e, result = .error e → e.OfRun := by
  have hx : Moment.LoopFree ⟨0, .call callee arguments line, h.session.machine⟩ :=
    ⟨⟨⟨he.offers hf, fun v hv => he.offers (hargs v hv)⟩, he.machine⟩, nofun⟩
  obtain ⟨o, ho, hcall⟩ := hx.settles
  obtain ⟨enough, hcall⟩ := eventually_atTop.mp hcall
  have hcall : ∀ fuel ≥ enough, Eval.call fuel callee arguments line h.session.machine = o := hcall
  cases o with
  | done v m =>
    refine ⟨enough, .ok v, { h.session with machine := m }, fun fuel hf => ?_, nofun⟩
    simp only [Session.call, hcall fuel hf]
  | failed e m =>
    refine ⟨enough, .error e, { h.session with machine := m }, fun fuel hf => ?_, fun e' he' => by cases he'; exact ho⟩
    simp only [Session.call, hcall fuel hf]
  | exhausted => exact ho.elim

end

/-- Where no source so far has had a loop, every call ends, and so does every run of a source without loops. -/
theorem loopFree_session_ends {h : History} (hp : h.Possible) (hcalm : ∀ p ∈ h.past, p.2.Calm) : h.Ends where
  run _ hsource := (hp.every fun p hp => (hcalm p hp).passes p.1).run_ends hsource
  call _ _ line hf hargs := (hp.every fun p hp => (hcalm p hp).passes p.1).call_ends line hf hargs
  counted _ _ _ _ _ _ hc hy := hc.counted hy

/-- A getter and a function call each other without end. The host's call of the function is answered nevertheless. -/
theorem endless_recursion_ends :
    let h := History.start (.ofBytes []) .unlimited 0
    let r := Request.run 40 "class A { again { return f(); } } fun f() { return A().again; }"
    ∃ a f enough result s', h.session.answer? r = some a ∧ a.session.machine.global? "f" = some f ∧
      (∀ fuel ≥ enough, a.session.call fuel f [] 1 = some (result, s')) ∧ ∀ e, result = .error e → e.OfRun := by
  intro h r
  have hcalm : r.Calm := (by decide +kernel : IsCalm "class A { again { return f(); } } fun f() { return A().again; }")
  have hf : ((h.session.answer? r).bind fun a => a.session.machine.global? "f").isSome := by decide +kernel
  obtain ⟨f, hf⟩ := Option.isSome_iff_exists.mp hf
  obtain ⟨a, ha, hf⟩ := Option.bind_eq_some_iff.mp hf
  have hp : (h.after r a).Possible := .next .start trivial ha
  have hends : (h.after r a).Ends := loopFree_session_ends hp fun p hp => by
    obtain rfl := List.mem_singleton.mp hp
    exact hcalm
  obtain ⟨enough, result, s', hcall, he⟩ := hends.call f [] 1 (.var hf) nofun
  exact ⟨a, f, enough, result, s', ha, hf, hcall, he⟩

end Lox
