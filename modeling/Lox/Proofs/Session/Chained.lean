import Lox.Proofs.Session.Owned
import Lox.Proofs.Session.Jobs
import Lox.Proofs.Evaluation.Implicit

/-!
# The machines of a session

Of any two machines that a session ever comes through one comes after the other, be it in one request or in several. What a
frame has of `this` and `super` is the same on all of them.
-/

namespace Lox

variable {m m' : Machine} {x : Moment}

namespace Past

variable (past : Past)

/-- One of the requests comes to the moment. -/
def Meets (x : Moment) : Prop := ∃ p ∈ past, p.2.Meets p.1 x

/-- One of the requests comes through the machine. -/
def Passes (m : Machine) : Prop := ∃ x, past.Meets x ∧ x.Passes m

variable {past}

theorem Meets.passes (h : past.Meets x) : past.Passes x.machine := ⟨x, h, x, .refl, .inl rfl⟩

theorem Meets.ends (h : past.Meets x) (he : x.outcome.EndsIn m) : past.Passes m := ⟨x, h, x, .refl, .inr he⟩

theorem Meets.calls {y : Moment} (h : past.Meets x) (hc : x.Calls y) : past.Meets y := by
  obtain ⟨p, hp, z, hb, hr⟩ := h
  exact ⟨p, hp, z, hb, hr.trans (.step hc .refl)⟩

/-- The machine is that of a moment, or one in which a moment ends. -/
theorem Passes.met (h : past.Passes m) : ∃ y, past.Meets y ∧ (m = y.machine ∨ y.outcome.EndsIn m) := by
  obtain ⟨x, ⟨p, hp, z, hb, hz⟩, y, hr, hm⟩ := h
  exact ⟨y, ⟨p, hp, z, hb, hz.trans hr⟩, hm⟩

theorem Meets.created (h : past.Meets x) {env : Env} {opener : Opener} (hc : x.Creates env opener) :
    (world past).created env opener := by
  obtain ⟨p, hp, hx⟩ := h
  exact ⟨p, hp, x, hx, hc⟩

/-- All programs were checked, so all their scopes are tidy. -/
theorem tidy {o : Occurrence} (h : (world past).known o) : o.scopes.Tidy := by
  obtain ⟨_, _, c, hc, ho⟩ := checked h
  exact tidy_stmts c.program (List.forall_mem_nil _) (Checked.accepted hc).proper o ho

end Past

/-- The moments of all requests so far and of one more. -/
def History.Met (h : History) (r : Request) : Moment → Prop := Past.Meets ((h.session, r) :: h.past)

variable {h : History} {r : Request}

/-! ## Readiness -/

theorem World.Within.trans {w w' w'' : World} (h : w.Within w') (h' : w'.Within w'') : w.Within w'' :=
  ⟨fun env opener hc => h'.created env opener (h.created env opener hc), fun o ho => h'.known o (h.known o ho)⟩

/-- The work is ready in the world of its own request, which has seen no more than the whole session. -/
structure World.Saw (w : World) (x : Moment) (w' : World) (Γ : Scopes) : Prop where
  within : w'.Within w
  covers : w'.Covers x
  ready : x.activity.Ready w' Γ x.machine

theorem World.Saw.later {w w' w'' : World} {Γ : Scopes} (h : w.Saw x w' Γ) (hw : w.Within w'') : w''.Saw x w' Γ :=
  { h with within := h.within.trans hw }

theorem History.Ready.saw (hr : h.Ready) (ha : h.Allows r) (hx : r.Meets h.session x) :
    ∃ w Γ, (h.worldWith r).Saw x w Γ := by
  obtain ⟨hcov, Γ, hready⟩ := hr.meets ha hx
  exact ⟨h.worldWith r, Γ, ⟨fun _ _ => id, fun _ => id⟩, hcov, hready⟩

section
variable {P : Past → Moment → Prop} (hnext : ∀ p past x, P past x → P (p :: past) x)
  (hmeets : ∀ {h : History} {r x}, h.Possible → h.Allows r → r.Meets h.session x → P ((h.session, r) :: h.past) x)
include hnext hmeets

/-- What holds of the moments of every request, and goes on to hold as there are more requests, holds of all moments. -/
theorem History.Possible.past_met (hp : h.Possible) (hx : h.past.Meets x) : P h.past x := by
  induction hp with
  | start =>
    obtain ⟨_, hp, -⟩ := hx
    cases hp
  | between _ _ _ _ ih => exact ih hx
  | @next h r _ hp ha _ ih =>
    obtain ⟨p, hpast, hx⟩ := hx
    cases hpast with
    | head => exact hmeets hp ha hx
    | tail _ hpast => exact hnext _ _ _ (ih ⟨p, hpast, hx⟩)

theorem History.Possible.met (hp : h.Possible) (ha : h.Allows r) (hx : h.Met r x) : P ((h.session, r) :: h.past) x := by
  obtain ⟨p, hpast, hx⟩ := hx
  cases hpast with
  | head => exact hmeets hp ha hx
  | tail _ hpast => exact hnext _ _ _ (hp.past_met hnext hmeets ⟨p, hpast, hx⟩)

end

/-- Whatever the session comes to has been ready. -/
theorem History.Possible.saw_met (hp : h.Possible) (ha : h.Allows r) (hx : h.Met r x) :
    ∃ w Γ, (h.worldWith r).Saw x w Γ :=
  hp.met (P := fun past x => ∃ w Γ, (Past.world past).Saw x w Γ)
    (fun _ _ _ ⟨w, Γ, hsaw⟩ => ⟨w, Γ, hsaw.later (Past.within _ _)⟩) (fun hp ha hx => hp.ready.saw ha hx) ha hx

/-- No program can write `this` or `super`. -/
theorem Activity.Ready.plain {w : World} {Γ : Scopes} {m : Machine} {a : Activity} (h : a.Ready w Γ m) :
    ∀ name ∈ a.writes, name.IsPlain := by
  intro name hn
  cases a with
  | expr e =>
    cases e with
    | assign => obtain rfl := List.mem_singleton.mp hn; exact h.2.proper.1
    | _ => cases hn
  | stmt st =>
    obtain ⟨-, -, hsee⟩ := h
    cases st with
    | varDecl name init =>
      obtain rfl := List.mem_singleton.mp hn
      cases init with
      | none => exact hsee.proper
      | some e => exact hsee.proper.1
    | funDecl => obtain rfl := List.mem_singleton.mp hn; exact hsee.proper.1
    | classDecl => obtain rfl := List.mem_singleton.mp hn; exact hsee.proper.1
    | _ => cases hn
  | _ => cases hn

theorem History.Ready.plain (hr : h.Ready) (ha : h.Allows r) (hx : r.Begins h.session x) : x.Plain := by
  intro y hreach
  obtain ⟨w, Γ, hsaw⟩ := hr.saw ha ⟨x, hx, hreach⟩
  exact hsaw.ready.plain

/-! ## Order -/

/-- The evaluation of a request is that of its job. -/
theorem Request.Meets.passed {s : Session} (hx : r.Meets s x) (hm : x.Passes m) : ∃ j, r.job? s = some j ∧
    Passed (j.Begins s.machine) (j.evaluate (j.machine s.machine)) m := by
  obtain ⟨y, hb, hr⟩ := hx
  obtain ⟨z, hz, hm⟩ := hm
  obtain ⟨j, hj, hb⟩ := Request.begins_iff.mp hb
  exact ⟨j, hj, .inr ⟨y, hb, z, hr.trans hz, hm⟩⟩

theorem Job.machine_store (j : Job) (m : Machine) : (j.machine m).store = m.store := by cases j <;> rfl

theorem History.Ready.plain_work (hr : h.Ready) (ha : h.Allows r) {j : Job} (hj : r.job? h.session = some j) :
    (j.work h.session.machine).plain :=
  fun _ hb => hr.plain ha (Request.begins_iff.mpr ⟨j, hj, hb⟩)

namespace Request.Meets

variable {y : Moment} (hr : h.Ready) (ha : h.Allows r)
include hr ha

/-- The machines of a request come after that of the session. -/
theorem first (hx : r.Meets h.session x) (hm : x.Passes m) : h.session.machine.store.Extends m.store := by
  obtain ⟨j, hj, hm⟩ := hx.passed hm
  rw [← j.machine_store]
  exact (j.orderly _).first (hr.plain_work ha hj) m hm

/-- The machine that a request leaves comes after all that it comes through. -/
theorem last (hx : r.Meets h.session x) (hm : x.Passes m) {a : Answer} (hans : h.session.answer? r = some a) :
    m.store.Extends a.session.machine.store := by
  obtain ⟨j, hj, hm⟩ := hx.passed hm
  obtain ⟨j', hj', he⟩ | ⟨hnone, -⟩ := Request.answer_ends hans
  · obtain rfl := Option.some.inj (hj.symm.trans hj')
    exact (j.orderly _).last (hr.plain_work ha hj) _ (Job.ends he) m hm
  · cases hj.symm.trans hnone

theorem chain (hx : r.Meets h.session x) (hm : x.Passes m) (hy : r.Meets h.session y) (hm' : y.Passes m') :
    m.store.Extends m'.store ∨ m'.store.Extends m.store := by
  obtain ⟨j, hj, hm⟩ := hx.passed hm
  obtain ⟨j', hj', hm'⟩ := hy.passed hm'
  obtain rfl := Option.some.inj (hj.symm.trans hj')
  exact (j.orderly _).chain (hr.plain_work ha hj) m hm m' hm'

end Request.Meets

/-- The session goes on from its machine. -/
theorem History.Ready.extends_answer (hr : h.Ready) (ha : h.Allows r) {a : Answer} (hans : h.session.answer? r = some a) :
    h.session.machine.store.Extends a.session.machine.store := by
  obtain ⟨j, hj, he⟩ | ⟨-, he⟩ := Request.answer_ends hans
  · rw [← j.machine_store]
    exact (j.orderly _).first (hr.plain_work ha hj) _ (.inl (Job.ends he))
  · rw [he]
    exact .refl _

/-- The machines are in order, and none comes after the store. -/
structure Past.Chained (past : Past) (s : Store) : Prop where
  before : ∀ m, past.Passes m → m.store.Extends s
  chain : ∀ m m', past.Passes m → past.Passes m' → m.store.Extends m'.store ∨ m'.store.Extends m.store

theorem History.Ready.chain_next (hr : h.Ready) (ha : h.Allows r) (hc : h.past.Chained h.session.machine.store) :
    ∀ m m', Past.Passes ((h.session, r) :: h.past) m → Past.Passes ((h.session, r) :: h.past) m' →
      m.store.Extends m'.store ∨ m'.store.Extends m.store := by
  rintro m m' ⟨x, ⟨p, hp, hx⟩, hm⟩ ⟨y, ⟨q, hq, hy⟩, hm'⟩
  cases hp with
  | head =>
    cases hq with
    | head => exact Request.Meets.chain hr ha hx hm hy hm'
    | tail _ hq => exact .inr ((hc.before m' ⟨y, ⟨q, hq, hy⟩, hm'⟩).trans (Request.Meets.first hr ha hx hm))
  | tail _ hp =>
    cases hq with
    | head => exact .inl ((hc.before m ⟨x, ⟨p, hp, hx⟩, hm⟩).trans (Request.Meets.first hr ha hy hm'))
    | tail _ hq => exact hc.chain m m' ⟨x, ⟨p, hp, hx⟩, hm⟩ ⟨y, ⟨q, hq, hy⟩, hm'⟩

theorem History.Possible.chained (hp : h.Possible) : h.past.Chained h.session.machine.store := by
  induction hp with
  | start =>
    have none_passed : ∀ {m}, ¬ Past.Passes [] m := fun ⟨_, ⟨_, hp, _⟩, _⟩ => absurd hp List.not_mem_nil
    exact ⟨fun _ hm => (none_passed hm).elim, fun _ _ hm => (none_passed hm).elim⟩
  | between _ _ _ _ ih => exact ⟨ih.before, ih.chain⟩
  | @next h r a hp ha hans ih =>
    refine ⟨fun m hm => ?_, hp.ready.chain_next ha ih⟩
    obtain ⟨x, ⟨p, hpast, hx⟩, hm⟩ := hm
    cases hpast with
    | head => exact Request.Meets.last hp.ready ha hx hm hans
    | tail _ hpast => exact (ih.before m ⟨x, ⟨p, hpast, hx⟩, hm⟩).trans (hp.ready.extends_answer ha hans)

/-! ## What frames have -/

/-- The session comes through the machine. -/
def History.Passes (h : History) (r : Request) : Machine → Prop := Past.Passes ((h.session, r) :: h.past)

/-- A frame has the same `this` and `super` on all machines that have the frame. -/
theorem History.Possible.settled (hp : h.Possible) (ha : h.Allows r) (hm : h.Passes r m) (hm' : h.Passes r m') {f : FrameId}
    (hf : f < m.store.frames.size) (hf' : f < m'.store.frames.size) {x : String} (hx : x = "this" ∨ x = "super") :
    m'.store.var? f x = m.store.var? f x := by
  rcases hp.ready.chain_next ha hp.chained m m' hm hm' with he | he
  · exact he.fixed f x hf hx
  · exact (he.fixed f x hf' hx).symm

theorem Store.Owned.before {s s' : Store} {env : Env} {opener : Opener} (h : s'.Owned env opener) (he : s.Extends s') :
    s.Owned env opener :=
  fun f hf x hx => h f hf x (he.bound f x hx)

/-- All frames but the global one have only names of their scopes, on any machine. -/
theorem History.Possible.owned_passed (hp : h.Possible) (hm : h.Passes r m) {env : Env} {opener : Opener}
    (hc : (h.worldWith r).created env opener) : m.store.Owned env opener := by
  obtain ⟨henv, hsize⟩ := hp.ready.at_global
  obtain ⟨α, o, hk, -⟩ := r.keeping henv hsize
  obtain ⟨x, ⟨p, hpast, hx⟩, hm⟩ := hm
  cases hpast with
  | head =>
    obtain ⟨y, hb, hr⟩ := hx
    obtain ⟨z, hz, hm⟩ := hm
    exact hp.owned.passed hk (.inr ⟨y, hb, z, hr.trans hz, hm⟩) hc
  | tail _ hpast =>
    have he := hp.chained.before m ⟨x, ⟨p, hpast, hx⟩, hm⟩
    obtain ⟨q, hq, y, ⟨z, hb, hreach⟩, hy⟩ := hc
    cases hq with
    | head =>
      -- the frame was not there yet
      intro f hf x hx
      have hle := (hk.fresh env opener (.inr ⟨z, hb, y, hreach, hy⟩) f hf).1
      rw [r.machine_store] at hle
      rw [Store.var?_of_le (Nat.le_trans he.size hle)] at hx
      cases hx
    | tail _ hq => exact (hp.owned.owned env opener ⟨q, hq, y, ⟨z, hb, hreach⟩, hy⟩).before he

end Lox
