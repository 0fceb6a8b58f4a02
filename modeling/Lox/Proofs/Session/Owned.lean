import Lox.Proofs.Session.Agreement
import Lox.Proofs.Evaluation.Owned

/-!
# Frames of a session

From request to request, too, frames gain no names but those of their scopes: what a program adds outside of its own scopes
is global.
-/

namespace Lox

namespace Keeps

variable {m : Machine} {may : FrameId → String → Prop}

theorem executeEach {n : Nat} : ∀ {sts : List Stmt} {m : Machine}, (∀ f ∈ m.env.head?, ∀ x, may f x) →
    Keeps m may (fun z => ∃ before st after m', sts = before ++ st :: after ∧ Eval.executeEach n before m = .done () m' ∧
      z = ⟨n, .stmt st, m'⟩) (fun _ _ => False) (Eval.executeEach n sts m)
  | [], _, _ => by
    refine (Keeps.pure ()).imp (fun _ _ => id) (fun z hz => ?_) fun _ _ => id
    obtain ⟨before, st, after, m', heq, -⟩ := hz
    cases before <;> cases heq
  | st :: sts, m, hmay => by
    have hrest : ∀ flow m', Eval.execute n st m = .done flow m' → m'.env = m.env → Keeps m' may _ _ (Eval.executeEach n sts m') :=
      fun _ _ _ henv => executeEach (by rw [henv]; exact hmay)
    have h : Keeps m may _ _ ((Eval.execute n st >>= fun _ => Eval.executeEach n sts) m) :=
      bind (call (Moment.keeps n) (.stmt st) fun f hf x _ => hmay f hf x) hrest
    refine h.imp (fun _ _ => id) (fun z hz => ?_) fun _ _ hm => hm.elim
    obtain ⟨before, st', after, m', heq, hm, rfl⟩ := hz
    cases before with
    | nil => cases heq; cases hm; exact .inl rfl
    | cons st₀ before =>
      cases heq
      obtain ⟨flow, m₁, hf, hm⟩ := Run.of_bind_done hm
      exact .inr ⟨flow, m₁, hf, before, st', after, m', rfl, hm, rfl⟩

theorem flushing {α : Type} {calls : Moment → Prop} {creates : Env → Opener → Prop} {body : Eval α}
    (h : Keeps m may calls creates (body m)) : Keeps m may calls creates (Eval.flushing body m) := by
  intro hb
  have hbody := h hb
  refine h.of_store rfl (fun m' he => ?_) hb
  have he : (body m).EndsIn m' := by
    unfold Eval.flushing at he
    cases hr : body m with
    | exhausted => rw [hr] at he; exact he
    | done a m₁ => rw [hr] at he; dsimp only at he; split at he <;> exact he
    | failed e m₁ => rw [hr] at he; dsimp only at he; split at he <;> exact he
  exact ⟨hbody.env m' he, m', he, rfl⟩

end Keeps

theorem History.Ready.at_global {h : History} (hr : h.Ready) :
    h.session.machine.env = globalEnv ∧ 0 < h.session.machine.store.frames.size := by
  have hglobal := hr.global
  generalize h.session.machine.env = env at hglobal
  cases hglobal with
  | global hsize => exact ⟨rfl, hsize⟩

/-- All that a request does to the frames that are there is that it adds names to the global one. -/
theorem Request.keeping {s : Session} (r : Request) (henv : s.machine.env = globalEnv) (hsize : 0 < s.machine.store.frames.size) :
    ∃ (α : Type) (o : Outcome Machine Error α), Keeping (r.machine s) (fun f _ => f = 0) (r.Begins s) (fun _ _ => False) o ∧
      ∀ a, s.answer? r = some a → o.EndsIn a.session.machine := by
  have bounded : ∀ f (x : String), f = 0 → f < (r.machine s).store.frames.size := by
    rintro f - rfl
    rw [r.machine_store]
    exact hsize
  cases r with
  | call fuel callee arguments line =>
    have h : Keeps s.machine (fun f _ => f = 0) _ _ (Eval.call fuel callee arguments line s.machine) :=
      Keeps.inner (Moment.keeps fuel) (.call callee arguments line) rfl
    refine ⟨_, _, h.imp (fun _ _ => id) (fun z hz => ?_) (fun _ _ => id) bounded, fun a ha => ?_⟩
    · cases hz; rfl
    · simp only [Session.answer?, Session.call] at ha
      cases ho : Eval.call fuel callee arguments line s.machine <;> rw [ho] at ha <;> cases ha <;> rfl
  | run fuel source =>
    cases hc : (analyze source s.nextId).checked with
    | none =>
      have h : Keeps ((run fuel source).machine s) (fun f _ => f = 0) _ _ _ := .pure ()
      refine ⟨_, _, h.imp (fun _ _ => id) (fun z hz => ?_) (fun _ _ => id) bounded, fun a ha => ?_⟩
      · cases hz with
        | statement hc' => rw [hc] at hc'; cases hc'
      · simp only [Session.answer?, Session.run, hc] at ha
        cases ha
        simp only [Request.machine, hc]
        rfl
    | some c =>
      have h : Keeps ((run fuel source).machine s) (fun f _ => f = 0) _ _
          (Eval.flushing (Eval.executeEach fuel c.program) ((run fuel source).machine s)) :=
        .flushing (.executeEach fun f hf _ => by rw [Request.machine_env, henv] at hf; cases hf; rfl)
      refine ⟨_, _, h.imp (fun _ _ => id) (fun z hz => ?_) (fun _ _ => id) bounded, fun a ha => ?_⟩
      · cases hz with
        | statement hc' hprog hm => rw [hc] at hc'; cases hc'; exact ⟨_, _, _, _, hprog, hm, rfl⟩
      · simp only [Session.answer?, Session.run, hc, interpret_eq hc] at ha
        cases ho : Eval.flushing (Eval.executeEach fuel c.program) ((run fuel source).machine s) <;> rw [ho] at ha <;>
          cases ha <;> rfl

/-! ## Histories -/

/-- All frames but the global one have only names of the scopes that they were made for. -/
structure History.Owned (h : History) : Prop where
  local_ : ∀ env opener, (Past.world h.past).created env opener → ∀ f ∈ env.head?,
    0 < f ∧ f < h.session.machine.store.frames.size
  owned : ∀ env opener, (Past.world h.past).created env opener → h.session.machine.store.Owned env opener

namespace History.Owned

variable {h : History} {r : Request} {m : Machine}

/-- So it is at all machines that a request comes through. -/
theorem passed (ho : h.Owned) {α : Type} {o : Outcome Machine Error α}
    (hk : Keeping (r.machine h.session) (fun f _ => f = 0) (r.Begins h.session) (fun _ _ => False) o)
    (hm : Passed (r.Begins h.session) o m) {env : Env} {opener : Opener} (hc : (h.worldWith r).created env opener) :
    m.store.Owned env opener := by
  obtain ⟨p, hp, x, ⟨y, hb, hreach⟩, hx⟩ := hc
  cases hp with
  | head => exact hk.owned env opener (.inr ⟨y, hb, x, hreach, hx⟩) m hm
  | tail _ hp =>
    have hc : (Past.world h.past).created env opener := ⟨p, hp, x, ⟨y, hb, hreach⟩, hx⟩
    intro f hf x hx
    obtain ⟨hpos, hlt⟩ := ho.local_ env opener hc f hf
    have hgains := hk.gains m hm
    rw [r.machine_store] at hgains
    rcases hgains.names f x hlt hx with hx | hx
    · exact ho.owned env opener hc f hf x hx
    · exact absurd hx (Nat.ne_of_gt hpos)

theorem after (ho : h.Owned) (hr : h.Ready) {a : Answer} (hans : h.session.answer? r = some a) : (h.after r a).Owned := by
  obtain ⟨henv, hsize⟩ := hr.at_global
  obtain ⟨α, o, hk, hends⟩ := r.keeping henv hsize
  have hend : Passed (r.Begins h.session) o a.session.machine := .inl (hends a hans)
  have hgains := (hk.gains _ hend).size
  rw [r.machine_store] at hgains
  refine ⟨fun env opener hc f hf => ?_, fun env opener hc => ho.passed hk hend hc⟩
  obtain ⟨p, hp, x, ⟨y, hb, hreach⟩, hx⟩ := hc
  cases hp with
  | head =>
    obtain ⟨hle, hlt⟩ := hk.fresh env opener (.inr ⟨y, hb, x, hreach, hx⟩) f hf
    rw [r.machine_store] at hle
    exact ⟨Nat.lt_of_lt_of_le hsize hle, hlt _ (hends a hans)⟩
  | tail _ hp =>
    obtain ⟨hpos, hlt⟩ := ho.local_ env opener ⟨p, hp, x, ⟨y, hb, hreach⟩, hx⟩ f hf
    exact ⟨hpos, Nat.lt_of_lt_of_le hlt hgains⟩

end History.Owned

theorem History.Possible.owned {h : History} (hp : h.Possible) : h.Owned := by
  induction hp with
  | start =>
    have none_created : ∀ {env opener}, ¬ (Past.world []).created env opener := by
      rintro _ _ ⟨_, hp, -⟩
      cases hp
    exact ⟨fun _ _ hc => (none_created hc).elim, fun _ _ hc => (none_created hc).elim⟩
  | next hp _ hans ih => exact ih.after hp.ready hans
  | between _ _ _ _ ih => exact ⟨ih.local_, ih.owned⟩

theorem Moment.Accesses.passes {x : Moment} {id : NodeId} {name : Name} {m : Machine} (ha : x.Accesses id name m) : x.Passes m := by
  cases ha with
  | assign hv =>
    refine ⟨_, .step .assigned .refl, .inr ?_⟩
    change (Eval.evaluate _ _ _).EndsIn m
    rw [hv]
    rfl
  | _ => exact ⟨_, .refl, .inl rfl⟩

/-- Wherever a request accesses a variable, all frames but the global one have only names of their scopes. -/
theorem History.Possible.owned_of_accesses {h : History} (hp : h.Possible) {r : Request} {x : Moment} (hx : r.Meets h.session x)
    {id : NodeId} {name : Name} {m : Machine} (ha : x.Accesses id name m) {env : Env} {opener : Opener}
    (hc : (h.worldWith r).created env opener) : m.store.Owned env opener := by
  obtain ⟨henv, hsize⟩ := hp.ready.at_global
  obtain ⟨α, o, hk, -⟩ := r.keeping henv hsize
  obtain ⟨y, hb, hreach⟩ := hx
  obtain ⟨z, hz, hm⟩ := ha.passes
  exact hp.owned.passed hk (.inr ⟨y, hb, z, hreach.trans hz, hm⟩) hc

end Lox
