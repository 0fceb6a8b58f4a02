import Lox.Proofs.Session.Invariant
import Lox.Proofs.Evaluation.Capped

/-!
# Sessions whose output is full

Two sessions are asked the same, and the output of one of them takes `k` octets in all. What it has got at the end are the first
`k` of what the other output has got. Up to the first write that fails the sessions go through the same moments, and from
then on, whatever the host does, nothing is written.
-/

namespace Lox

variable {k : Nat}

/-! ## Programs -/

namespace Outcome

variable {α : Type}

/-- How a run ends after the flush. -/
def flushed : Outcome Machine Error α → Outcome Machine Error α
  | .done a m => if m.output.flushFails then .failed (.output .flushFailed) m else .done a m
  | .failed e m => if m.output.flushFails then .failed (.output .flushFailed) m else .failed e m
  | .exhausted => .exhausted

theorem flushed_ends {o : Outcome Machine Error α} {m : Machine} (he : o.flushed.EndsIn m) : o.EndsIn m := by
  cases o with
  | exhausted => exact he
  | done a m₁ => unfold flushed at he; dsimp only at he; split at he <;> exact he
  | failed e m₁ => unfold flushed at he; dsimp only at he; split at he <;> exact he

theorem Capped.flushed {o o' : Outcome Machine Error α} (h : Capped k o o') : Capped k o.flushed o'.flushed := by
  cases h with
  | exhausted => exact .exhausted
  | @done a m hk =>
    have hflag : (m.withOutput (.capped k)).output.flushFails = m.output.flushFails := rfl
    simp only [Outcome.flushed, hflag]
    split
    · exact .failed hk
    · exact .done hk
  | @failed e m hk =>
    have hflag : (m.withOutput (.capped k)).output.flushFails = m.output.flushFails := rfl
    simp only [Outcome.flushed, hflag]
    split
    · exact .failed hk
    · exact .failed hk
  | @cut o e m he hl hfull hout =>
    have hlater : ∀ m₁, o.flushed.EndsIn m₁ → _ := fun m₁ he₁ => hout m₁ (flushed_ends he₁)
    generalize o.flushed = o₁ at hlater
    simp only [Outcome.flushed]
    split
    · exact .cut trivial hl hfull hlater
    · exact .cut he hl hfull hlater

end Outcome

theorem Caps.flushing {α : Type} {m : Machine} {body : Eval α} (h : Caps k m body) : Caps k m (Eval.flushing body) where
  grows m₁ he := h.grows m₁ (Outcome.flushed_ends he)
  capped hl hk := (h.capped hl hk).flushed

theorem Caps.executeEach (fuel : Nat) : ∀ (sts : List Stmt) (m : Machine), Caps k m (Eval.executeEach fuel sts)
  | [], _ => .silent (.pure ())
  | st :: sts, m => (Activity.caps k fuel (.stmt st) m).bind fun _ m' _ => Caps.executeEach fuel sts m'

/-! ## Requests -/

def Session.withOutput (f : Sink → Sink) (s : Session) : Session := { s with machine := s.machine.withOutput f }

def Answer.withOutput (f : Sink → Sink) (a : Answer) : Answer := { a with session := a.session.withOutput f }

/-- The write that was too much has stopped the request, and the output is full. -/
structure Answer.CutOff (k : Nat) (a : Answer) : Prop where
  error : ∃ e, a.errors = [e] ∧ e.IsOutput
  limit : a.session.machine.output.limit = some k
  full : a.session.machine.output.written.size = k

/-- What a host gets for a run that comes to an end. -/
def Outcome.answer? {α : Type} (values : α → List Value) (nextId : NodeId) : Outcome Machine Error α → Option Answer
  | .done a m => some ⟨[], values a, ⟨m, nextId⟩⟩
  | .failed e m => some ⟨[e], [], ⟨m, nextId⟩⟩
  | .exhausted => none

/-- The answers of both sessions: the same, but for the limit, or the second one is cut off. -/
def Answer.Capped (k : Nat) (a a' : Answer) : Prop :=
  if a.session.machine.output.written.size ≤ k then a' = a.withOutput (.capped k)
  else a'.CutOff k ∧ a'.session.machine.output.written = a.session.machine.output.written.extract 0 k

theorem Outcome.Capped.answer {α : Type} {o o' : Outcome Machine Error α} (h : Outcome.Capped k o o') {values : α → List Value}
    {nextId : NodeId} {a : Answer} (ha : o.answer? values nextId = some a) : ∃ a', o'.answer? values nextId = some a' ∧ a.Capped k a' := by
  cases h with
  | exhausted => cases ha
  | done hk => cases ha; exact ⟨_, rfl, by rw [Answer.Capped, if_pos hk]; rfl⟩
  | failed hk => cases ha; exact ⟨_, rfl, by rw [Answer.Capped, if_pos hk]; rfl⟩
  | @cut o e m he hl hfull hout =>
    have hends : o.EndsIn a.session.machine := by
      cases o with
      | exhausted => cases ha
      | done v m₁ => cases ha; rfl
      | failed e₁ m₁ => cases ha; rfl
    obtain ⟨hlt, hw⟩ := hout _ hends
    exact ⟨_, rfl, by rw [Answer.Capped, if_neg (Nat.not_le.mpr hlt)]; exact ⟨⟨⟨e, rfl, he⟩, hl, hfull⟩, hw⟩⟩

/-- The limit cuts off all but the first `k` octets. -/
theorem Answer.Capped.written {a a' : Answer} (h : a.Capped k a') :
    a'.session.machine.output.written = a.session.machine.output.written.extract 0 k := by
  unfold Answer.Capped at h
  split at h
  case isTrue hk =>
    rw [h, ByteArray.extract_of_size_le hk]
    rfl
  case isFalse => exact h.2

theorem Outcome.ends_of_answer {α : Type} {o : Outcome Machine Error α} {values : α → List Value} {nextId : NodeId} {a : Answer}
    (ha : o.answer? values nextId = some a) : o.EndsIn a.session.machine := by
  cases o with
  | exhausted => cases ha
  | done v m => cases ha; rfl
  | failed e m => cases ha; rfl

namespace Request

variable {s : Session} {r : Request} {a : Answer}

theorem machine_withOutput (r : Request) (f : Sink → Sink) (s : Session) :
    r.machine (s.withOutput f) = (r.machine s).withOutput f := by
  cases r with
  | call => rfl
  | run fuel source =>
    have hid : (s.withOutput f).nextId = s.nextId := rfl
    simp only [machine, hid]
    cases (analyze source s.nextId).checked <;> rfl

theorem machine_output (r : Request) (s : Session) : (r.machine s).output = s.machine.output := by
  unfold machine
  split
  · split <;> rfl
  · rfl

/-- The answer to a request is that of a run, unless its program is rejected. -/
theorem answer?_eq (r : Request) (nextId : NodeId) :
    (∀ s : Session, s.nextId = nextId → s.answer? r = some ⟨[], [], ⟨s.machine, r.nextId s⟩⟩) ∨
    ∃ (α : Type) (body : Eval α) (values : α → List Value), (∀ m, Caps k m body) ∧
      ∀ s : Session, s.nextId = nextId → s.answer? r = (body (r.machine s)).answer? values (r.nextId s) := by
  cases r with
  | call fuel callee arguments line =>
    refine .inr ⟨Value, Eval.call fuel callee arguments line, fun v => [v],
      fun m => Activity.caps k fuel (.call callee arguments line) m, fun s _ => ?_⟩
    simp only [Session.answer?, Session.call, Request.machine]
    cases Eval.call fuel callee arguments line s.machine <;> rfl
  | run fuel source =>
    cases hc : (analyze source nextId).checked with
    | none =>
      left
      rintro s rfl
      simp only [Session.answer?, Session.run, hc]
      rfl
    | some c =>
      refine .inr ⟨Unit, Eval.flushing (Eval.executeEach fuel c.program), fun _ => [], fun m => (Caps.executeEach fuel _ m).flushing, ?_⟩
      rintro s rfl
      simp only [Session.answer?, Session.run, hc, interpret_eq hc]
      cases Eval.flushing (Eval.executeEach fuel c.program) ((Request.run fuel source).machine s) <;> rfl

/-- An answer only adds to the output. -/
theorem answer_grows (ha : s.answer? r = some a) : s.machine.output.Grows a.session.machine.output := by
  rcases r.answer?_eq (k := 0) s.nextId with h | ⟨α, body, values, hcaps, h⟩
  · rw [h s rfl] at ha
    cases ha
    exact .refl _
  · rw [h s rfl] at ha
    rw [← r.machine_output s]
    exact (hcaps _).grows _ (Outcome.ends_of_answer ha)

theorem answer_capped (hs : s.machine.output.Fits k none) (ha : s.answer? r = some a) :
    ∃ a', (s.withOutput (.capped k)).answer? r = some a' ∧ a.Capped k a' := by
  rcases r.answer?_eq (k := k) s.nextId with h | ⟨α, body, values, hcaps, h⟩
  · rw [h s rfl] at ha
    cases ha
    exact ⟨_, h _ rfl, by rw [Answer.Capped, if_pos hs.size]; rfl⟩
  · rw [h s rfl] at ha
    rw [h (s.withOutput (.capped k)) rfl, machine_withOutput]
    have hm : (r.machine s).output.Fits k none := by rw [machine_output]; exact hs
    exact ((hcaps (r.machine s)).capped hm.limit hm.size).answer ha

end Request

/-! ## Moments of a request -/

theorem Session.uncapped_capped {s : Session} (h : s.machine.output.limit = none) :
    (s.withOutput (.capped k)).withOutput .uncapped = s :=
  congrArg (fun m => { s with machine := m }) (Machine.uncapped_capped h)

namespace Request

variable {s : Session} {r : Request} {x : Moment}

/-- With another output a request begins with the same work, as far as work that gives a result does the same. -/
theorem Begins.withOutput {G : Sink → Prop} {f : Sink → Sink}
    (hrun : ∀ n sts (m m' : Machine), Eval.executeEach n sts m = .done () m' → G m'.output →
      G m.output ∧ Eval.executeEach n sts (m.withOutput f) = .done () (m'.withOutput f))
    (hb : r.Begins s x) (hf : G x.machine.output) : r.Begins (s.withOutput f) (x.withOutput f) := by
  cases hb with
  | call => exact .call
  | @statement fuel source c before st after m hc hprog hm =>
    refine .statement (s := s.withOutput f) hc hprog ?_
    rw [machine_withOutput]
    exact (hrun _ _ _ _ hm hf).2

theorem Begins.grows (hb : r.Begins s x) : s.machine.output.Grows x.machine.output := by
  cases hb with
  | call => exact .refl _
  | @statement fuel source c before st after m hc hprog hm =>
    rw [← machine_output (.run fuel source)]
    exact (Caps.executeEach (k := 0) fuel before _).grows m (by rw [hm]; rfl)

/-- The moments of the two requests are the same as long as all that has been written fits. -/
theorem meets_capped (hs : s.machine.output.Fits k none) :
    r.Meets (s.withOutput (.capped k)) x ↔
      ∃ y, r.Meets s y ∧ y.machine.output.written.size ≤ k ∧ x = y.withOutput (.capped k) := by
  constructor
  · rintro ⟨x₀, hb, hreach⟩
    have hf₀ : x₀.machine.output.Fits k (some k) := hb.grows.stays ⟨rfl, hs.size⟩
    have hf := hreach.grows.stays hf₀
    have hb' := hb.withOutput (fun n sts _ _ => Caps.uncapped_of_done (Caps.executeEach n sts)) hf₀
    rw [Session.uncapped_capped hs.limit] at hb'
    have hreach' := (hreach.withOutput (fun n a _ _ _ => Caps.uncapped_of_done (a.caps k n)) hf).2
    refine ⟨x.withOutput .uncapped, ⟨_, hb', hreach'⟩, hf.size, ?_⟩
    exact (congrArg (fun m => { x with machine := m }) (Machine.capped_uncapped hf.limit)).symm
  · rintro ⟨y, ⟨y₀, hb, hreach⟩, hsize, rfl⟩
    have hlimit : y.machine.output.limit = none := (hb.grows.trans hreach.grows).limit.trans hs.limit
    obtain ⟨hf₀, hreach'⟩ := hreach.withOutput (fun n a _ _ _ => Caps.capped_of_done (a.caps k n)) ⟨hlimit, hsize⟩
    exact ⟨_, hb.withOutput (fun n sts _ _ => Caps.capped_of_done (Caps.executeEach n sts)) hf₀, hreach'⟩

end Request

/-! ## Several requests -/

namespace Session

/-- The session when it has answered the requests, one after the other. -/
def after? (s : Session) : List Request → Option Session
  | [] => some s
  | r :: rs => (s.answer? r).bind fun a => a.session.after? rs

variable {s s' : Session} {r : Request} {rs : List Request}

theorem after?_cons : s.after? (r :: rs) = some s' ↔ ∃ a, s.answer? r = some a ∧ a.session.after? rs = some s' :=
  Option.bind_eq_some_iff

theorem after?_append (before after : List Request) :
    s.after? (before ++ after) = some s' ↔ ∃ t, s.after? before = some t ∧ t.after? after = some s' := by
  induction before generalizing s with
  | nil => simp [after?]
  | cons r before ih =>
    simp only [List.cons_append, after?_cons, ih]
    constructor
    · rintro ⟨a, ha, t, ht, ht'⟩
      exact ⟨t, ⟨a, ha, ht⟩, ht'⟩
    · rintro ⟨t, ⟨a, ha, ht⟩, ht'⟩
      exact ⟨a, ha, t, ht, ht'⟩

theorem after_grows : ∀ {rs : List Request} {s : Session}, s.after? rs = some s' → s.machine.output.Grows s'.machine.output
  | [], _, h => by cases h; exact .refl _
  | _ :: _, _, h =>
    have ⟨_, ha, h⟩ := after?_cons.mp h
    (Request.answer_grows ha).trans (after_grows h)

/-- As long as all fits, the limit makes no difference. -/
theorem after_capped : ∀ {rs : List Request} {s : Session}, s.after? rs = some s' → s'.machine.output.Fits k none →
    (s.withOutput (.capped k)).after? rs = some (s'.withOutput (.capped k))
  | [], _, h, _ => by cases h; rfl
  | r :: rs, s, h, hf => by
    obtain ⟨a, ha, h⟩ := after?_cons.mp h
    have hfa := (after_grows h).fits hf
    obtain ⟨a', ha', hc⟩ := Request.answer_capped ((Request.answer_grows ha).fits hfa) ha
    rw [Answer.Capped, if_pos hfa.size] at hc
    subst hc
    exact after?_cons.mpr ⟨_, ha', after_capped h hf⟩

/-- What a session does that differs in that its output takes `k` octets in all, where the session comes to `s'` without a limit. -/
structure Truncates (k : Nat) (s : Session) (rs : List Request) (s' : Session) : Prop where
  /-- What is written in the end. -/
  received : ∀ t, (s.withOutput (.capped k)).after? rs = some t → t.machine.output.written = s'.machine.output.written.extract 0 k
  /-- There is a difference only if not all fits. -/
  fits : s'.machine.output.written.size ≤ k → (s.withOutput (.capped k)).after? rs = some (s'.withOutput (.capped k))
  /-- A request that comes up when all has fit so far: the moments are the same up to the write that fails, and so are the answers if
  there is none. If there is one, the request ends there, and whatever follows writes nothing. -/
  each : ∀ before r after s₁ a, rs = before ++ r :: after → s.after? before = some s₁ → s₁.machine.output.written.size ≤ k →
    s₁.answer? r = some a →
    (s.withOutput (.capped k)).after? before = some (s₁.withOutput (.capped k)) ∧
    (∀ x, r.Meets (s₁.withOutput (.capped k)) x ↔
      ∃ y, r.Meets s₁ y ∧ y.machine.output.written.size ≤ k ∧ x = y.withOutput (.capped k)) ∧
    ∃ a', (s₁.withOutput (.capped k)).answer? r = some a' ∧ a.Capped k a' ∧
      (a'.CutOff k → ∀ rs' t, a'.session.after? rs' = some t →
        t.machine.output.written = s'.machine.output.written.extract 0 k)

/-- What the output has got when it is full, it keeps. -/
theorem written_of_cutOff {a a' : Answer} (hc : a.Capped k a') (hcut : a'.CutOff k) (h : a.session.after? rs = some s')
    {rs' : List Request} {t : Session} (ht : a'.session.after? rs' = some t) :
    t.machine.output.written = s'.machine.output.written.extract 0 k := by
  have hsize : k ≤ a.session.machine.output.written.size := by
    rw [← hcut.full, hc.written, ByteArray.size_extract]
    omega
  calc t.machine.output.written
    _ = a'.session.machine.output.written := (after_grows ht).full hcut.limit hcut.full
    _ = a.session.machine.output.written.extract 0 k := hc.written
    _ = s'.machine.output.written.extract 0 k := ((after_grows h).extract hsize).symm

theorem received_of_capped : ∀ {rs : List Request} {s : Session}, s.machine.output.Fits k none → s.after? rs = some s' →
    ∀ t, (s.withOutput (.capped k)).after? rs = some t → t.machine.output.written = s'.machine.output.written.extract 0 k
  | [], _, hs, h, _, ht => by
    cases h
    cases ht
    exact (ByteArray.extract_of_size_le hs.size).symm
  | r :: rs, s, hs, h, t, ht => by
    obtain ⟨a, ha, h⟩ := after?_cons.mp h
    obtain ⟨a₁, ha₁, ht⟩ := after?_cons.mp ht
    obtain ⟨a', ha', hc⟩ := Request.answer_capped hs ha
    obtain rfl : a₁ = a' := Option.some.inj (ha₁.symm.trans ha')
    by_cases hk : a.session.machine.output.written.size ≤ k
    · rw [Answer.Capped, if_pos hk] at hc
      rw [hc] at ht
      exact received_of_capped ⟨(Request.answer_grows ha).limit.trans hs.limit, hk⟩ h t ht
    · have hcut := hc
      rw [Answer.Capped, if_neg hk] at hcut
      exact written_of_cutOff hc hcut.1 h ht

/-- A full output only truncates: it has got the first `k` octets of what is written without a limit, and up to the first write that
fails there is no other difference. -/
theorem full_output_only_truncates (hs : s.machine.output.Fits k none) (h : s.after? rs = some s') : s.Truncates k rs s' where
  received := received_of_capped hs h
  fits hk := after_capped h ⟨(after_grows h).limit.trans hs.limit, hk⟩
  each before r after s₁ a heq hbefore hk ha := by
    rw [heq, after?_append] at h
    obtain ⟨t, ht, hrest⟩ := h
    obtain rfl : t = s₁ := Option.some.inj (ht.symm.trans hbefore)
    obtain ⟨a₁, ha₁, hrest⟩ := after?_cons.mp hrest
    obtain rfl : a₁ = a := Option.some.inj (ha₁.symm.trans ha)
    have hf : t.machine.output.Fits k none := ⟨(after_grows ht).limit.trans hs.limit, hk⟩
    obtain ⟨a', ha', hc⟩ := Request.answer_capped hf ha
    exact ⟨after_capped ht hf, fun _ => Request.meets_capped hf, a', ha', hc, fun hcut _ _ => written_of_cutOff hc hcut hrest⟩

/-- The second line does not fit. It is that of a call of a native function, and the last run comes to nothing. -/
theorem truncation_of_native_print :
    ∃ s', (History.start (.ofBytes []) .unlimited 0).session.after?
        [.run 20 "print 12;", .call 20 (.native .print) [.number (.ofNat 345)] 0, .run 20 "print 6;"] = some s' ∧
      s'.written = "12\n345\n6\n".toUTF8.toList ∧
      Truncates 5 (History.start (.ofBytes []) .unlimited 0).session
        [.run 20 "print 12;", .call 20 (.native .print) [.number (.ofNat 345)] 0, .run 20 "print 6;"] s' := by
  have hall : ((History.start (.ofBytes []) .unlimited 0).session.after?
      [.run 20 "print 12;", .call 20 (.native .print) [.number (.ofNat 345)] 0, .run 20 "print 6;"]).map Session.written =
      some "12\n345\n6\n".toUTF8.toList := by decide +kernel
  obtain ⟨s', hs', hw⟩ := Option.map_eq_some_iff.mp hall
  exact ⟨s', hs', hw, full_output_only_truncates ⟨rfl, Nat.zero_le 5⟩ hs'⟩

end Session

end Lox
