import Lox.Proofs.Evaluation.Judgement

/-!
# Output that is cut off

The same evaluation on two machines that differ in the limit of their sinks: one sink has none, the other one takes `k` octets
in all. As long as everything fits, the evaluations go through the same machines. The first write that does not fit stops the
second evaluation, with an error of the output, and its sink is full then. The first evaluation only adds to what it has written.
-/

namespace Lox

/-! ## Sinks -/

theorem ByteArray.extract_of_size_le {b : ByteArray} {k : Nat} (h : b.size ≤ k) : b.extract 0 k = b := by
  rw [← Nat.max_eq_left h, ByteArray.extract_zero_max_size]

namespace Sink

def capped (k : Nat) (s : Sink) : Sink := { s with limit := some k }

def uncapped (s : Sink) : Sink := { s with limit := none }

/-- The second sink has taken more. -/
structure Grows (s s' : Sink) : Prop where
  limit : s'.limit = s.limit
  flushFails : s'.flushFails = s.flushFails
  written : ∃ more, s'.written = s.written ++ more
  bounded : ∀ k, s.limit = some k → s.written.size ≤ k → s'.written.size ≤ k

namespace Grows

variable {s s' s'' : Sink}

theorem refl (s : Sink) : s.Grows s := ⟨rfl, rfl, ⟨.empty, ByteArray.append_empty.symm⟩, fun _ _ => id⟩

theorem trans (h : s.Grows s') (h' : s'.Grows s'') : s.Grows s'' where
  limit := h'.limit.trans h.limit
  flushFails := h'.flushFails.trans h.flushFails
  written := by
    obtain ⟨more, hw⟩ := h.written
    obtain ⟨more', hw'⟩ := h'.written
    exact ⟨more ++ more', by rw [hw', hw, ByteArray.append_assoc]⟩
  bounded k hk hle := h'.bounded k (h.limit.trans hk) (h.bounded k hk hle)

theorem size_le (h : s.Grows s') : s.written.size ≤ s'.written.size := by
  obtain ⟨more, hw⟩ := h.written
  rw [hw, ByteArray.size_append]
  exact Nat.le_add_right _ _

/-- What the first sink has taken, the second one has taken first. -/
theorem extract (h : s.Grows s') {k : Nat} (hk : k ≤ s.written.size) : s'.written.extract 0 k = s.written.extract 0 k := by
  obtain ⟨more, hw⟩ := h.written
  rw [hw, ByteArray.extract_append, Nat.zero_sub, Nat.sub_eq_zero_of_le hk, ByteArray.extract_same, ByteArray.append_empty]

/-- A sink that is full takes nothing. -/
theorem full (h : s.Grows s') {k : Nat} (hk : s.limit = some k) (hfull : s.written.size = k) : s'.written = s.written := by
  have hle := h.bounded k hk (Nat.le_of_eq hfull)
  have he := h.extract (Nat.le_of_eq hfull.symm)
  rw [← hfull, ByteArray.extract_zero_size] at he
  rw [← he]
  have : s'.written.size = s.written.size := Nat.le_antisymm (hfull ▸ hle) h.size_le
  rw [← this, ByteArray.extract_zero_size]

end Grows

theorem grows_write (s : Sink) (text : String) : s.Grows (s.write text).2 := by
  unfold write
  dsimp only
  split
  · rename_i hroom
    refine ⟨rfl, rfl, ⟨_, rfl⟩, fun k hk hle => ?_⟩
    rw [room, hk] at hroom
    dsimp only at hroom ⊢
    rw [ByteArray.size_append]
    omega
  · refine ⟨rfl, rfl, ⟨_, rfl⟩, fun k hk hle => ?_⟩
    simp only [room, hk]
    rw [ByteArray.size_append, ByteArray.size_extract]
    omega

/-- A sink without a limit takes all. -/
theorem write_of_unlimited {s : Sink} (h : s.limit = none) (text : String) :
    s.write text = (true, { s with written := s.written ++ text.toUTF8 }) := by
  unfold write
  simp only [room, h]
  rfl

/-- A write fits, or it is taken in part. -/
theorem write_capped {s : Sink} {k : Nat} (hk : s.written.size ≤ k) (text : String) :
    (s.capped k).write text =
      if (s.written ++ text.toUTF8).size ≤ k then (true, capped k { s with written := s.written ++ text.toUTF8 })
      else (false, capped k { s with written := (s.written ++ text.toUTF8).extract 0 k }) := by
  have hroom : (s.capped k).room text.toUTF8.size = min text.toUTF8.size (k - s.written.size) := rfl
  unfold write
  simp only [hroom, ByteArray.size_append]
  by_cases hfits : s.written.size + text.toUTF8.size ≤ k
  · rw [if_pos hfits, if_pos (by omega)]
    rfl
  · rw [if_neg hfits, if_neg (by omega)]
    have htaken : min text.toUTF8.size (k - s.written.size) = k - s.written.size := by omega
    rw [htaken, ByteArray.extract_append, Nat.zero_sub, ByteArray.extract_of_size_le hk]
    rfl

end Sink

/-- The sink has that limit, and at most `k` octets have been written. -/
structure Sink.Fits (k : Nat) (limit : Option Nat) (s : Sink) : Prop where
  limit : s.limit = limit
  size : s.written.size ≤ k

/-- What has been written later fits no less than what comes with it. -/
theorem Sink.Grows.fits {s s' : Sink} {k : Nat} {limit : Option Nat} (h : s.Grows s') (hf : s'.Fits k limit) : s.Fits k limit :=
  ⟨h.limit.symm.trans hf.limit, Nat.le_trans h.size_le hf.size⟩

theorem Sink.Grows.stays {s s' : Sink} {k : Nat} (h : s.Grows s') (hf : s.Fits k (some k)) : s'.Fits k (some k) :=
  ⟨h.limit.trans hf.limit, h.bounded k hf.limit hf.size⟩

/-! ## Machines -/

def Machine.withOutput (f : Sink → Sink) (m : Machine) : Machine := { m with output := f m.output }

theorem Machine.capped_uncapped {m : Machine} {k : Nat} (h : m.output.limit = some k) :
    (m.withOutput .uncapped).withOutput (.capped k) = m := by
  obtain ⟨_, _, _, _, _, ⟨_, _, _⟩, _⟩ := m
  simpa [withOutput, Sink.uncapped, Sink.capped] using h.symm

theorem Machine.uncapped_capped {m : Machine} {k : Nat} (h : m.output.limit = none) :
    (m.withOutput (.capped k)).withOutput .uncapped = m := by
  obtain ⟨_, _, _, _, _, ⟨_, _, _⟩, _⟩ := m
  simpa [withOutput, Sink.uncapped, Sink.capped] using h.symm

def Outcome.withOutput {α : Type} (f : Sink → Sink) : Outcome Machine Error α → Outcome Machine Error α
  | .done a m => .done a (m.withOutput f)
  | .failed e m => .failed e (m.withOutput f)
  | .exhausted => .exhausted

/-- The run does the same with any output, and leaves it alone. -/
def Eval.Silent {α : Type} (body : Eval α) : Prop := ∀ f m, body (m.withOutput f) = (body m).withOutput f

namespace Eval.Silent

variable {α β : Type} {body : Eval α} {m m' : Machine}

theorem output (h : Silent body) (he : (body m).EndsIn m') : m'.output = m.output := by
  have hm : body m = (body m).withOutput fun _ => m.output := h (fun _ => m.output) m
  rw [hm] at he
  cases hb : body m with
  | exhausted => rw [hb] at he; exact he.elim
  | done a m₁ => rw [hb] at he; rw [he]; rfl
  | failed e m₁ => rw [hb] at he; rw [he]; rfl

theorem pure (a : α) : Silent (Pure.pure a : Eval α) := fun _ _ => rfl

theorem fail {line : Nat} {fault : RuntimeFault} : Silent (Eval.fail line fault : Eval α) := fun _ _ => rfl

theorem bind {next : α → Eval β} (h : Silent body) (hn : ∀ a, Silent (next a)) : Silent (body >>= next) := by
  intro f m
  rw [Run.bind_apply, Run.bind_apply, h f m]
  cases body m with
  | exhausted => rfl
  | failed e m₁ => rfl
  | done a m₁ => exact hn a f m₁

theorem setSlot {name : Name} {fault : RuntimeFault} {v : Value} {slot : Machine → Option FrameId}
    (h : ∀ f m, slot (m.withOutput f) = slot m) :
    Silent (Run.read slot >>= fun found => match found with
      | some frame => Eval.setVar frame name.text v
      | none => Eval.fail name.line fault) := by
  have hread : Silent (Run.read slot) := fun f m => by rw [Run.read_apply, h f m]; rfl
  refine bind hread fun found => ?_
  cases found with
  | none => exact fail
  | some frame => exact fun _ _ => rfl

theorem lookUp (id : NodeId) (name : Name) : Silent (Eval.lookUp id name) := by
  intro f m
  unfold Eval.lookUp
  extract_lets found found'
  have hsame : found = found' := rfl
  rw [hsame]
  cases found' <;> rfl

theorem assign (id : NodeId) (name : Name) (v : Value) : Silent (Eval.assign id name v) := setSlot fun _ _ => rfl

theorem define (name : Name) (v : Value) : Silent (Eval.define name v) := setSlot fun _ _ => rfl

theorem overwrite (name : Name) (v : Value) : Silent (Eval.overwrite name v) := setSlot fun _ _ => rfl

theorem superClass (id : NodeId) (line : Nat) : Silent (Eval.superClass id line) := by
  intro f m
  unfold Eval.superClass
  dsimp only [Machine.withOutput]
  cases (m.bindings.get? id).bind fun distance => m.store.readAt m.env distance "super" with
  | none => rfl
  | some v => cases v <;> rfl

theorem superReceiver (id : NodeId) (line : Nat) : Silent (Eval.superReceiver id line) := by
  intro f m
  unfold Eval.superReceiver
  extract_lets found found'
  have hsame : found = found' := rfl
  rw [hsame]
  cases found' with
  | none => rfl
  | some v => cases v <;> rfl

theorem receiverOf (c : Closure) : Silent (Eval.receiverOf c) := by
  intro f m
  unfold Eval.receiverOf
  dsimp only [Machine.withOutput]
  cases m.store.readAt c.env 0 "this" <;> rfl

theorem readLine (line : Nat) : Silent (Eval.readLine line) := by
  intro f m
  unfold Eval.readLine
  dsimp only [Machine.withOutput]
  cases m.input.programLine.1 with
  | nil => rfl
  | cons b bs => cases Utf8.decode (b :: bs) <;> rfl

end Eval.Silent

/-! ## Two runs -/

/-- An error of the output. -/
def Error.IsOutput : Error → Prop
  | .output _ => True
  | .runtime _ (.outputNotWritten _) => True
  | _ => False

/-- How a run ends where the sink takes `k` octets, as against one that takes all. -/
inductive Outcome.Capped (k : Nat) {α : Type} : Outcome Machine Error α → Outcome Machine Error α → Prop where
  | exhausted : Capped k .exhausted .exhausted
  | done {a m} : m.output.written.size ≤ k → Capped k (.done a m) (.done a (m.withOutput (.capped k)))
  | failed {e m} : m.output.written.size ≤ k → Capped k (.failed e m) (.failed e (m.withOutput (.capped k)))
  /-- The sink is full, and all that the other run does is to write more. -/
  | cut {o e m} : e.IsOutput → m.output.limit = some k → m.output.written.size = k →
    (∀ m₁, o.EndsIn m₁ → k < m₁.output.written.size ∧ m.output.written = m₁.output.written.extract 0 k) → Capped k o (.failed e m)

/-- The run adds to the output, and where it ends otherwise with a limit, the sink is full. -/
structure Caps (k : Nat) {α : Type} (m : Machine) (body : Eval α) : Prop where
  grows : ∀ m₁, (body m).EndsIn m₁ → m.output.Grows m₁.output
  capped : m.output.limit = none → m.output.written.size ≤ k → Outcome.Capped k (body m) (body (m.withOutput (.capped k)))

namespace Caps

variable {k : Nat} {α β : Type} {m : Machine} {body : Eval α}

theorem silent (h : Eval.Silent body) : Caps k m body where
  grows m₁ he := h.output he ▸ .refl _
  capped hl hk := by
    rw [h]
    cases hb : body m with
    | exhausted => exact .exhausted
    | done a m₁ => exact .done (by rw [h.output (m := m) (hb ▸ rfl)]; exact hk)
    | failed e m₁ => exact .failed (by rw [h.output (m := m) (hb ▸ rfl)]; exact hk)

theorem bind {next : α → Eval β} (h : Caps k m body) (hn : ∀ a m', body m = .done a m' → Caps k m' (next a)) :
    Caps k m (body >>= next) where
  grows m₂ he := by
    rw [Run.bind_apply] at he
    cases hb : body m with
    | exhausted => rw [hb] at he; exact he.elim
    | failed e m₁ => rw [hb] at he; exact h.grows m₂ (hb ▸ he)
    | done a m₁ => rw [hb] at he; exact (h.grows m₁ (hb ▸ rfl)).trans ((hn a m₁ hb).grows m₂ he)
  capped hl hk := by
    have hc := h.capped hl hk
    rw [Run.bind_apply, Run.bind_apply]
    generalize hb' : body (m.withOutput (.capped k)) = o' at hc
    cases hb : body m with
    | exhausted =>
      rw [hb] at hc
      cases hc with
      | exhausted => exact .exhausted
      | cut he hlim hfull _ => exact .cut he hlim hfull fun _ he => he.elim
    | failed e m₁ =>
      rw [hb] at hc
      cases hc with
      | failed hk₁ => exact .failed hk₁
      | cut he hlim hfull hout => exact .cut he hlim hfull hout
    | done a m₁ =>
      have hgrows := h.grows m₁ (hb ▸ rfl)
      rw [hb] at hc
      cases hc with
      | done hk₁ => exact (hn a m₁ hb).capped (hgrows.limit.trans hl) hk₁
      | cut he hlim hfull hout =>
        -- what the other run writes later comes after the first `k` octets
        refine .cut he hlim hfull fun m₂ he₂ => ?_
        obtain ⟨hlt, hw⟩ := hout m₁ rfl
        have hgrows₂ := (hn a m₁ hb).grows m₂ he₂
        exact ⟨Nat.lt_of_lt_of_le hlt hgrows₂.size_le, hw.trans (hgrows₂.extract (Nat.le_of_lt hlt)).symm⟩

theorem within {env : Env} (h : Caps k { m with env } body) : Caps k m (Eval.within env body) where
  grows m₁ he := by
    unfold Eval.within at he
    cases hb : body { m with env } with
    | exhausted => rw [hb] at he; exact he.elim
    | failed e m₂ => rw [hb] at he; rw [he]; exact h.grows m₂ (hb ▸ rfl)
    | done a m₂ => rw [hb] at he; rw [he]; exact h.grows m₂ (hb ▸ rfl)
  capped hl hk := by
    have hc := h.capped hl hk
    have hswap : ({ m with env } : Machine).withOutput (.capped k) = { m.withOutput (.capped k) with env } := rfl
    unfold Eval.within
    dsimp only
    rw [hswap] at hc
    generalize body { m.withOutput (.capped k) with env } = o' at hc
    generalize body { m with env } = o at hc
    cases hc with
    | exhausted => exact .exhausted
    | done hk₁ => exact .done hk₁
    | failed hk₁ => exact .failed hk₁
    | cut he hlim hfull hout =>
      refine .cut he hlim hfull fun m₁ he₁ => ?_
      cases o with
      | exhausted => exact he₁.elim
      | done a m₂ => rw [he₁]; exact hout m₂ rfl
      | failed e m₂ => rw [he₁]; exact hout m₂ rfl

theorem asCall {line : Nat} (h : ¬ maxDepth ≤ m.depth → Caps k { m with depth := m.depth + 1 } body) :
    Caps k m (Eval.asCall line body) := by
  by_cases hd : maxDepth ≤ m.depth
  · have hfail : ∀ m : Machine, maxDepth ≤ m.depth → Eval.asCall line body m = .failed (.runtime line .stackOverflow) m :=
      fun m hd => if_pos hd
    refine ⟨fun m₁ he => ?_, fun hl hk => ?_⟩
    · rw [hfail m hd] at he
      rw [he]
      exact .refl _
    · rw [hfail m hd, hfail (m.withOutput (.capped k)) hd]
      exact .failed hk
  · have h := h hd
    refine ⟨fun m₁ he => ?_, fun hl hk => ?_⟩
    · simp only [Eval.asCall, if_neg hd] at he
      cases hb : body { m with depth := m.depth + 1 } with
      | exhausted => rw [hb] at he; exact he.elim
      | failed e m₂ => rw [hb] at he; rw [he]; exact h.grows m₂ (hb ▸ rfl)
      | done a m₂ => rw [hb] at he; rw [he]; exact h.grows m₂ (hb ▸ rfl)
    · have hc := h.capped hl hk
      have hd' : ¬ maxDepth ≤ (m.withOutput (.capped k)).depth := hd
      have hswap : ({ m with depth := m.depth + 1 } : Machine).withOutput (.capped k) =
          { m.withOutput (.capped k) with depth := (m.withOutput (.capped k)).depth + 1 } := rfl
      simp only [Eval.asCall, if_neg hd, if_neg hd']
      rw [hswap] at hc
      generalize body { m.withOutput (.capped k) with depth := (m.withOutput (.capped k)).depth + 1 } = o' at hc
      generalize body { m with depth := m.depth + 1 } = o at hc
      cases hc with
      | exhausted => exact .exhausted
      | done hk₁ => exact .done hk₁
      | failed hk₁ => exact .failed hk₁
      | cut he hlim hfull hout =>
        refine .cut he hlim hfull fun m₁ he₁ => ?_
        cases o with
        | exhausted => exact he₁.elim
        | done a m₂ => rw [he₁]; exact hout m₂ rfl
        | failed e m₂ => rw [he₁]; exact hout m₂ rfl

theorem writeLine (text : String) {fault : OutputFault → Error} (hf : (fault .sinkFull).IsOutput) :
    Caps k m (Eval.writeLine text fault) where
  grows m₁ he := by
    have hgrows := m.output.grows_write (text ++ "\n")
    unfold Eval.writeLine at he
    split at he
    · rename_i hw; rw [hw] at hgrows; rw [he]; exact hgrows
    · rename_i hw; rw [hw] at hgrows; rw [he]; exact hgrows
  capped hl hk := by
    have hswap : (m.withOutput (.capped k)).output = m.output.capped k := rfl
    unfold Eval.writeLine
    rw [hswap, Sink.write_capped hk, Sink.write_of_unlimited hl]
    by_cases hfits : (m.output.written ++ (text ++ "\n").toUTF8).size ≤ k
    · rw [if_pos hfits]
      exact .done hfits
    · rw [if_neg hfits]
      refine .cut hf rfl ?_ fun m₁ he => ?_
      · simp only [Sink.capped, ByteArray.size_extract, Nat.sub_zero]
        omega
      · rw [he]
        exact ⟨Nat.lt_of_not_le hfits, rfl⟩

theorem closed (k : Nat) : Judgement.Closed fun _ m body => Caps k m body where
  pure a _ := silent (.pure a)
  fail _ _ _ _ := silent .fail
  bind h hn := h.bind hn
  within h := h.within
  asCall h := asCall h
  here _ := silent fun _ _ => rfl
  lookUp id name _ := silent (.lookUp id name)
  assign id name v _ := silent (.assign id name v)
  overwrite name v _ := silent (.overwrite name v)
  newFrame _ _ _ := silent fun _ _ => rfl
  freshSerial _ := silent fun _ _ => rfl
  newInstance _ _ := silent fun _ _ => rfl
  field? _ _ _ := silent fun _ _ => rfl
  setField _ _ _ _ := silent fun _ _ => rfl
  superClass id line _ := silent (.superClass id line)
  superReceiver id line _ := silent (.superReceiver id line)
  receiverOf c _ := silent (.receiverOf c)
  writeLine text _ := writeLine text trivial
  callNative fn args line m := by
    unfold Eval.callNative
    split
    · exact silent fun _ _ => rfl
    · exact silent (.readLine line)
    · have hwrite {text : String} : Caps k m (Eval.writeLine text fun fault => .runtime line (.outputNotWritten fault)) :=
        writeLine text trivial
      exact hwrite.bind fun _ _ _ => silent (.pure _)
    · exact silent (.pure _)
    · exact silent (.pure _)

end Caps

/-- Every evaluation is cut off like that. -/
theorem Activity.caps (k : Nat) : ∀ (n : Nat) (a : Activity) (m : Machine), Caps k m (a.run n)
  | 0, a, m => by
    have h : a.run 0 = (Run.exhausted : Eval a.Result) := funext fun m => a.run_zero m
    rw [h]
    exact ⟨fun _ he => he.elim, fun _ _ => .exhausted⟩
  | n + 1, a, _ => (Caps.closed k).step (fun b m' _ => Activity.caps k n b m') fun name v _ _ => .silent (.define name v)

/-! ## Results -/

namespace Caps

variable {k : Nat} {α : Type} {body : Eval α} (h : ∀ m, Caps k m body) {m m' : Machine} {a : α}
include h

/-- A run that has fit does the same with the limit. -/
theorem capped_of_done (hd : body m = .done a m') (hf : m'.output.Fits k none) :
    m.output.Fits k none ∧ body (m.withOutput (.capped k)) = .done a (m'.withOutput (.capped k)) := by
  have hm := ((h m).grows m' (hd ▸ rfl)).fits hf
  have hc := (h m).capped hm.limit hm.size
  rw [hd] at hc
  generalize body (m.withOutput (.capped k)) = o at hc
  cases hc with
  | done => exact ⟨hm, rfl⟩
  | cut _ _ _ hout => exact absurd (hout m' rfl).1 (Nat.not_lt.mpr hf.size)

/-- A run that gives a result with the limit does the same without. -/
theorem uncapped_of_done (hd : body m = .done a m') (hf : m'.output.Fits k (some k)) :
    m.output.Fits k (some k) ∧ body (m.withOutput .uncapped) = .done a (m'.withOutput .uncapped) := by
  have hm := ((h m).grows m' (hd ▸ rfl)).fits hf
  have hc := (h (m.withOutput .uncapped)).capped rfl hm.size
  rw [Machine.capped_uncapped hm.limit, hd] at hc
  generalize ho : body (m.withOutput .uncapped) = o at hc
  cases hc with
  | @done _ m₁ =>
    have hl : m₁.output.limit = none := ((h (m.withOutput .uncapped)).grows m₁ (by rw [ho]; rfl)).limit
    rw [Machine.uncapped_capped hl]
    exact ⟨hm, rfl⟩

end Caps

/-! ## Moments -/

namespace Moment

open Eval

def withOutput (f : Sink → Sink) (x : Moment) : Moment := { x with machine := x.machine.withOutput f }

/-- With another output the evaluation turns to the same work, as far as work that gives a result does the same. -/
theorem Calls.withOutput {G : Sink → Prop} {f : Sink → Sink}
    (hrun : ∀ n a m r m', Activity.run n a m = .done r m' → G m'.output →
      G m.output ∧ a.run n (m.withOutput f) = .done r (m'.withOutput f))
    {x y : Moment} (hc : x.Calls y) (hf : G y.machine.output) :
    G x.machine.output ∧ (x.withOutput f).Calls (y.withOutput f) := by
  cases hc with
  | unary => exact ⟨hf, .unary⟩
  | binaryLeft => exact ⟨hf, .binaryLeft⟩
  | binaryRight hv =>
    obtain ⟨hf, hv⟩ := hrun _ (.expr _) _ _ _ hv hf
    exact ⟨hf, .binaryRight hv⟩
  | logicalLeft => exact ⟨hf, .logicalLeft⟩
  | logicalRight hv hs =>
    obtain ⟨hf, hv⟩ := hrun _ (.expr _) _ _ _ hv hf
    exact ⟨hf, .logicalRight hv hs⟩
  | group => exact ⟨hf, .group⟩
  | assigned => exact ⟨hf, .assigned⟩
  | callee => exact ⟨hf, .callee⟩
  | arguments hv =>
    obtain ⟨hf, hv⟩ := hrun _ (.expr _) _ _ _ hv hf
    exact ⟨hf, .arguments hv⟩
  | call hv hvs =>
    obtain ⟨hf, hvs⟩ := hrun _ (.exprs _) _ _ _ hvs hf
    obtain ⟨hf, hv⟩ := hrun _ (.expr _) _ _ _ hv hf
    exact ⟨hf, .call hv hvs⟩
  | getObject => exact ⟨hf, .getObject⟩
  | get hv =>
    obtain ⟨hf, hv⟩ := hrun _ (.expr _) _ _ _ hv hf
    exact ⟨hf, .get hv⟩
  | setObject => exact ⟨hf, .setObject⟩
  | set hv =>
    obtain ⟨hf, hv⟩ := hrun _ (.expr _) _ _ _ hv hf
    exact ⟨hf, .set hv⟩
  | super => exact ⟨hf, .super⟩
  | head => exact ⟨hf, .head⟩
  | tail hv =>
    obtain ⟨hf, hv⟩ := hrun _ (.expr _) _ _ _ hv hf
    exact ⟨hf, .tail hv⟩
  | fieldValue => exact ⟨hf, .fieldValue⟩
  | method hv hm => exact ⟨hf, .method hv hm⟩
  | staticGetter hs hg => exact ⟨hf, .staticGetter hs hg⟩
  | @superMethod n m id line method c i g hc hi hm =>
    have hc' : superClass id line (m.withOutput f) = .done c (m.withOutput f) := by rw [Silent.superClass, hc]; rfl
    have hi' : superReceiver id line (m.withOutput f) = .done i (m.withOutput f) := by rw [Silent.superReceiver, hi]; rfl
    exact ⟨hf, .superMethod hc' hi' hm⟩
  | getter hb hg => cases hb; exact ⟨hf, .getter rfl hg⟩
  | apply hv hl => exact ⟨hf, .apply hv hl⟩
  | closure => exact ⟨hf, .closure⟩
  | initializer hi hm hb => cases hi; cases hb; exact ⟨hf, .initializer rfl hm rfl⟩
  | enter hd => exact ⟨hf, .enter hd⟩
  | body hframe => cases hframe; exact ⟨hf, .body rfl⟩
  | statement => exact ⟨hf, .statement⟩
  | print => exact ⟨hf, .print⟩
  | varDecl => exact ⟨hf, .varDecl⟩
  | block hframe => cases hframe; exact ⟨hf, .block rfl⟩
  | condition => exact ⟨hf, .condition⟩
  | thenBranch hv ht =>
    obtain ⟨hf, hv⟩ := hrun _ (.expr _) _ _ _ hv hf
    exact ⟨hf, .thenBranch hv ht⟩
  | elseBranch hv ht =>
    obtain ⟨hf, hv⟩ := hrun _ (.expr _) _ _ _ hv hf
    exact ⟨hf, .elseBranch hv ht⟩
  | loop => exact ⟨hf, .loop⟩
  | returns => exact ⟨hf, .returns⟩
  | superclass => exact ⟨hf, .superclass⟩
  | first => exact ⟨hf, .first⟩
  | rest hst =>
    obtain ⟨hf, hst⟩ := hrun _ (.stmt _) _ _ _ hst hf
    exact ⟨hf, .rest hst⟩
  | loopCondition => exact ⟨hf, .loopCondition⟩
  | loopBody hv ht =>
    obtain ⟨hf, hv⟩ := hrun _ (.expr _) _ _ _ hv hf
    exact ⟨hf, .loopBody hv ht⟩
  | again hv ht hst =>
    obtain ⟨hf, hst⟩ := hrun _ (.stmt _) _ _ _ hst hf
    obtain ⟨hf, hv⟩ := hrun _ (.expr _) _ _ _ hv hf
    exact ⟨hf, .again hv ht hst⟩

theorem Reaches.withOutput {G : Sink → Prop} {f : Sink → Sink}
    (hrun : ∀ n a m r m', Activity.run n a m = .done r m' → G m'.output →
      G m.output ∧ a.run n (m.withOutput f) = .done r (m'.withOutput f))
    {x y : Moment} (hr : x.Reaches y) (hf : G y.machine.output) :
    G x.machine.output ∧ (x.withOutput f).Reaches (y.withOutput f) := by
  induction hr with
  | refl => exact ⟨hf, .refl⟩
  | step hc _ ih =>
    obtain ⟨hy, hreach⟩ := ih hf
    obtain ⟨hx, hc⟩ := hc.withOutput hrun hy
    exact ⟨hx, .step hc hreach⟩

/-- The moments that follow have more output. -/
theorem Reaches.grows {x y : Moment} (hr : x.Reaches y) : x.machine.output.Grows y.machine.output := by
  by_contra hy
  -- a run that ends with a sink that has not grown out of the first one has begun with one
  refine (hr.withOutput (G := fun s => ¬ x.machine.output.Grows s) (f := id) (fun n a m r m' hd hm' => ⟨fun hm => hm' ?_, hd⟩) hy).1
    (.refl _)
  exact hm.trans ((a.caps 0 n m).grows m' (by rw [hd]; rfl))

end Moment

end Lox
