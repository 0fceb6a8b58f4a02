import Lox.Console.Input

/-!
# Line ends among the octets of a text

Only the line end itself has an octet that is equal to it. A text can therefore be cut behind a line end before it is decoded
or after, with one result, and octets without a line end give characters without one.
-/

namespace Lox.Utf8

variable {p rest bs : List UInt8} {cs : List Char} {text : String}

theorem charsOf_eq_ok : ∀ {k : Nat} {us : List Segment} {cs : List Char},
    charsOf k us = .ok cs ↔ us = cs.map .char
  | _, [], cs => by cases cs <;> simp [charsOf]
  | k, .char c :: us, cs => by
    have ih := @charsOf_eq_ok (k + c.utf8Size) us
    cases cs with
    | nil => cases h : charsOf (k + c.utf8Size) us <;> simp [charsOf, h, Except.map]
    | cons d ds =>
      rw [List.map_cons, List.cons.injEq, ← ih, charsOf]
      cases charsOf (k + c.utf8Size) us <;> simp [Except.map]
  | _, .malformed _ :: _, cs => by cases cs <;> simp [charsOf]
  | _, .cut _ :: _, cs => by cases cs <;> simp [charsOf]

theorem decode_eq_ok : decode bs = .ok text ↔ segments bs = text.toList.map .char := by
  rw [← charsOf_eq_ok (k := 0), decode]
  cases charsOf 0 (segments bs) with
  | error e => simp [Except.map]
  | ok cs => simp [Except.map, String.ext_iff]

theorem decode_eq_empty : decode bs = .ok "" ↔ bs = [] := by
  rw [decode_eq_ok]
  cases bs with
  | nil => exact ⟨fun _ => rfl, fun _ => rfl⟩
  | cons b bs =>
    rw [segments_cons]
    exact ⟨nofun, nofun⟩

/-! ## Leads and tails -/

/-- A first octet stands for itself, or promises other octets; then the code point is no small one. -/
theorem Lead.ofOctet?_some {b : UInt8} {lead : Lead} (h : Lead.ofOctet? b = some lead) : 0x80 ≤ lead.low ∧
    (lead.tails = 0 ∧ lead.payload = b.toNat ∨ 0 < lead.tails ∧ (0 < lead.payload ∨ 0x90 ≤ lead.low)) := by
  unfold Lead.ofOctet? at h
  dsimp only at h
  (repeat' split at h) <;> simp only [reduceCtorEq, Option.some.injEq] at h <;> subst h
  all_goals simp
  all_goals omega

theorem ofNat_ne_newline {n : Nat} (h : n ≠ 10) : Char.ofNat n ≠ '\n' := by
  intro he
  by_cases hv : n.isValidChar
  · rw [show Char.ofNat n = Char.ofNatAux n hv from dif_pos hv] at he
    exact h (congrArg Char.toNat he)
  · rw [show Char.ofNat n = _ from dif_neg hv] at he
    exact absurd he (by decide)

theorem readTails_ne_newline : ∀ {tails : Nat} {low high : UInt8} {value seen : Nat} {bs : List UInt8},
    10 < value ∨ 0 < tails ∧ (0 < value ∨ 0x90 ≤ low) → (readTails tails low high value seen bs).1 ≠ .char '\n'
  | 0, _, _, value, _, _, hv, h => by
    simp only [readTails, Segment.char.injEq] at h
    exact ofNat_ne_newline (by omega) h
  | tails + 1, _, _, _, _, [], _, h => by cases h
  | tails + 1, low, high, value, seen, b :: bs, hv, h => by
    rw [readTails] at h
    split at h
    · rename_i hb
      refine readTails_ne_newline (.inl ?_) h
      have hlow : low.toNat ≤ b.toNat := hb.1
      obtain hv | ⟨-, hv | hv⟩ := hv
      · omega
      · omega
      · have : 0x90 ≤ low.toNat := hv
        omega
    · cases h

theorem readTails_suffix : ∀ (tails : Nat) (low high : UInt8) (value seen : Nat) (bs : List UInt8),
    (readTails tails low high value seen bs).2 <:+ bs
  | 0, _, _, _, _, bs => List.suffix_refl bs
  | _ + 1, _, _, _, _, [] => List.suffix_refl []
  | tails + 1, low, high, value, seen, b :: rest => by
    rw [readTails]
    split
    · exact (readTails_suffix ..).trans (List.suffix_cons b rest)
    · exact List.suffix_refl _

/-- A line end is no tail, so what comes after it makes no difference. -/
theorem readTails_newline : ∀ (p : List UInt8) (tails : Nat) (low high : UInt8) (value seen : Nat), 0x80 ≤ low →
    ∃ s p', p' <:+ p ∧ ∀ rest, readTails tails low high value seen (p ++ newline :: rest) = (s, p' ++ newline :: rest)
  | p, 0, _, _, value, _, _ => ⟨.char (Char.ofNat value), p, List.suffix_refl p, fun _ => rfl⟩
  | [], tails + 1, low, high, value, seen, hlow => by
    have hno : ¬ (low ≤ newline ∧ newline ≤ high) := fun h => absurd (UInt8.le_trans hlow h.1) (by decide)
    refine ⟨.malformed seen, [], List.suffix_refl [], fun rest => ?_⟩
    rw [List.nil_append, readTails, if_neg hno]
  | b :: p, tails + 1, low, high, value, seen, hlow => by
    by_cases hb : low ≤ b ∧ b ≤ high
    · obtain ⟨s, p', hp, heq⟩ := readTails_newline p tails 0x80 0xBF (value * 64 + (b.toNat - 0x80)) (seen + 1)
        (UInt8.le_refl 0x80)
      refine ⟨s, p', hp.trans (List.suffix_cons b p), fun rest => ?_⟩
      rw [List.cons_append, readTails, if_pos hb, heq]
    · refine ⟨.malformed seen, b :: p, List.suffix_refl _, fun rest => ?_⟩
      rw [List.cons_append, readTails, if_neg hb]

/-! ## Segments -/

theorem readSegment_ne_newline {b : UInt8} (hb : b ≠ newline) (rest : List UInt8) :
    (readSegment b rest).1 ≠ .char '\n' := by
  unfold readSegment
  cases h : Lead.ofOctet? b with
  | none => exact nofun
  | some lead =>
    obtain ⟨-, ⟨htails, hpayload⟩ | h⟩ := Lead.ofOctet?_some h
    · dsimp only
      rw [htails, hpayload]
      exact fun he => ofNat_ne_newline (fun h => hb (UInt8.toNat_inj.mp h)) (Segment.char.inj he)
    · exact readTails_ne_newline (.inr h)

theorem readSegment_suffix (b : UInt8) (rest : List UInt8) : (readSegment b rest).2 <:+ rest := by
  unfold readSegment
  split
  · exact List.suffix_refl rest
  · exact readTails_suffix ..

theorem readSegment_before_newline (b : UInt8) (p : List UInt8) :
    ∃ s p', p' <:+ p ∧ ∀ rest, readSegment b (p ++ newline :: rest) = (s, p' ++ newline :: rest) := by
  unfold readSegment
  cases h : Lead.ofOctet? b with
  | none => exact ⟨_, p, List.suffix_refl p, fun _ => rfl⟩
  | some lead => exact readTails_newline p lead.tails _ _ lead.payload 1 (Lead.ofOctet?_some h).1

/-- Without a line end among the octets there is none among the segments. -/
theorem segments_ne_newline (hp : newline ∉ p) : .char '\n' ∉ segments p := by
  induction hn : p.length using Nat.strongRecOn generalizing p with
  | ind n ih =>
    cases p with
    | nil => exact nofun
    | cons b p =>
      have hb := List.ne_of_not_mem_cons hp
      replace hp := List.not_mem_of_not_mem_cons hp
      have hsuffix := readSegment_suffix b p
      have hlt : (readSegment b p).2.length < n := by rw [← hn]; exact Nat.lt_succ_of_le hsuffix.length_le
      rw [segments_cons]
      exact List.not_mem_cons_of_ne_of_not_mem (readSegment_ne_newline hb.symm p).symm
        (ih _ hlt (fun h => hp (hsuffix.subset h)) rfl)

/-- The octets of a line, its line end, and the octets after it are decoded for themselves. -/
theorem segments_newline (hp : newline ∉ p) : ∃ us, .char '\n' ∉ us ∧
    ∀ rest, segments (p ++ newline :: rest) = us ++ .char '\n' :: segments rest := by
  induction hn : p.length using Nat.strongRecOn generalizing p with
  | ind n ih =>
    cases p with
    | nil => exact ⟨[], nofun, fun rest => segments_cons newline rest⟩
    | cons b p =>
      have hb := List.ne_of_not_mem_cons hp
      replace hp := List.not_mem_of_not_mem_cons hp
      obtain ⟨s, p', hsuffix, heq⟩ := readSegment_before_newline b p
      have hs : s ≠ .char '\n' := by
        have h := readSegment_ne_newline hb.symm (p ++ newline :: [])
        rwa [heq] at h
      have hlt : p'.length < n := by rw [← hn]; exact Nat.lt_succ_of_le hsuffix.length_le
      obtain ⟨us, hus, hall⟩ := ih _ hlt (fun h => hp (hsuffix.subset h)) rfl
      refine ⟨s :: us, List.not_mem_cons_of_ne_of_not_mem hs.symm hus, fun rest => ?_⟩
      rw [List.cons_append, segments_cons, heq, hall, List.cons_append]

/-! ## Texts -/

theorem newline_notMem_of_decode (hp : newline ∉ p) (h : decode p = .ok text) : '\n' ∉ text.toList := by
  intro hmem
  refine segments_ne_newline hp ?_
  rw [decode_eq_ok.mp h]
  exact List.mem_map_of_mem hmem

/-- A text whose octets have a line end is a line and what comes after it, and both are texts of their own. -/
theorem decode_newline (hp : newline ∉ p) (h : decode (p ++ newline :: rest) = .ok text) :
    ∃ q cs, text.toList = q ++ '\n' :: cs ∧ '\n' ∉ q ∧ decode (p ++ [newline]) = .ok (String.ofList (q ++ ['\n'])) ∧
      decode rest = .ok (String.ofList cs) := by
  obtain ⟨us, hus, hall⟩ := segments_newline hp
  rw [decode_eq_ok, hall, eq_comm, List.map_eq_append_iff] at h
  obtain ⟨q, cs', htext, rfl, hrest⟩ := h
  obtain ⟨c, cs, rfl, hc, hcs⟩ := List.map_eq_cons_iff.mp hrest
  cases hc
  refine ⟨q, cs, htext, fun hmem => hus (List.mem_map_of_mem hmem), decode_eq_ok.mpr ?_, decode_eq_ok.mpr ?_⟩
  · rw [hall, String.toList_ofList, List.map_append]
    rfl
  · rw [String.toList_ofList, hcs]

end Lox.Utf8
