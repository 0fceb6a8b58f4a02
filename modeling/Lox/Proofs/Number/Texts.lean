import Lox.Number.Text
import Lox.Proofs.Number.Shortest
import Lox.Proofs.Source.Lexemes

/-!
# Numbers written and read

A finite double is written as digits, with a point between them where one is needed. The decimal that the digits stand for
rounds to the double, so it is this double that they are read as.
-/

namespace Lox

open Piece

/-- The decimal that the digits before and after the point stand for. -/
def Digits.value (whole fraction : List Char) : ℚ := digitsValue (whole ++ fraction) / 10 ^ fraction.length

namespace Number

variable {m : Nat} {q : Int}

/-! ## Digits -/

theorem digitsValue_digitsOf (n : Nat) : digitsValue (digitsOf n) = n := Nat.ofDigitChars_ten_toDigits

theorem digitsValue_append_zeros (ds : List Char) (n : Nat) :
    digitsValue (ds ++ List.replicate n '0') = 10 ^ n * digitsValue ds := by
  change Nat.ofDigitChars 10 (ds ++ List.replicate n '0') 0 = _
  rw [Nat.ofDigitChars_append, Nat.ofDigitChars_replicate_zero]
  rfl

theorem digitsValue_zeros_append (n : Nat) (ds : List Char) :
    digitsValue (List.replicate n '0' ++ ds) = digitsValue ds := by
  change Nat.ofDigitChars 10 (List.replicate n '0' ++ ds) 0 = _
  rw [Nat.ofDigitChars_append, Nat.ofDigitChars_replicate_zero, Nat.mul_zero]
  rfl

theorem isDigit_of_mem_digitsOf {n : Nat} {c : Char} (h : c ∈ digitsOf n) : c.isDigit = true :=
  Nat.isDigit_of_mem_toDigits (by decide) (by decide) h

theorem isDigit_of_mem_zeros {n : Nat} {c : Char} (h : c ∈ List.replicate n '0') : c.isDigit = true := by
  rw [List.eq_of_mem_replicate h]
  rfl

theorem digitsOf_ne_nil (n : Nat) : digitsOf n ≠ [] := Nat.toDigits_ne_nil

/-! ## Decimals in full -/

/-- Digits with so many behind the point as the exponent tells. -/
theorem Decimal.value_of_digits {d : Decimal} {whole fraction : List Char}
    (hdigits : digitsValue (whole ++ fraction) = d.digits) (hexp : d.exponent = -(fraction.length : ℤ)) :
    Digits.value whole fraction = d.value := by
  rw [Digits.value, Decimal.value, hdigits, hexp, zpow_neg, zpow_natCast, div_eq_mul_inv]

theorem positional_digits (d : Decimal) :
    ∃ whole fraction, Digits (positional d) whole fraction ∧ Digits.value whole fraction = d.value := by
  have hdigits : ∀ c ∈ digitsOf d.digits, c.isDigit = true := fun c hc => isDigit_of_mem_digitsOf hc
  have hne := digitsOf_ne_nil d.digits
  have hvalue := digitsValue_digitsOf d.digits
  simp only [positional]
  generalize digitsOf d.digits = ds at hdigits hne hvalue
  generalize hplaces : (-d.exponent).toNat = places
  split
  · have hexp : d.exponent = (d.exponent.toNat : ℤ) := by omega
    refine ⟨_, [], ⟨rfl, List.append_ne_nil_of_left_ne_nil hne _, fun c hc => ?_, List.forall_mem_nil _⟩, ?_⟩
    · exact (List.mem_append.mp hc).elim (hdigits c) isDigit_of_mem_zeros
    · rw [Digits.value, Decimal.value, List.append_nil, digitsValue_append_zeros, hvalue, hexp, zpow_natCast]
      push_cast
      rw [List.length_nil, pow_zero, div_one, mul_comm]
      rfl
  · have hexp : d.exponent = -(places : ℤ) := by omega
    split
    · refine ⟨ds.take (ds.length - places), ds.drop (ds.length - places), ⟨?_, ?_, ?_, ?_⟩, ?_⟩
      · have hdrop : ds.drop (ds.length - places) ≠ [] := by
          rw [ne_eq, List.drop_eq_nil_iff]
          omega
        simp [numberText, hdrop]
      · rw [ne_eq, List.take_eq_nil_iff, not_or]
        exact ⟨by omega, hne⟩
      · exact fun c hc => hdigits c (List.mem_of_mem_take hc)
      · exact fun c hc => hdigits c (List.mem_of_mem_drop hc)
      · refine Decimal.value_of_digits (by rw [List.take_append_drop, hvalue]) ?_
        rw [List.length_drop, hexp]
        omega
    · refine ⟨['0'], List.replicate (places - ds.length) '0' ++ ds, ⟨?_, List.cons_ne_nil _ _, ?_, fun c hc => ?_⟩, ?_⟩
      · simp [numberText, hne]
      · exact List.all_eq_true.mp (by decide)
      · exact (List.mem_append.mp hc).elim isDigit_of_mem_zeros (hdigits c)
      · refine Decimal.value_of_digits ?_ ?_
        · rw [← hvalue, ← digitsValue_zeros_append (places - ds.length + 1) ds, List.replicate_succ]
          rfl
        · rw [List.length_append, List.length_replicate, hexp]
          omega

/-! ## Whole numbers -/

theorem wholePart_eq (h : isWhole m q = true) : (wholePart m q : ℚ) = m * 2 ^ q := by
  obtain ⟨k, rfl⟩ : 2 ^ (-q).toNat ∣ m := Nat.dvd_of_mod_eq_zero (by simpa [isWhole] using h)
  simp only [wholePart, Nat.pow_eq]
  rw [Nat.mul_assoc, Nat.mul_div_cancel_left _ (by positivity)]
  push_cast
  rw [← zpow_mul_pow_toNat two_ne_zero q]
  ring

/-- What may follow the digits of a whole number adds nothing to it. -/
theorem whole_digits {wholeEnd : List Char} (hend : wholeEnd = [] ∨ wholeEnd = ['.', '0']) (n : Nat) :
    ∃ whole fraction, Digits (digitsOf n ++ wholeEnd) whole fraction ∧ Digits.value whole fraction = n := by
  have hdigits : ∀ c ∈ digitsOf n, c.isDigit = true := fun c hc => isDigit_of_mem_digitsOf hc
  rcases hend with rfl | rfl
  · refine ⟨digitsOf n, [], ⟨by rw [List.append_nil]; rfl, digitsOf_ne_nil n, hdigits, List.forall_mem_nil _⟩, ?_⟩
    rw [Digits.value, List.append_nil, digitsValue_digitsOf, List.length_nil, pow_zero, div_one]
  · refine ⟨digitsOf n, ['0'], ⟨rfl, digitsOf_ne_nil n, hdigits, List.all_eq_true.mp (by decide)⟩, ?_⟩
    have hvalue := digitsValue_append_zeros (digitsOf n) 1
    rw [digitsValue_digitsOf, List.replicate_one] at hvalue
    rw [Digits.value, hvalue]
    push_cast
    rw [List.length_singleton, pow_one, mul_div_cancel_left₀ _ (by norm_num)]

/-! ## Finite doubles -/

/-- The digits of a magnitude. -/
def Form.magnitude (form : Form) (m : Nat) (q : Int) : List Char :=
  if form.isShortWhole m q then digitsOf (wholePart m q) ++ form.wholeEnd else positional (shortest .up m q)

theorem Form.magnitude_digits {form : Form} (hend : form.wholeEnd = [] ∨ form.wholeEnd = ['.', '0']) (m : Nat) (q : Int) :
    ∃ whole fraction, Digits (form.magnitude m q) whole fraction ∧ Within m q (Digits.value whole fraction) := by
  unfold magnitude
  split
  · rename_i hwhole
    rw [isShortWhole, Bool.and_eq_true] at hwhole
    obtain ⟨whole, fraction, hd, hv⟩ := whole_digits hend (wholePart m q)
    refine ⟨whole, fraction, hd, ?_⟩
    rw [hv, wholePart_eq hwhole.1]
    exact within_self m q
  · obtain ⟨whole, fraction, hd, hv⟩ := positional_digits (shortest .up m q)
    refine ⟨whole, fraction, hd, ?_⟩
    rw [hv]
    exact shortest_within .up m q

/-- Digits that round to a double are read as this double. -/
theorem numberValue_of_within {x : Float} {whole fraction : List Char} (h : read x = .finite false m q)
    (hx : Within m q (Digits.value whole fraction)) : numberValue whole fraction = x := by
  obtain ⟨hm, hbits⟩ := read_finite h
  have hpow : 0 < 10 ^ fraction.length := by positivity
  have hcast : Digits.value whole fraction = (digitsValue (whole ++ fraction) : ℚ) / ((10 ^ fraction.length : Nat) : ℚ) := by
    rw [Digits.value]
    push_cast
    rfl
  rw [hcast] at hx
  rw [← ofBits_toBits h, numberValue, ofDecimal, ofRatio]
  simp only [Nat.pow_eq]
  rw [nearestBits_of_within hpow hm hx, ← hbits, UInt64.ofNat_toNat]

end Number

end Lox
