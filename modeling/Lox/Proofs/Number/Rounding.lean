import Lox.Number.Shortest
import Lox.Proofs.Number.Bits

/-!
# Rounding to the nearest double

The quotients that round to `m * 2 ^ q` are those within half a place of it, the ends of the interval included where `m` is
even. Below a power of two the places are half as wide.
-/

namespace Lox.Number

/-! ## Powers with integer exponents -/

theorem pow_toNat_div {a : ℚ} (ha : a ≠ 0) (q : ℤ) : a ^ q.toNat / a ^ (-q).toNat = a ^ q := by
  rw [← zpow_natCast, ← zpow_natCast, ← zpow_sub₀ ha, Int.toNat_sub_toNat_neg]

theorem zpow_mul_pow_toNat {a : ℚ} (ha : a ≠ 0) (q : ℤ) : a ^ q * a ^ (-q).toNat = a ^ q.toNat := by
  rw [← pow_toNat_div ha, div_mul_cancel₀ _ (pow_ne_zero _ ha)]

theorem two_zpow_pos (q : ℤ) : (0 : ℚ) < 2 ^ q := zpow_pos two_pos q

/-- A quotient that is counted in places of width `2 ^ p`. -/
theorem scaled_div (num den : Nat) (p : ℤ) :
    ((num * 2 ^ (-p).toNat : Nat) : ℚ) / ((den * 2 ^ p.toNat : Nat) : ℚ) = num / den / 2 ^ p := by
  rw [← pow_toNat_div (two_ne_zero : (2 : ℚ) ≠ 0) p]
  push_cast
  rw [div_div_div_eq]

/-! ## Halves -/

theorem roundHalfEven_eq {num den m : Nat} (hden : 0 < den) (hlow : 2 * m * den ≤ 2 * num + den)
    (hhigh : 2 * num ≤ 2 * m * den + den)
    (hodd : m % 2 = 1 → 2 * m * den < 2 * num + den ∧ 2 * num < 2 * m * den + den) : roundHalfEven num den = m := by
  have hnum := Nat.div_add_mod num den
  have hr := Nat.mod_lt num hden
  have hle : num / den ≤ m := by
    by_contra hlt
    have := Nat.mul_le_mul_left den (show m + 1 ≤ num / den by omega)
    rw [Nat.mul_add, Nat.mul_comm den m] at this
    rw [Nat.mul_assoc] at hhigh
    omega
  have hge : m ≤ num / den + 1 := by
    by_contra hlt
    have := Nat.mul_le_mul_left den (show num / den + 2 ≤ m by omega)
    rw [Nat.mul_add, Nat.mul_comm den m] at this
    rw [Nat.mul_assoc] at hlow
    omega
  unfold roundHalfEven
  rw [Nat.mul_assoc, Nat.mul_comm m] at hlow hhigh hodd
  rcases (show num / den = m ∨ num / den + 1 = m by omega) with h | h
  · rw [h] at hnum
    rw [h, if_neg (by omega)]
  · rw [← h, Nat.mul_add] at hlow hhigh hodd
    rw [if_pos (by omega), h]

/-- The whole number that the quotient is nearest to. -/
theorem roundHalfEven_of_near {num den m : Nat} (hden : 0 < den) {y : ℚ} (hy : (num : ℚ) / den = y)
    (hlow : 2 * (m : ℚ) - 1 ≤ 2 * y) (hhigh : 2 * y ≤ 2 * m + 1)
    (hodd : m % 2 = 1 → 2 * (m : ℚ) - 1 < 2 * y ∧ 2 * y < 2 * m + 1) : roundHalfEven num den = m := by
  have hd : (0 : ℚ) < den := by exact_mod_cast hden
  have hnum : (num : ℚ) = y * den := by rw [← hy, div_mul_cancel₀ _ hd.ne']
  refine roundHalfEven_eq hden ?_ ?_ fun ho => ⟨?_, ?_⟩
  · have h := mul_le_mul_of_nonneg_right hlow hd.le
    have : (2 * m * den : ℚ) ≤ 2 * num + den := by rw [hnum]; linarith
    exact_mod_cast this
  · have h := mul_le_mul_of_nonneg_right hhigh hd.le
    have : (2 * num : ℚ) ≤ 2 * m * den + den := by rw [hnum]; linarith
    exact_mod_cast this
  · have h := mul_lt_mul_of_pos_right (hodd ho).1 hd
    have : (2 * m * den : ℚ) < 2 * num + den := by rw [hnum]; linarith
    exact_mod_cast this
  · have h := mul_lt_mul_of_pos_right (hodd ho).2 hd
    have : (2 * num : ℚ) < 2 * m * den + den := by rw [hnum]; linarith
    exact_mod_cast this

/-! ## Intervals -/

/-- The value is within half a place of `m * 2 ^ q`, and within a quarter below a power of two. -/
structure Within (m : Nat) (q : Int) (x : ℚ) : Prop where
  low : ((4 * m - gapBelow m q : Nat) : ℚ) * 2 ^ q ≤ 4 * x
  high : 4 * x ≤ ((4 * m + 2 : Nat) : ℚ) * 2 ^ q
  odd : m % 2 = 1 → ((4 * m - gapBelow m q : Nat) : ℚ) * 2 ^ q < 4 * x ∧ 4 * x < ((4 * m + 2 : Nat) : ℚ) * 2 ^ q

theorem gapBelow_le (m : Nat) (q : Int) : gapBelow m q ≤ 2 := by
  unfold gapBelow
  split <;> omega

namespace Within

variable {m : Nat} {q : Int} {x : ℚ} (h : Within m q x)
include h

theorem low_of_le {a : Nat} (ha : a ≤ 4 * m - gapBelow m q) : (a : ℚ) * 2 ^ q ≤ 4 * x :=
  (mul_le_mul_of_nonneg_right (by exact_mod_cast ha) (two_zpow_pos q).le).trans h.low

theorem high_of_le {b : Nat} (hb : 4 * m + 2 ≤ b) : 4 * x ≤ b * 2 ^ q :=
  h.high.trans (mul_le_mul_of_nonneg_right (by exact_mod_cast hb) (two_zpow_pos q).le)

end Within

/-! ## The last place -/

/-- The place is the last one that a double keeps of the value. -/
structure LastPlace (x : ℚ) (p : Int) : Prop where
  low : -1074 ≤ p
  high : x < 2 ^ 53 * 2 ^ p
  full : p = -1074 ∨ 2 ^ 52 * (2 : ℚ) ^ p ≤ x

theorem log2_bounds {n : Nat} (h : 0 < n) : (2 : ℚ) ^ (n.log2 : ℤ) ≤ n ∧ (n : ℚ) < 2 ^ ((n.log2 : ℤ) + 1) := by
  have hle := Nat.log2_self_le (Nat.ne_of_gt h)
  have hlt := Nat.lt_log2_self (n := n)
  refine ⟨by rw [zpow_natCast]; exact_mod_cast hle, ?_⟩
  rw [show (n.log2 : ℤ) + 1 = ((n.log2 + 1 : Nat) : ℤ) by push_cast; rfl, zpow_natCast]
  exact_mod_cast hlt

theorem quotient_bounds {num den : Nat} (hnum : 0 < num) (hden : 0 < den) :
    (2 : ℚ) ^ ((num.log2 : ℤ) - den.log2 - 1) < num / den ∧ (num / den : ℚ) < 2 ^ ((num.log2 : ℤ) - den.log2 + 1) := by
  obtain ⟨hn, hn'⟩ := log2_bounds hnum
  obtain ⟨hd, hd'⟩ := log2_bounds hden
  have hpos : (0 : ℚ) < den := by exact_mod_cast hden
  constructor
  · rw [lt_div_iff₀ hpos]
    calc (2 : ℚ) ^ ((num.log2 : ℤ) - den.log2 - 1) * den
        < 2 ^ ((num.log2 : ℤ) - den.log2 - 1) * 2 ^ ((den.log2 : ℤ) + 1) := mul_lt_mul_of_pos_left hd' (two_zpow_pos _)
      _ = 2 ^ (num.log2 : ℤ) := by rw [← zpow_add₀ two_ne_zero]; congr 1; omega
      _ ≤ num := hn
  · rw [div_lt_iff₀ hpos]
    calc (num : ℚ) < 2 ^ ((num.log2 : ℤ) + 1) := hn'
      _ = 2 ^ ((num.log2 : ℤ) - den.log2 + 1) * 2 ^ (den.log2 : ℤ) := by rw [← zpow_add₀ two_ne_zero]; congr 1; omega
      _ ≤ 2 ^ ((num.log2 : ℤ) - den.log2 + 1) * den := mul_le_mul_of_nonneg_left hd (two_zpow_pos _).le

theorem lastPlace_spec {num den : Nat} (hnum : 0 < num) (hden : 0 < den) : LastPlace (num / den) (lastPlace num den) := by
  obtain ⟨hlow, hhigh⟩ := quotient_bounds hnum hden
  unfold lastPlace
  simp only [Nat.pow_eq]
  generalize hq : max ((num.log2 : ℤ) - den.log2 - 53) (-1074) = q
  have hle : (num.log2 : ℤ) - den.log2 + 1 ≤ 53 + (q + 1) := by omega
  have hscaled : 2 ^ 53 * (den * 2 ^ q.toNat) ≤ num * 2 ^ (-q).toNat ↔ 2 ^ 53 * (2 : ℚ) ^ q ≤ num / den := by
    rw [← le_div_iff₀ (two_zpow_pos q), ← scaled_div, le_div_iff₀ (by positivity)]
    exact_mod_cast Iff.rfl
  split
  · rename_i h
    rw [hscaled] at h
    have hnext : 2 ^ 52 * (2 : ℚ) ^ (q + 1) = 2 ^ 53 * 2 ^ q := by rw [zpow_add_one₀ two_ne_zero]; ring
    refine ⟨by omega, hhigh.trans_le ?_, .inr (hnext ▸ h)⟩
    rw [← zpow_natCast, ← zpow_add₀ two_ne_zero]
    exact zpow_le_zpow_right₀ one_le_two hle
  · rename_i h
    rw [hscaled, not_le] at h
    refine ⟨by omega, h, ?_⟩
    by_cases hmin : q = -1074
    · exact .inl hmin
    · refine .inr (le_of_lt ?_)
      have heq : 2 ^ 52 * (2 : ℚ) ^ q = 2 ^ ((num.log2 : ℤ) - den.log2 - 1) := by
        rw [← zpow_natCast, ← zpow_add₀ two_ne_zero]
        congr 1
        omega
      rwa [heq]

/-! ## Nearest doubles -/

section
variable {m : Nat} {q p : Int} {x : ℚ}

/-- The last place of a value near `m * 2 ^ q` is that of `m * 2 ^ q`, except just below a power of two. -/
theorem LastPlace.eq_or_below (hp : LastPlace x p) (h : Magnitude m q) (hx : Within m q x) :
    p = q ∨ p = q - 1 ∧ m = 2 ^ 52 := by
  have hu := two_zpow_pos q
  have hlow := hp.low
  have hfits := h.fits
  have hnext : (2 : ℚ) ^ (q + 1) = 2 ^ q * 2 := zpow_add_one₀ two_ne_zero q
  have hhalf : (2 : ℚ) ^ q = 2 ^ (q - 1) * 2 := by rw [← zpow_add_one₀ two_ne_zero, sub_add_cancel]
  rcases lt_trichotomy p q with hlt | heq | hgt
  · have hfull : 2 ^ 52 ≤ m := h.full.resolve_left (by omega)
    have hpx : x < 2 ^ 53 * 2 ^ (q - 1) :=
      hp.high.trans_le (mul_le_mul_of_nonneg_left (zpow_le_zpow_right₀ one_le_two (by omega)) (by positivity))
    have hm : m = 2 ^ 52 := by
      by_contra hne
      have hgap := gapBelow_le m q
      have := hx.low_of_le (a := 2 ^ 54 + 2) (by omega)
      push_cast at this
      linarith
    refine .inr ⟨?_, hm⟩
    by_contra hne
    have hgap := gapBelow_le m q
    have h4 := hx.low_of_le (a := 2 ^ 54 - 2) (by omega)
    have hp' : x < 2 ^ 53 * 2 ^ (q - 1 - 1) :=
      hp.high.trans_le (mul_le_mul_of_nonneg_left (zpow_le_zpow_right₀ one_le_two (by omega)) (by positivity))
    have hhalf' : (2 : ℚ) ^ (q - 1) = 2 ^ (q - 1 - 1) * 2 := by rw [← zpow_add_one₀ two_ne_zero, sub_add_cancel]
    have hpos := two_zpow_pos (q - 1 - 1)
    norm_num at h4
    linarith
  · exact .inl heq
  · have hlow := h.low
    have hfull := hp.full.resolve_left (by omega)
    have hpx : 2 ^ 52 * (2 : ℚ) ^ (q + 1) ≤ x :=
      le_trans (mul_le_mul_of_nonneg_left (zpow_le_zpow_right₀ one_le_two (by omega)) (by positivity)) hfull
    have := hx.high_of_le (b := 2 ^ 55 - 2) (by omega)
    norm_num at this
    linarith

/-- The value counted in places of width `2 ^ q` is nearest to `m`. -/
theorem Within.roundHalfEven_eq {num den : Nat} (hx : Within m q (num / den)) (hden : 0 < den) :
    roundHalfEven (num * 2 ^ (-q).toNat) (den * 2 ^ q.toNat) = m := by
  have hu := two_zpow_pos q
  have hgap := gapBelow_le m q
  have hcast : 4 * (m : ℚ) - 2 ≤ ((4 * m - gapBelow m q : Nat) : ℚ) := by
    have : 4 * m ≤ (4 * m - gapBelow m q) + 2 := by omega
    have : 4 * (m : ℚ) ≤ ((4 * m - gapBelow m q : Nat) : ℚ) + 2 := by exact_mod_cast this
    linarith
  have hhigh : ((4 * m + 2 : Nat) : ℚ) = 4 * m + 2 := by push_cast; rfl
  have hplaces : (num / den : ℚ) = num / den / 2 ^ q * 2 ^ q := (div_mul_cancel₀ _ hu.ne').symm
  refine roundHalfEven_of_near (by positivity) (scaled_div num den q) ?_ ?_ fun ho => ⟨?_, ?_⟩
  · have h := hx.low
    rw [hplaces, ← mul_assoc] at h
    have := le_of_mul_le_mul_right h hu
    linarith
  · have h := hx.high
    rw [hplaces, ← mul_assoc, hhigh] at h
    have := le_of_mul_le_mul_right h hu
    linarith
  · have h := (hx.odd ho).1
    rw [hplaces, ← mul_assoc] at h
    have := lt_of_mul_lt_mul_right h hu.le
    linarith
  · have h := (hx.odd ho).2
    rw [hplaces, ← mul_assoc, hhigh] at h
    have := lt_of_mul_lt_mul_right h hu.le
    linarith

/-- Just below a power of two the places are half as wide, and the count of them rounds up to the next power. -/
theorem Within.roundHalfEven_below {num den : Nat} (hx : Within (2 ^ 52) q (num / den)) (hden : 0 < den) (hq : -1074 < q)
    (hp : (num / den : ℚ) < 2 ^ 53 * 2 ^ (q - 1)) :
    roundHalfEven (num * 2 ^ (-(q - 1)).toNat) (den * 2 ^ (q - 1).toNat) = 2 ^ 53 := by
  have hu := two_zpow_pos (q - 1)
  have hhalf : (2 : ℚ) ^ q = 2 * 2 ^ (q - 1) := by rw [mul_comm, ← zpow_add_one₀ two_ne_zero, sub_add_cancel]
  have hplaces : (num / den : ℚ) = num / den / 2 ^ (q - 1) * 2 ^ (q - 1) := (div_mul_cancel₀ _ hu.ne').symm
  have hgap : gapBelow (2 ^ 52) q = 1 := if_pos ⟨rfl, hq⟩
  have hlow := hx.low
  rw [hgap, hplaces, hhalf, ← mul_assoc, ← mul_assoc] at hlow
  have hlow := le_of_mul_le_mul_right hlow hu
  rw [hplaces] at hp
  have hhigh := lt_of_mul_lt_mul_right hp hu.le
  norm_num at hlow hhigh
  have heven : ¬ 2 ^ 53 % 2 = 1 := by decide
  refine roundHalfEven_of_near (by positivity) (scaled_div num den (q - 1)) ?_ ?_ fun ho => absurd ho heven
  · push_cast
    linarith
  · push_cast
    linarith

theorem nearestBits_of_within {num den : Nat} (hden : 0 < den) (h : Magnitude m q) (hx : Within m q (num / den)) :
    nearestBits num den = magnitudeBits m q := by
  rcases Nat.eq_zero_or_pos num with rfl | hnum
  · have hm : m = 0 := by
      by_contra hne
      have hgap := gapBelow_le m q
      have hlow := hx.low_of_le (a := 1) (by omega)
      have hu := two_zpow_pos q
      rw [Nat.cast_zero, zero_div] at hlow
      push_cast at hlow
      linarith
    have hq : q = -1074 := h.full.resolve_right (by omega)
    rw [hm, hq]
    rfl
  · have hp := lastPlace_spec hnum hden
    have hlt := h.magnitudeBits_lt
    unfold nearestBits
    simp only [Nat.pow_eq, if_neg (Nat.ne_of_gt hnum)]
    rcases hp.eq_or_below h hx with heq | ⟨heq, rfl⟩
    · rw [heq, hx.roundHalfEven_eq hden]
      exact Nat.min_eq_left hlt.le
    · have hhigh := hp.high
      have hlow := hp.low
      rw [heq] at hhigh hlow ⊢
      rw [hx.roundHalfEven_below hden (by omega) hhigh]
      have hcarry : (q - 1 + 1074).toNat * 2 ^ 52 + 2 ^ 53 = magnitudeBits (2 ^ 52) q := by
        unfold magnitudeBits
        omega
      rw [hcarry]
      exact Nat.min_eq_left hlt.le

end

end Lox.Number
