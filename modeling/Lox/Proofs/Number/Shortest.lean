import Lox.Proofs.Number.Rounding

/-!
# Shortest decimals round back

Whichever grid the search ends at, the decimal that it gives rounds to the double. The same holds of the double itself, written
out exactly.
-/

namespace Lox.Number

def Decimal.value (d : Decimal) : ℚ := d.digits * 10 ^ d.exponent

section
variable {m : Nat} {q : Int}

theorem gapBelow_pos (m : Nat) (q : Int) : 0 < gapBelow m q := by
  unfold gapBelow
  split <;> omega

theorem within_self (m : Nat) (q : Int) : Within m q (m * 2 ^ q) := by
  have hu := two_zpow_pos q
  have hpos := gapBelow_pos m q
  have hexact : 4 * ((m : ℚ) * 2 ^ q) = ((4 * m : Nat) : ℚ) * 2 ^ q := by push_cast; ring
  constructor
  · rw [hexact]
    exact mul_le_mul_of_nonneg_right (by exact_mod_cast Nat.sub_le ..) hu.le
  · rw [hexact]
    exact mul_le_mul_of_nonneg_right (by exact_mod_cast Nat.le_add_right ..) hu.le
  · intro ho
    rw [hexact]
    refine ⟨mul_lt_mul_of_pos_right ?_ hu, mul_lt_mul_of_pos_right ?_ hu⟩
    · exact_mod_cast Nat.sub_lt (by omega) hpos
    · exact_mod_cast Nat.lt_add_of_pos_right two_pos

/-! ## Grids -/

/-- Both units are multiples of this one. -/
def gridUnit (q e : Int) : ℚ := 2 ^ (-q).toNat * 10 ^ (-e).toNat

theorem gridUnit_pos (q e : Int) : 0 < gridUnit q e := by
  unfold gridUnit
  positivity

theorem quarterPlace_eq (q e : Int) : (quarterPlace q e : ℚ) = 2 ^ q * gridUnit q e := by
  unfold quarterPlace gridUnit
  simp only [Nat.pow_eq]
  rw [← mul_assoc, zpow_mul_pow_toNat two_ne_zero]
  push_cast
  rfl

theorem gridStep_eq (q e : Int) : (gridStep q e : ℚ) = 4 * 10 ^ e * gridUnit q e := by
  unfold gridStep gridUnit
  simp only [Nat.pow_eq]
  push_cast
  rw [← zpow_mul_pow_toNat (show (10 : ℚ) ≠ 0 by norm_num) e]
  ring

theorem within_of_roundsTo {d : Nat} {e : Int} (h : roundsTo m q d e = true) : Within m q (d * 10 ^ e) := by
  have hunit := gridUnit_pos q e
  have hpoint : ((d * gridStep q e : Nat) : ℚ) = 4 * (d * 10 ^ e) * gridUnit q e := by
    push_cast
    rw [gridStep_eq]
    ring
  have hend : ∀ n : Nat, ((n * quarterPlace q e : Nat) : ℚ) = n * 2 ^ q * gridUnit q e := by
    intro n
    push_cast
    rw [quarterPlace_eq]
    ring
  have hle : ∀ {a b : ℚ} {k l : Nat}, (k : ℚ) = a * gridUnit q e → (l : ℚ) = b * gridUnit q e → k ≤ l → a ≤ b := by
    intro a b k l hk hl hkl
    have : (k : ℚ) ≤ l := by exact_mod_cast hkl
    rw [hk, hl] at this
    exact le_of_mul_le_mul_right this hunit
  have hlt : ∀ {a b : ℚ} {k l : Nat}, (k : ℚ) = a * gridUnit q e → (l : ℚ) = b * gridUnit q e → k < l → a < b := by
    intro a b k l hk hl hkl
    have : (k : ℚ) < l := by exact_mod_cast hkl
    rw [hk, hl] at this
    exact lt_of_mul_lt_mul_right this hunit.le
  unfold roundsTo at h
  extract_lets low high point at h
  split at h
  · rename_i heven
    rw [Bool.and_eq_true, decide_eq_true_eq, decide_eq_true_eq] at h
    exact ⟨hle (hend _) hpoint h.1, hle hpoint (hend _) h.2, fun ho => by omega⟩
  · rw [Bool.and_eq_true, decide_eq_true_eq, decide_eq_true_eq] at h
    have hl := hlt (hend _) hpoint h.1
    have hh := hlt hpoint (hend _) h.2
    exact ⟨hl.le, hh.le, fun _ => ⟨hl, hh⟩⟩

theorem Tie.choose_cases (tie : Tie) (d : Nat) : tie.choose d = d ∨ tie.choose d = d + 1 := by
  cases tie with
  | up => exact .inr rfl
  | even =>
    simp only [choose]
    split
    · exact .inl rfl
    · exact .inr rfl

theorem roundsTo_of_onGrid? {tie : Tie} {e : Int} {d : Nat} (h : onGrid? tie m q e = some d) : roundsTo m q d e = true := by
  simp only [onGrid?] at h
  generalize 4 * m * quarterPlace q e / gridStep q e = below at h
  split at h
  · rename_i hlow _
    exact Option.some.inj h ▸ hlow
  · rename_i _ hhigh
    exact Option.some.inj h ▸ hhigh
  · cases h
  · rename_i hlow hhigh
    split at h
    · exact Option.some.inj h ▸ hlow
    · split at h
      · exact Option.some.inj h ▸ hhigh
      · rw [← Option.some.inj h]
        rcases tie.choose_cases below with hd | hd
        · rwa [hd]
        · rwa [hd]

/-! ## The search -/

theorem exactDecimal_value (m : Nat) (q : Int) : (exactDecimal m q).value = m * 2 ^ q := by
  have hmin : min q 0 = -((-q).toNat : ℤ) := by omega
  simp only [Decimal.value, exactDecimal, Nat.pow_eq]
  rw [hmin, zpow_neg, zpow_natCast, ← pow_toNat_div two_ne_zero q, show (10 : ℚ) = 2 * 5 by norm_num, mul_pow]
  push_cast
  field_simp

theorem searchGrids_within (tie : Tie) (m : Nat) (q : Int) :
    ∀ (grids : Nat) (e : Int), Within m q (searchGrids tie m q grids e).value
  | 0, _ => by
    rw [searchGrids, exactDecimal_value]
    exact within_self m q
  | grids + 1, e => by
    rw [searchGrids]
    split
    · rename_i d hd
      exact within_of_roundsTo (roundsTo_of_onGrid? hd)
    · exact searchGrids_within tie m q grids (e - 1)

theorem shortest_within (tie : Tie) (m : Nat) (q : Int) : Within m q (shortest tie m q).value :=
  searchGrids_within ..

end

end Lox.Number
