import Mathlib
import Lox.Number.Binary

/-!
# Bit patterns of doubles

A finite double is read as `m * 2 ^ q` in one way only, and its bit pattern is told by what is read. A double is known by its
pattern, and its negative has the pattern with the other sign.
-/

namespace Lox.Number

/-- The `m * 2 ^ q` that are the magnitudes of doubles, as they are read. -/
structure Magnitude (m : Nat) (q : Int) : Prop where
  low : -1074 ≤ q
  high : q ≤ 971
  fits : m < 2 ^ 53
  full : q = -1074 ∨ 2 ^ 52 ≤ m

theorem signBits_false : signBits false = 0 := rfl

theorem signBits_true : signBits true = 2 ^ 63 := rfl

/-- The bit pattern of a magnitude. -/
def magnitudeBits (m : Nat) (q : Int) : Nat := (q + 1074).toNat * 2 ^ 52 + m

theorem Magnitude.magnitudeBits_lt {m : Nat} {q : Int} (h : Magnitude m q) : magnitudeBits m q < infinityBits := by
  obtain ⟨hlow, hhigh, hfits, -⟩ := h
  simp only [magnitudeBits, infinityBits, Nat.pow_eq]
  omega

theorem readBits_finite {bits m : Nat} {q : Int} {negative : Bool} (hb : bits < 2 ^ 64)
    (h : readBits bits = .finite negative m q) : Magnitude m q ∧ bits = signBits negative + magnitudeBits m q := by
  simp only [readBits, Nat.pow_eq] at h
  have hsign : ∀ s, decide (bits / 2 ^ 63 % 2 = 1) = s → signBits s = bits / 2 ^ 63 * 2 ^ 63 := by
    rintro s rfl
    simp only [signBits, Nat.pow_eq, decide_eq_true_eq]
    split <;> omega
  split at h
  · split at h <;> cases h
  · rename_i hexp
    split at h
    · injection h with hs hm hq
      have hsign := hsign _ hs
      subst hm hq
      refine ⟨⟨by omega, by omega, by omega, .inl rfl⟩, ?_⟩
      rw [hsign, magnitudeBits]
      omega
    · injection h with hs hm hq
      have hsign := hsign _ hs
      subst hm hq
      refine ⟨⟨by omega, by omega, by omega, .inr (by omega)⟩, ?_⟩
      rw [hsign, magnitudeBits]
      omega

theorem readBits_magnitude {m : Nat} {q : Int} (h : Magnitude m q) (negative : Bool) :
    readBits (signBits negative + magnitudeBits m q) = .finite negative m q := by
  obtain ⟨hlow, hhigh, hfits, hfull⟩ := h
  have hsign : signBits negative / 2 ^ 63 = negative.toNat ∧ signBits negative % 2 ^ 63 = 0 := by cases negative <;> decide
  obtain ⟨hs, hs'⟩ := hsign
  have hbool : decide (negative.toNat % 2 = 1) = negative := by cases negative <;> rfl
  generalize signBits negative = s at hs hs'
  have hsame : decide ((s + magnitudeBits m q) / 2 ^ 63 % 2 = 1) = negative := by
    rw [← hbool]
    congr 2
    unfold magnitudeBits
    omega
  simp only [readBits, Nat.pow_eq, hsame]
  unfold magnitudeBits
  rw [if_neg (by omega)]
  split
  · congr 1 <;> omega
  · congr 1 <;> omega

theorem read_finite {x : Float} {m : Nat} {q : Int} {negative : Bool} (h : read x = .finite negative m q) :
    Magnitude m q ∧ x.toBits.toNat = signBits negative + magnitudeBits m q :=
  readBits_finite x.toBits.toNat_lt h

/-! ## Packing -/

section
open Float.Model (Format UnpackedFloat)
open Float.Model.UnpackedFloat

/-- The same number with the given sign. -/
def withSign (s : Sign) : UnpackedFloat → UnpackedFloat
  | .infinity _ => .infinity s
  | .notANumber => .notANumber
  | .zero _ => .zero s
  | .finite _ m e h => .finite s m e h

theorem toNat_packComponents (s : Sign) (e : BitVec 11) (m : BitVec 52) :
    (packComponents Format.binary64 s e m).toNat = s.toBitVec.toNat * 2 ^ 63 + e.toNat * 2 ^ 52 + m.toNat := by
  have he := e.isLt
  have hm := m.isLt
  change (s.toBitVec ++ e ++ m : BitVec 64).toNat = _
  rw [BitVec.toNat_append, BitVec.toNat_append, Nat.shiftLeft_eq, Nat.shiftLeft_eq, ← Nat.mul_comm (2 ^ 52),
    ← Nat.two_pow_add_eq_or_of_lt hm, ← Nat.mul_comm (2 ^ 11), ← Nat.two_pow_add_eq_or_of_lt he]
  omega

variable (b : BitVec 64)

theorem toNat_unpackMantissa : (@unpackMantissa Format.binary64 b).toNat = b.toNat % 2 ^ 52 := by
  simp [unpackMantissa]

theorem toNat_unpackExponent : (@unpackExponent Format.binary64 b).toNat = b.toNat / 2 ^ 52 % 2 ^ 11 := by
  simp [unpackExponent, Nat.shiftRight_eq_div_pow]

theorem withSign_self : withSign (Sign.ofBitVec (@unpackSign Format.binary64 b)) (unpack Format.binary64 b) =
    unpack Format.binary64 b := by
  unfold unpack
  extract_lets
  split
  · split <;> rfl
  · split
    · split <;> rfl
    · rfl

theorem neg_withSign (s : Sign) (x : UnpackedFloat) : (withSign s x).neg = withSign (-s) x := by
  cases x <;> rfl

theorem neg_eq_withSign : (unpack Format.binary64 b).neg =
    withSign (-Sign.ofBitVec (@unpackSign Format.binary64 b)) (unpack Format.binary64 b) := by
  rw [← neg_withSign, withSign_self]

theorem pack_subnormal (s : Sign) (m : BitVec 52) (h : 0 < m.toNat) :
    pack Format.binary64 (.finite s m.toNat (-1074) h) = packComponents Format.binary64 s 0#11 m := by
  have hlog : m.toNat.log2 < 52 := (Nat.log2_lt (Nat.ne_of_gt h)).mpr m.isLt
  have hexp : ¬ 2 ^ 11 ≤ ((-1074 : Int) + Format.binary64.exponentBias + (52 : Nat)).toNat + 1 := by decide
  have hbits : ¬ m.toNat.log2 + 1 = Format.binary64.mantissaBits := fun h53 => by
    change m.toNat.log2 + 1 = 53 at h53
    omega
  simp only [pack, if_neg hexp, if_neg hbits, BitVec.ofNat_toNat, BitVec.setWidth_eq]

theorem pack_normal (s : Sign) (e : BitVec 11) (m : BitVec 52) (he : e.toNat < 2047) (h : 0 < (1#1 ++ m).toNat) :
    pack Format.binary64 (.finite s (1#1 ++ m).toNat ((e.toNat : Int) - 1075) h) = packComponents Format.binary64 s e m := by
  have hm := m.isLt
  have hval : (1#1 ++ m).toNat = 2 ^ 52 + m.toNat := by
    rw [BitVec.toNat_append, Nat.shiftLeft_eq, ← Nat.mul_comm (2 ^ 52), ← Nat.two_pow_add_eq_or_of_lt hm]
    rfl
  have hlog : (1#1 ++ m).toNat.log2 + 1 = Format.binary64.mantissaBits := by
    change (1#1 ++ m).toNat.log2 + 1 = 53
    have hlt : (1#1 ++ m).toNat.log2 < 53 := (Nat.log2_lt (Nat.ne_of_gt h)).mpr (by omega)
    have hge : 52 ≤ (1#1 ++ m).toNat.log2 := (Nat.le_log2 (Nat.ne_of_gt h)).mpr (by omega)
    omega
  have hbias : ((e.toNat : Int) - 1075 + Format.binary64.exponentBias + (52 : Nat)).toNat = e.toNat := by
    change ((e.toNat : Int) - 1075 + 1023 + 52).toNat = e.toNat
    omega
  have hexp : ¬ 2 ^ 11 ≤ e.toNat + 1 := by omega
  have hmantissa : BitVec.ofNat 52 (1#1 ++ m).toNat = m := by
    apply BitVec.eq_of_toNat_eq
    rw [BitVec.toNat_ofNat, hval]
    omega
  simp only [pack, hbias, if_neg hexp, if_pos hlog, hmantissa, BitVec.ofNat_toNat, BitVec.setWidth_eq]

theorem pack_withSign (s : Sign) (h : unpack Format.binary64 b ≠ .notANumber) :
    pack Format.binary64 (withSign s (unpack Format.binary64 b)) =
      packComponents Format.binary64 s (unpackExponent b) (unpackMantissa b) := by
  simp only [unpack] at h ⊢
  split
  · rename_i he
    rw [if_pos he] at h
    split
    · rename_i hm
      rw [he, hm]
      rfl
    · rename_i hm
      exact absurd (if_neg hm) h
  · split
    · rename_i he
      rw [he]
      split
      · rename_i hm
        rw [hm]
        rfl
      · exact pack_subnormal ..
    · rename_i hmax _
      have hlt : (@unpackExponent Format.binary64 b).toNat < 2048 := (@unpackExponent Format.binary64 b).isLt
      have hne : (@unpackExponent Format.binary64 b).toNat ≠ 2047 := fun heq => hmax (BitVec.eq_of_toNat_eq heq)
      exact pack_normal s _ _ (by omega) _

theorem unpack_ne_nan (h : b.toNat / 2 ^ 52 % 2 ^ 11 ≠ 2047) : unpack Format.binary64 b ≠ .notANumber := by
  have he : @unpackExponent Format.binary64 b ≠ -1#_ := fun heq => h (by rw [← toNat_unpackExponent, heq]; rfl)
  simp only [unpack, if_neg he]
  split
  · split <;> exact nofun
  · exact nofun

/-- The sign is the first bit of the pattern. -/
theorem toNat_ofBitVec_unpackSign : (Sign.ofBitVec (@unpackSign Format.binary64 b)).toBitVec.toNat = b.toNat / 2 ^ 63 := by
  have hb := b.isLt
  have hs : (@unpackSign Format.binary64 b).toNat = b.toNat / 2 ^ 63 := by
    simp [unpackSign, Nat.shiftRight_eq_div_pow]
    omega
  unfold Sign.ofBitVec
  split
  · rename_i h
    rw [← hs, h]
    rfl
  · rename_i h
    have hne : (@unpackSign Format.binary64 b).toNat ≠ 0 := fun heq => h (BitVec.eq_of_toNat_eq heq)
    have hlt := (@unpackSign Format.binary64 b).isLt
    rw [← hs]
    change 1 = _
    omega

variable {b}

theorem toNat_pack_withSign (s : Sign) (h : b.toNat / 2 ^ 52 % 2 ^ 11 ≠ 2047) :
    (pack Format.binary64 (withSign s (unpack Format.binary64 b))).toNat = s.toBitVec.toNat * 2 ^ 63 + b.toNat % 2 ^ 63 := by
  rw [pack_withSign _ s (unpack_ne_nan _ h), toNat_packComponents, toNat_unpackExponent, toNat_unpackMantissa]
  omega

theorem pack_unpack (h : b.toNat / 2 ^ 52 % 2 ^ 11 ≠ 2047) : pack Format.binary64 (unpack Format.binary64 b) = b := by
  apply BitVec.eq_of_toNat_eq
  rw [← withSign_self, toNat_pack_withSign _ h, toNat_ofBitVec_unpackSign]
  omega

theorem toNat_toBitVec_neg (s : Sign) : (-s).toBitVec.toNat = 1 - s.toBitVec.toNat := by cases s <;> rfl

/-- The negative has the other sign. -/
theorem toNat_pack_neg (h : b.toNat / 2 ^ 52 % 2 ^ 11 ≠ 2047) :
    (pack Format.binary64 (unpack Format.binary64 b).neg).toNat = (1 - b.toNat / 2 ^ 63) * 2 ^ 63 + b.toNat % 2 ^ 63 := by
  rw [neg_eq_withSign, toNat_pack_withSign _ h, toNat_toBitVec_neg, toNat_ofBitVec_unpackSign]

end

/-! ## Doubles -/

theorem eq_of_toBits {x y : Float} (h : x.toBits.toNat = y.toBits.toNat) : x = y := by
  obtain ⟨⟨a, ha⟩⟩ := x
  obtain ⟨⟨b, hb⟩⟩ := y
  obtain rfl : a = b := UInt64.toNat_inj.mp h
  rfl

theorem toBits_ofBits {bits : Nat} (h : bits < infinityBits) : (Float.ofBits (UInt64.ofNat bits)).toBits.toNat = bits := by
  simp only [infinityBits, Nat.pow_eq] at h
  have hbits : (UInt64.ofNat bits).toBitVec.toNat = bits := by
    rw [UInt64.toNat_toBitVec, UInt64.toNat_ofNat_of_lt']
    change bits < 2 ^ 64
    omega
  have hpack := pack_unpack (b := (UInt64.ofNat bits).toBitVec) (by rw [hbits]; omega)
  exact (congrArg BitVec.toNat hpack).trans hbits

/-- Without a sign; infinity counts too. -/
def Unsigned (x : Float) : Prop := (∃ m q, read x = .finite false m q) ∨ read x = .infinite false

theorem unsigned_ofRatio (num den : Nat) : Unsigned (ofRatio false num den) := by
  have hle : nearestBits num den ≤ infinityBits := by
    unfold nearestBits
    split
    · exact Nat.zero_le _
    · exact Nat.min_le_right ..
  rw [ofRatio, signBits_false, Nat.zero_add]
  rcases Nat.lt_or_eq_of_le hle with hlt | heq
  · left
    rw [read, toBits_ofBits hlt]
    simp only [infinityBits, Nat.pow_eq] at hlt
    have hsign : decide (nearestBits num den / 2 ^ 63 % 2 = 1) = false := decide_eq_false (by omega)
    simp only [readBits, Nat.pow_eq, hsign]
    rw [if_neg (by omega)]
    split
    · exact ⟨_, _, rfl⟩
    · exact ⟨_, _, rfl⟩
  · right
    rw [heq]
    decide +kernel

section
variable {x : Float} {m : Nat} {q : Int} {negative : Bool}

theorem finite_exponent (h : read x = .finite negative m q) : x.toBits.toNat / 2 ^ 52 % 2 ^ 11 ≠ 2047 := by
  intro he
  simp only [read, readBits, Nat.pow_eq] at h
  rw [if_pos he] at h
  split at h <;> cases h

/-- A finite double is made from its bit pattern again. -/
theorem ofBits_toBits (h : read x = .finite negative m q) : Float.ofBits x.toBits = x :=
  eq_of_toBits (congrArg BitVec.toNat (pack_unpack (finite_exponent h)))

/-- The negative of a finite double has the other sign. -/
theorem toBits_neg (h : read x = .finite negative m q) : (-x).toBits.toNat = signBits (!negative) + magnitudeBits m q := by
  obtain ⟨hm, hbits⟩ := read_finite h
  have hlt := hm.magnitudeBits_lt
  simp only [infinityBits, Nat.pow_eq] at hlt
  have hneg : (-x).toBits.toNat = (1 - x.toBits.toNat / 2 ^ 63) * 2 ^ 63 + x.toBits.toNat % 2 ^ 63 :=
    toNat_pack_neg (finite_exponent h)
  rw [hneg]
  cases negative with
  | false =>
    rw [Bool.not_false, signBits_true]
    rw [signBits_false] at hbits
    omega
  | true =>
    rw [Bool.not_true, signBits_false]
    rw [signBits_true] at hbits
    omega

theorem read_neg (h : read x = .finite negative m q) : read (-x) = .finite (!negative) m q := by
  rw [read, toBits_neg h]
  exact readBits_magnitude (read_finite h).1 _

theorem neg_neg_of_finite (h : read x = .finite negative m q) : -(-x) = x := by
  apply eq_of_toBits
  rw [toBits_neg (read_neg h), (read_finite h).2, Bool.not_not]

end

end Lox.Number
