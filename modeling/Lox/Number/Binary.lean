/-!
# Numbers as exact binary fractions

A number is a double. `read` shows one as a sign and a magnitude `m * 2 ^ q`, and `ofRatio` gives
the double nearest to a quotient of natural numbers, a half going to the even neighbour. Between
the two all arithmetic is exact, so a decimal literal is rounded once and a remainder never.
-/

namespace Lox.Number

/-- What a double stands for. A finite one is `m * 2 ^ q` with its sign; zero keeps a sign too. -/
inductive Reading where
  | nan
  | infinite (negative : Bool)
  | finite (negative : Bool) (m : Nat) (q : Int)
deriving DecidableEq, Repr

/-- The fields of the bit pattern: one bit of sign, eleven of exponent, fifty-two of fraction. -/
def readBits (bits : Nat) : Reading :=
  let negative := decide (bits / Nat.pow 2 63 % 2 = 1)
  let exponent : Nat := bits / Nat.pow 2 52 % Nat.pow 2 11
  let fraction : Nat := bits % Nat.pow 2 52
  if exponent = 2047 then
    if fraction = 0 then .infinite negative else .nan
  else if exponent = 0 then .finite negative fraction (-1074)
  else .finite negative (Nat.pow 2 52 + fraction) ((exponent : Int) - 1075)

def read (x : Float) : Reading := readBits x.toBits.toNat

/-- The quotient rounded to the nearest natural number, a half to the even one. -/
def roundHalfEven (num den : Nat) : Nat :=
  let d := num / den
  let r := num % den
  if 2 * r > den ∨ (2 * r = den ∧ d % 2 = 1) then d + 1 else d

/-- The exponent of the last place that a double keeps of the quotient, which is positive. Below
the normal range the last place stays where it is. -/
def lastPlace (num den : Nat) : Int :=
  let q : Int := max ((num.log2 : Int) - den.log2 - 53) (-1074)
  if Nat.pow 2 53 * (den * Nat.pow 2 q.toNat) ≤ num * Nat.pow 2 (-q).toNat then q + 1 else q

def infinityBits : Nat := 2047 * Nat.pow 2 52

/-- The bit pattern of the double nearest to the quotient. A mantissa that rounds up to `2 ^ 53`
carries into the exponent, and past the largest double follows infinity. -/
def nearestBits (num den : Nat) : Nat :=
  if num = 0 then 0
  else
    let q := lastPlace num den
    let m := roundHalfEven (num * Nat.pow 2 (-q).toNat) (den * Nat.pow 2 q.toNat)
    min ((q + 1074).toNat * Nat.pow 2 52 + m) infinityBits

def signBits (negative : Bool) : Nat := if negative then Nat.pow 2 63 else 0

/-- The double nearest to the quotient, with the given sign. -/
def ofRatio (negative : Bool) (num den : Nat) : Float :=
  Float.ofBits (UInt64.ofNat (signBits negative + nearestBits num den))

/-- The double nearest to `m * 2 ^ q`. -/
def ofBinary (negative : Bool) (m : Nat) (q : Int) : Float :=
  ofRatio negative (m * Nat.pow 2 q.toNat) (Nat.pow 2 (-q).toNat)

/-- The double nearest to a decimal with `places` digits after the point. -/
def ofDecimal (digits places : Nat) : Float := ofRatio false digits (Nat.pow 10 places)

def nan : Float := Float.ofBits 0x7FF8000000000000

/-- What is left of `x` after taking away as many whole `y` as fit, with the sign of `x`. The
result is exact: both sides are whole multiples of one power of two. -/
def remainder (x y : Float) : Float :=
  match read x, read y with
  | .finite negative m p, .finite _ n r =>
    if n = 0 then nan
    else
      let q := min p r
      ofBinary negative (m * Nat.pow 2 (p - q).toNat % (n * Nat.pow 2 (r - q).toNat)) q
  | .finite .., .infinite _ => x
  | _, _ => nan

end Lox.Number
