import Lox.Number.Binary

/-!
# Shortest decimals

The shortest decimal of a positive double is the one on the coarsest grid of multiples of a power
of ten that has a point which rounds to this double. Of two such points on one grid the nearer is
taken. All comparisons are between natural numbers.
-/

namespace Lox.Number

/-- The value `digits * 10 ^ exponent`. -/
structure Decimal where
  digits : Nat
  exponent : Int
deriving DecidableEq, Repr

/-- Which of two neighbours a point midway between them goes to. -/
inductive Tie where
  | up
  | even
deriving DecidableEq, Repr

def Tie.choose (tie : Tie) (d : Nat) : Nat :=
  match tie with
  | .up => d + 1
  | .even => if d % 2 = 0 then d else d + 1

/-- A quarter of the last place of a double with exponent `q`, in the units of `gridStep`. -/
def quarterPlace (q e : Int) : Nat := Nat.pow 2 q.toNat * Nat.pow 10 (-e).toNat

/-- The distance between neighbours of the grid `10 ^ e`, in the units of `quarterPlace`. -/
def gridStep (q e : Int) : Nat := 4 * (Nat.pow 2 (-q).toNat * Nat.pow 10 e.toNat)

/-- How many quarters of the last place lie between a double and the lower end of the interval that
rounds to it: half a place, but a quarter where the doubles below are twice as dense. -/
def gapBelow (m : Nat) (q : Int) : Nat := if m = Nat.pow 2 52 ∧ -1074 < q then 1 else 2

/-- The `d`-th point of the grid `10 ^ e` rounds to `m * 2 ^ q`. The ends of the interval belong to
it when `m` is even. -/
def roundsTo (m : Nat) (q : Int) (d : Nat) (e : Int) : Bool :=
  let low := (4 * m - gapBelow m q) * quarterPlace q e
  let high := (4 * m + 2) * quarterPlace q e
  let point := d * gridStep q e
  if m % 2 = 0 then low ≤ point && point ≤ high else low < point && point < high

/-- The point of the grid `10 ^ e` that stands for `m * 2 ^ q`, if one of the two neighbours does. -/
def onGrid? (tie : Tie) (m : Nat) (q e : Int) : Option Nat :=
  let value := 4 * m * quarterPlace q e
  let step := gridStep q e
  let d := value / step
  match roundsTo m q d e, roundsTo m q (d + 1) e with
  | true, false => some d
  | false, true => some (d + 1)
  | false, false => none
  | true, true =>
    if 2 * value < (2 * d + 1) * step then some d
    else if (2 * d + 1) * step < 2 * value then some (d + 1)
    else some (tie.choose d)

/-- Every digit of `m * 2 ^ q`. -/
def exactDecimal (m : Nat) (q : Int) : Decimal :=
  { digits := m * Nat.pow 2 q.toNat * Nat.pow 5 (-q).toNat, exponent := min q 0 }

/-- Tries the grids `10 ^ e`, `10 ^ (e - 1)`, … in turn. -/
def searchGrids (tie : Tie) (m : Nat) (q : Int) : (grids : Nat) → (e : Int) → Decimal
  | 0, _ => exactDecimal m q
  | grids + 1, e =>
    match onGrid? tie m q e with
    | some d => { digits := d, exponent := e }
    | none => searchGrids tie m q grids (e - 1)

/-- No point of a coarser grid comes near `m * 2 ^ q`: `0.30103` is slightly more than the decimal
logarithm of two. -/
def coarsestGrid (m : Nat) (q : Int) : Int := ((m.log2 : Int) + 1 + q) * 30103 / 100000 + 1

/-- The search ends at the grid that holds `m * 2 ^ q` itself. -/
def shortest (tie : Tie) (m : Nat) (q : Int) : Decimal :=
  let e := coarsestGrid m q
  searchGrids tie m q (e - min q 0).toNat e

end Lox.Number
