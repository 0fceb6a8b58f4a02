import Lox.Number.Shortest

/-!
# Texts of numbers

A number is written in four forms: as a value, in the prefix form of a literal, in the listing of
a token, and as JSON. The first three never use an exponent. All of them write a number with a
fraction by its shortest decimal; they differ in how whole numbers look.
-/

namespace Lox.Number

def digitsOf (n : Nat) : List Char := Nat.toDigits 10 n

def sign (negative : Bool) : List Char := if negative then ['-'] else []

/-- `m * 2 ^ q` has no fraction. -/
def isWhole (m : Nat) (q : Int) : Bool := m % Nat.pow 2 (-q).toNat = 0

/-- The whole part of `m * 2 ^ q`. -/
def wholePart (m : Nat) (q : Int) : Nat := m * Nat.pow 2 q.toNat / Nat.pow 2 (-q).toNat

/-- A decimal without an exponent, filled up with zeros on either side of its digits. -/
def positional (d : Decimal) : List Char :=
  let ds := digitsOf d.digits
  let places := (-d.exponent).toNat
  if places = 0 then ds ++ List.replicate d.exponent.toNat '0'
  else if places < ds.length then
    ds.take (ds.length - places) ++ '.' :: ds.drop (ds.length - places)
  else '0' :: '.' :: List.replicate (places - ds.length) '0' ++ ds

/-- The forms without an exponent. -/
structure Form where
  /-- What follows the digits of a whole number. -/
  wholeEnd : List Char
  /-- Whole numbers from here on are written by their shortest decimal, with no end. -/
  wholeLimit : Option Nat
  /-- Negative zero shows its sign. -/
  signsZero : Bool

/-- As a value: every digit of a whole number. -/
def Form.value : Form := { wholeEnd := [], wholeLimit := none, signsZero := true }

/-- As a literal in prefix form: a whole number ends in `.0`. -/
def Form.literal : Form := { wholeEnd := ['.', '0'], wholeLimit := none, signsZero := true }

/-- In the listing of a token: a whole number ends in `.0` as long as it fits a word of 64 bits. -/
def Form.token : Form := { wholeEnd := ['.', '0'], wholeLimit := some (Nat.pow 2 63), signsZero := false }

def Form.isShortWhole (form : Form) (m : Nat) (q : Int) : Bool :=
  isWhole m q && form.wholeLimit.all (wholePart m q < ·)

/-- A value midway between two shortest decimals is written by the upper one. -/
def Form.chars (form : Form) (x : Float) : List Char :=
  match read x with
  | .nan => ['N', 'a', 'N']
  | .infinite negative => sign negative ++ ['i', 'n', 'f']
  | .finite negative m q =>
    if form.isShortWhole m q then
      sign (negative && (form.signsZero || m ≠ 0)) ++ digitsOf (wholePart m q) ++ form.wholeEnd
    else sign negative ++ positional (shortest .up m q)

def Form.text (form : Form) (x : Float) : String := String.ofList (form.chars x)

/-- The digits with a point after the first, then the power of ten that belongs to that point. -/
def scientific (d : Decimal) : List Char :=
  let ds := digitsOf d.digits
  let exponent := d.exponent + ds.length - 1
  let fraction := if ds.length = 1 then [] else '.' :: ds.drop 1
  ds.take 1 ++ fraction ++ 'e' :: (if exponent < 0 then '-' else '+') :: digitsOf exponent.natAbs

/-- The decimal as JSON: positional where the first digit stands for `10 ^ -5` to `10 ^ 15`. -/
def jsonDecimal (d : Decimal) : List Char :=
  let exponent := d.exponent + (digitsOf d.digits).length - 1
  if -5 ≤ exponent ∧ exponent ≤ 15 then
    positional d ++ (if 0 ≤ d.exponent then ['.', '0'] else [])
  else scientific d

/-- JSON has no infinities; a midway value goes to the even digit. -/
def json (x : Float) : String :=
  match read x with
  | .nan => "null"
  | .infinite _ => "null"
  | .finite negative m q =>
    String.ofList (sign negative ++ if m = 0 then ['0', '.', '0'] else jsonDecimal (shortest .even m q))

end Lox.Number
