/-!
# UTF-8 text

Octets are cut into segments: a character, a malformed piece, or the beginning of a character
that the end of the text cuts off. A malformed piece is as long as it can be while some
well-formed character starts with it, and at least one octet long. Strict decoding stops at the
first segment that is no character; forgiving decoding writes a replacement character for it.
-/

namespace Lox.Utf8

/-- What the first octet of a character promises: its share of the code point, how many octets
follow, and the range that the second octet has to keep to. -/
structure Lead where
  payload : Nat
  tails : Nat
  low : UInt8 := 0x80
  high : UInt8 := 0xBF
deriving DecidableEq, Repr

/-- The second octet is narrowed after `E0`, `ED`, `F0` and `F4`, which excludes longer spellings
than needed, surrogates, and code points past the last one. -/
def Lead.ofOctet? (b : UInt8) : Option Lead :=
  let n := b.toNat
  if n ≤ 0x7F then some { payload := n, tails := 0 }
  else if n < 0xC2 then none
  else if n ≤ 0xDF then some { payload := n - 0xC0, tails := 1 }
  else if n = 0xE0 then some { payload := 0, tails := 2, low := 0xA0 }
  else if n = 0xED then some { payload := 0xD, tails := 2, high := 0x9F }
  else if n ≤ 0xEF then some { payload := n - 0xE0, tails := 2 }
  else if n = 0xF0 then some { payload := 0, tails := 3, low := 0x90 }
  else if n = 0xF4 then some { payload := 4, tails := 3, high := 0x8F }
  else if n ≤ 0xF3 then some { payload := n - 0xF0, tails := 3 }
  else none

inductive Segment where
  | char (c : Char)
  /-- Octets that begin no character. -/
  | malformed (length : Nat)
  /-- The text ends inside a character. -/
  | cut (length : Nat)
deriving DecidableEq, Repr

/-- Reads the octets after the first one. `seen` counts the octets of this segment so far. -/
def readTails : (tails : Nat) → (low high : UInt8) → (value seen : Nat) → List UInt8 → Segment × List UInt8
  | 0, _, _, value, _, rest => (.char (Char.ofNat value), rest)
  | _ + 1, _, _, _, seen, [] => (.cut seen, [])
  | tails + 1, low, high, value, seen, b :: rest =>
    if low ≤ b ∧ b ≤ high then
      readTails tails 0x80 0xBF (value * 64 + (b.toNat - 0x80)) (seen + 1) rest
    else (.malformed seen, b :: rest)

/-- The segment that starts with the octet `b`, and what follows it. -/
def readSegment (b : UInt8) (rest : List UInt8) : Segment × List UInt8 :=
  match Lead.ofOctet? b with
  | none => (.malformed 1, rest)
  | some lead => readTails lead.tails lead.low lead.high lead.payload 1 rest

theorem readTails_length_le : ∀ (tails : Nat) (low high : UInt8) (value seen : Nat) (bs : List UInt8),
    (readTails tails low high value seen bs).2.length ≤ bs.length
  | 0, _, _, _, _, _ => Nat.le_refl _
  | _ + 1, _, _, _, _, [] => Nat.le_refl _
  | tails + 1, low, high, value, seen, b :: rest => by
    simp only [readTails]
    split
    · exact Nat.le_succ_of_le (readTails_length_le ..)
    · exact Nat.le_refl _

theorem readSegment_length_le (b : UInt8) (rest : List UInt8) : (readSegment b rest).2.length ≤ rest.length := by
  unfold readSegment
  split
  · exact Nat.le_refl _
  · exact readTails_length_le ..

/-- At most `limit` segments. -/
def segmentsWithin : (limit : Nat) → List UInt8 → List Segment
  | _, [] => []
  | 0, _ :: _ => []
  | limit + 1, b :: rest => (readSegment b rest).1 :: segmentsWithin limit (readSegment b rest).2

/-- No text has more segments than octets. -/
def segments (bs : List UInt8) : List Segment := segmentsWithin bs.length bs

theorem segmentsWithin_eq : ∀ (m n : Nat) (bs : List UInt8), bs.length ≤ m → bs.length ≤ n →
    segmentsWithin m bs = segmentsWithin n bs
  | _, _, [], _, _ => by simp [segmentsWithin]
  | 0, _, _ :: _, hm, _ => by simp at hm
  | _, 0, _ :: _, _, hn => by simp at hn
  | m + 1, n + 1, b :: rest, hm, hn => by
    have h := readSegment_length_le b rest
    simp only [List.length_cons] at hm hn
    simp only [segmentsWithin]
    rw [segmentsWithin_eq m n _ (by omega) (by omega)]

@[simp] theorem segments_nil : segments [] = [] := rfl

theorem segments_cons (b : UInt8) (rest : List UInt8) :
    segments (b :: rest) = (readSegment b rest).1 :: segments (readSegment b rest).2 := by
  have h := readSegment_length_le b rest
  simp only [segments, segmentsWithin, List.length_cons]
  rw [segmentsWithin_eq _ _ _ (by omega) (Nat.le_refl _)]

/-- Why octets are no text: where the first bad segment is, and how long it is. -/
inductive Fault where
  | malformed (length index : Nat)
  | cut (index : Nat)
deriving DecidableEq, Repr

def Fault.message : Fault → String
  | .malformed length index => s!"invalid utf-8 sequence of {length} bytes from index {index}"
  | .cut index => s!"incomplete utf-8 byte sequence from index {index}"

/-- The characters of segments that are all characters; `index` counts the octets before them. -/
def charsOf : (index : Nat) → List Segment → Except Fault (List Char)
  | _, [] => .ok []
  | index, .char c :: us => (charsOf (index + c.utf8Size) us).map (c :: ·)
  | index, .malformed n :: _ => .error (.malformed n index)
  | index, .cut _ :: _ => .error (.cut index)

def decode (bs : List UInt8) : Except Fault String := (charsOf 0 (segments bs)).map String.ofList

def Segment.forgiven : Segment → Char
  | .char c => c
  | .malformed _ => '\uFFFD'
  | .cut _ => '\uFFFD'

/-- Each segment that is no character becomes a replacement character. -/
def decodeForgiving (bs : List UInt8) : String := String.ofList ((segments bs).map Segment.forgiven)

/-- The octets of a text. -/
def encode (s : String) : List UInt8 := s.toUTF8.toList

end Lox.Utf8
