import Lox.Token

/-!
# Pieces of a source text

A source text is cut into pieces without gaps: blanks, comments, tokens, characters that belong
nowhere, and a string that the end of the text leaves open. Each piece takes the longest text of
its kind. The pieces' texts put together are the source again, and no piece is empty.
-/

namespace Lox

/-- What a piece of source text is. -/
inductive Piece.Shape where
  | blank
  | comment
  | token (kind : Token.Kind)
  | unexpected (c : Char)
  | unterminated
deriving DecidableEq

structure Piece where
  text : List Char
  shape : Piece.Shape
deriving DecidableEq

namespace Piece

def isBlank (c : Char) : Bool := c = ' ' || c = '\t' || c = '\r' || c = '\n'

/-- ASCII letters and the underscore. -/
def startsWord (c : Char) : Bool := c.isAlpha || c = '_'

def continuesWord (c : Char) : Bool := c.isAlphanum || c = '_'

/-- A word is a keyword or a name. -/
def wordKind (word : String) : Token.Kind :=
  match Keyword.ofText? word with
  | some k => .keyword k
  | none => .identifier word

def digitsValue (ds : List Char) : Nat := ds.foldl (fun n d => 10 * n + (d.toNat - 48)) 0

/-- The digits before and after the point, if there is a point with a digit after it, and the rest. -/
def splitNumber (cs : List Char) : List Char × List Char × List Char :=
  let whole := cs.takeWhile Char.isDigit
  match cs.dropWhile Char.isDigit with
  | '.' :: d :: rest =>
    if d.isDigit then (whole, (d :: rest).takeWhile Char.isDigit, (d :: rest).dropWhile Char.isDigit)
    else (whole, [], '.' :: d :: rest)
  | rest => (whole, [], rest)

/-- The text of a number with the given digits before and after the point. -/
def numberText (whole fraction : List Char) : List Char :=
  if fraction.isEmpty then whole else whole ++ '.' :: fraction

def numberValue (whole fraction : List Char) : Float :=
  Number.ofDecimal (digitsValue (whole ++ fraction)) fraction.length

def cutNumber (cs : List Char) : Piece × List Char :=
  let (whole, fraction, rest) := splitNumber cs
  let text := numberText whole fraction
  ({ text, shape := .token (.number (String.ofList text) (numberValue whole fraction)) }, rest)

def cutWord (cs : List Char) : Piece × List Char :=
  let text := cs.takeWhile continuesWord
  ({ text, shape := .token (wordKind (String.ofList text)) }, cs.dropWhile continuesWord)

/-- Cuts at the next quote; `cs` is what follows the opening one. -/
def cutString (cs : List Char) : Piece × List Char :=
  let content := cs.takeWhile (· ≠ '"')
  match cs.dropWhile (· ≠ '"') with
  | [] => ({ text := '"' :: content, shape := .unterminated }, [])
  | quote :: rest =>
    ({ text := '"' :: content ++ [quote], shape := .token (.string (String.ofList content)) }, rest)

/-- Cuts before the next line end. -/
def cutComment (cs : List Char) : Piece × List Char :=
  ({ text := cs.takeWhile (· ≠ '\n'), shape := .comment }, cs.dropWhile (· ≠ '\n'))

def cutSingle (c : Char) (cs : List Char) : Piece × List Char :=
  match Mark.single? c with
  | some m => ({ text := [c], shape := .token (.mark m) }, cs)
  | none => ({ text := [c], shape := .unexpected c }, cs)

/-- A mark of two characters goes before one of a single character. -/
def cutMark (c : Char) (cs : List Char) : Piece × List Char :=
  match cs with
  | [] => cutSingle c []
  | d :: rest =>
    match Mark.pair? c d with
    | some m => ({ text := [c, d], shape := .token (.mark m) }, rest)
    | none => cutSingle c (d :: rest)

/-- The first piece of `c :: cs`, and what follows it. -/
def cut (c : Char) (cs : List Char) : Piece × List Char :=
  if isBlank c then ({ text := [c], shape := .blank }, cs)
  else if c = '/' ∧ cs.head? = some '/' then cutComment (c :: cs)
  else if c = '"' then cutString cs
  else if c.isDigit then cutNumber (c :: cs)
  else if startsWord c then cutWord (c :: cs)
  else cutMark c cs

/-- At most `limit` pieces. -/
def cutWithin : (limit : Nat) → List Char → List Piece
  | _, [] => []
  | 0, _ :: _ => []
  | limit + 1, c :: cs => (cut c cs).1 :: cutWithin limit (cut c cs).2

/-- A text has no more pieces than characters. -/
def ofChars (cs : List Char) : List Piece := cutWithin cs.length cs

/-! ## Nothing is lost -/

theorem splitNumber_eq (cs : List Char) :
    numberText (splitNumber cs).1 (splitNumber cs).2.1 ++ (splitNumber cs).2.2 = cs := by
  have h := List.takeWhile_append_dropWhile (p := Char.isDigit) (l := cs)
  unfold splitNumber
  split
  · rename_i d rest heq
    split
    · rename_i hd
      rw [heq] at h
      simpa [numberText, hd, List.takeWhile_cons] using h
    · rw [heq] at h
      simpa [numberText] using h
  · simp [numberText]

theorem cutSingle_append (c : Char) (cs : List Char) : (cutSingle c cs).1.text ++ (cutSingle c cs).2 = c :: cs := by
  unfold cutSingle; split <;> rfl

theorem cutMark_append (c : Char) (cs : List Char) : (cutMark c cs).1.text ++ (cutMark c cs).2 = c :: cs := by
  unfold cutMark
  split
  · exact cutSingle_append ..
  · split
    · rfl
    · exact cutSingle_append ..

theorem cutString_append (cs : List Char) : (cutString cs).1.text ++ (cutString cs).2 = '"' :: cs := by
  have h := List.takeWhile_append_dropWhile (p := fun c => decide (c ≠ '"')) (l := cs)
  unfold cutString
  split <;> rename_i heq <;> rw [heq] at h <;> simpa using h

theorem cut_append (c : Char) (cs : List Char) : (cut c cs).1.text ++ (cut c cs).2 = c :: cs := by
  unfold cut
  split; · rfl
  split; · exact List.takeWhile_append_dropWhile
  split; · rename_i h; rw [h]; exact cutString_append cs
  split; · exact splitNumber_eq (c :: cs)
  split; · exact List.takeWhile_append_dropWhile
  exact cutMark_append c cs

theorem splitNumber_whole (cs : List Char) : (splitNumber cs).1 = cs.takeWhile Char.isDigit := by
  unfold splitNumber
  split
  · split <;> rfl
  · rfl

theorem numberText_ne_nil {whole : List Char} (fraction : List Char) (h : whole ≠ []) :
    numberText whole fraction ≠ [] := by
  unfold numberText
  split <;> simp [h]

theorem continuesWord_of_startsWord {c : Char} (h : startsWord c = true) : continuesWord c = true := by
  simp only [startsWord, continuesWord, Char.isAlphanum, Bool.or_eq_true] at h ⊢
  exact h.imp Or.inl id

theorem cutSingle_text_ne_nil (c : Char) (cs : List Char) : (cutSingle c cs).1.text ≠ [] := by
  unfold cutSingle; split <;> simp

theorem cut_text_ne_nil (c : Char) (cs : List Char) : (cut c cs).1.text ≠ [] := by
  unfold cut
  split; · simp
  split
  · rename_i h
    simp [cutComment, h.1]
  split; · unfold cutString; split <;> simp
  split
  · rename_i hd
    have h : (splitNumber (c :: cs)).1 ≠ [] := by rw [splitNumber_whole]; simp [hd]
    exact numberText_ne_nil _ h
  split
  · rename_i hw
    simp [cutWord, continuesWord_of_startsWord hw]
  unfold cutMark
  split
  · exact cutSingle_text_ne_nil c []
  · split
    · simp
    · exact cutSingle_text_ne_nil c _

theorem cut_length_le (c : Char) (cs : List Char) : (cut c cs).2.length ≤ cs.length := by
  have h := congrArg List.length (cut_append c cs)
  have := List.length_pos_iff.2 (cut_text_ne_nil c cs)
  simp only [List.length_append, List.length_cons] at h
  omega

theorem cutWithin_eq : ∀ (m n : Nat) (cs : List Char), cs.length ≤ m → cs.length ≤ n →
    cutWithin m cs = cutWithin n cs
  | _, _, [], _, _ => by simp [cutWithin]
  | 0, _, _ :: _, hm, _ => by simp at hm
  | _, 0, _ :: _, _, hn => by simp at hn
  | m + 1, n + 1, c :: cs, hm, hn => by
    have h := cut_length_le c cs
    simp only [List.length_cons] at hm hn
    simp only [cutWithin]
    rw [cutWithin_eq m n _ (by omega) (by omega)]

@[simp] theorem ofChars_nil : ofChars [] = [] := rfl

theorem ofChars_cons (c : Char) (cs : List Char) : ofChars (c :: cs) = (cut c cs).1 :: ofChars (cut c cs).2 := by
  have h := cut_length_le c cs
  simp only [ofChars, cutWithin, List.length_cons]
  rw [cutWithin_eq _ _ _ (by omega) (Nat.le_refl _)]

/-- The pieces tile the source. -/
theorem flatMap_text_ofChars : ∀ cs : List Char, (ofChars cs).flatMap text = cs
  | [] => rfl
  | c :: cs => by
    have h := cut_length_le c cs
    rw [ofChars_cons, List.flatMap_cons, flatMap_text_ofChars, cut_append]
termination_by cs => cs.length
decreasing_by simp only [List.length_cons]; omega

end Piece

end Lox
