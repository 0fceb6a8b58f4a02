import Mathlib.Data.List.TakeWhile
import Lox.Proofs.Source.Words

/-!
# Lexemes

The texts of tokens, and of those with which a text begins the longest. What a lexeme can be is told by its first character.
-/

namespace Lox

open Piece

/-- The texts that are tokens, and of which kind. -/
inductive Lexeme : List Char → Token.Kind → Prop where
  | mark (m : Mark) : Lexeme m.spelling.toList (.mark m)
  /-- From a quote to the next one. -/
  | string {content} : '"' ∉ content → Lexeme ('"' :: content ++ ['"']) (.string (String.ofList content))
  | integer {digits} : digits ≠ [] → (∀ d ∈ digits, d.isDigit = true) →
    Lexeme digits (.number (String.ofList digits) (numberValue digits []))
  | decimal {whole fraction} : whole ≠ [] → (∀ d ∈ whole, d.isDigit = true) → fraction ≠ [] →
    (∀ d ∈ fraction, d.isDigit = true) →
    Lexeme (whole ++ '.' :: fraction) (.number (String.ofList (whole ++ '.' :: fraction)) (numberValue whole fraction))
  | keyword (k : Keyword) : Lexeme k.text.toList (.keyword k)
  /-- A word that spells no keyword. -/
  | name {c cs} : startsWord c = true → (∀ d ∈ cs, continuesWord d = true) →
    (∀ k : Keyword, k.text ≠ String.ofList (c :: cs)) → Lexeme (c :: cs) (.identifier (String.ofList (c :: cs)))

/-- Of all lexemes with which the text goes on, the first part of it is the longest, and a lexeme of that kind. -/
structure Longest (text : List Char) (kind : Token.Kind) (rest : List Char) : Prop where
  lexeme : Lexeme text kind
  longest : ∀ other otherKind, Lexeme other otherKind → other <+: text ++ rest → other.length ≤ text.length

section
variable {α : Type} {p : α → Bool}

theorem length_le_takeWhile {xs ys : List α} (hx : ∀ x ∈ xs, p x = true) (h : xs <+: ys) :
    xs.length ≤ (ys.takeWhile p).length := by
  obtain ⟨zs, rfl⟩ := h
  rw [List.takeWhile_append_of_pos hx, List.length_append]
  exact Nat.le_add_right ..

theorem not_mem_takeWhile_ne (x : Char) (xs : List Char) : x ∉ xs.takeWhile (fun y => decide (y ≠ x)) := by
  intro hm
  have hne := List.mem_takeWhile_imp hm
  simp at hne

theorem takeWhile_ne_append {x : Char} {xs ys : List Char} (hx : x ∉ xs) (hy : ∀ y ∈ ys.head?, y = x) :
    (xs ++ ys).takeWhile (fun y => decide (y ≠ x)) = xs := by
  rw [List.takeWhile_append_of_pos (p := fun y => decide (y ≠ x)) fun y hm => decide_eq_true fun he => hx (he ▸ hm)]
  cases ys with
  | nil => simp
  | cons y ys => simp [hy y rfl]

/-- There is one way to split a text before the first such character. -/
theorem eq_of_split {x : Char} {xs xs' ys ys' : List Char} (hx : x ∉ xs) (hy : ∀ y ∈ ys.head?, y = x) (hx' : x ∉ xs')
    (hy' : ∀ y ∈ ys'.head?, y = x) (h : xs ++ ys = xs' ++ ys') : xs = xs' ∧ ys = ys' := by
  have heq : xs = xs' := by rw [← takeWhile_ne_append hx hy, h, takeWhile_ne_append hx' hy']
  subst heq
  exact ⟨rfl, List.append_cancel_left h⟩

end

/-! ## Marks -/

namespace Mark

theorem single?_eq_some_iff {c : Char} {m : Mark} : single? c = some m ↔ m.spelling.toList = [c] := by
  constructor
  · intro h
    unfold single? at h
    split at h <;> cases h <;> rfl
  · intro h
    cases m <;> simp [spelling] at h <;> subst h <;> rfl

theorem pair?_eq_some_iff {c d : Char} {m : Mark} : pair? c d = some m ↔ m.spelling.toList = [c, d] := by
  constructor
  · intro h
    unfold pair? at h
    split at h <;> cases h <;> rfl
  · intro h
    cases m <;> simp [spelling] at h <;> obtain ⟨rfl, rfl⟩ := h <;> rfl

theorem spelling_length (m : Mark) : m.spelling.toList.length = 1 ∨ m.spelling.toList.length = 2 := by
  cases m <;> decide

theorem spelling_ne_nil (m : Mark) : m.spelling.toList ≠ [] := by
  have hlen := m.spelling_length
  intro hnil
  rw [hnil] at hlen
  exact hlen.elim nofun nofun

/-- A mark has one character or two. -/
theorem of_spelling {m : Mark} {c : Char} {cs : List Char} (h : m.spelling.toList = c :: cs) :
    (cs = [] ∧ single? c = some m) ∨ ∃ d, cs = [d] ∧ pair? c d = some m := by
  have hlen := m.spelling_length
  rw [h] at hlen
  rcases cs with _ | ⟨d, _ | ⟨e, cs⟩⟩
  · exact .inl ⟨rfl, single?_eq_some_iff.mpr h⟩
  · exact .inr ⟨d, rfl, pair?_eq_some_iff.mpr h⟩
  · simp only [List.length_cons] at hlen
    omega

theorem of_prefix {m : Mark} {c : Char} {cs : List Char} (h : m.spelling.toList <+: c :: cs) :
    (m.spelling.toList = [c] ∧ single? c = some m) ∨
      ∃ d rest, m.spelling.toList = [c, d] ∧ cs = d :: rest ∧ pair? c d = some m := by
  cases hm : m.spelling.toList with
  | nil => exact absurd hm m.spelling_ne_nil
  | cons c' cs' =>
    rw [hm] at h
    obtain ⟨rfl, hcs⟩ := List.cons_prefix_cons.mp h
    rcases of_spelling hm with ⟨rfl, hs⟩ | ⟨d, rfl, hs⟩
    · exact .inl ⟨rfl, hs⟩
    · obtain ⟨rest, rfl⟩ := hcs
      exact .inr ⟨d, rest, rfl, rfl, hs⟩

theorem spelling_injective {m m' : Mark} (h : m.spelling.toList = m'.spelling.toList) : m = m' := by
  cases hm : m'.spelling.toList with
  | nil => exact absurd hm m'.spelling_ne_nil
  | cons c cs =>
    rw [hm] at h
    rcases of_spelling h with ⟨rfl, hs⟩ | ⟨d, rfl, hs⟩
    · exact Option.some.inj (hs.symm.trans (single?_eq_some_iff.mpr hm))
    · exact Option.some.inj (hs.symm.trans (pair?_eq_some_iff.mpr hm))

/-- No mark begins like a lexeme of another sort. -/
theorem spelling_head {m : Mark} {c : Char} {cs : List Char} (h : m.spelling.toList = c :: cs) :
    c ≠ '"' ∧ c.isDigit = false ∧ startsWord c = false ∧ isBlank c = false := by
  cases m <;> obtain ⟨rfl, -⟩ := List.cons.inj h <;> decide

end Mark

/-! ## Words -/

theorem Keyword.ofText?_eq_some_iff {word : String} {k : Keyword} : Keyword.ofText? word = some k ↔ k.text = word := by
  constructor
  · intro h
    exact beq_iff_eq.mp (List.find?_some (p := fun k : Keyword => k.text == word) h)
  · rintro rfl
    exact Keyword.ofText?_text k

/-- A letter or an underscore, and characters that continue a word. -/
def IsWord : List Char → Prop
  | [] => False
  | c :: cs => startsWord c = true ∧ ∀ d ∈ cs, continuesWord d = true

theorem Keyword.isWord (k : Keyword) : IsWord k.text.toList := by
  cases k <;> exact ⟨by decide, List.all_eq_true.mp (by decide)⟩

theorem IsWord.continues : ∀ {word : List Char}, IsWord word → ∀ d ∈ word, continuesWord d = true
  | _ :: _, h, _, .head _ => continuesWord_of_startsWord h.1
  | _ :: _, h, _, .tail _ hd => h.2 _ hd

theorem IsWord.lexeme : ∀ {word : List Char}, IsWord word → Lexeme word (wordKind (String.ofList word))
  | c :: cs, h => by
    unfold wordKind
    cases hk : Keyword.ofText? (String.ofList (c :: cs)) with
    | some k =>
      have hlexeme : Lexeme k.text.toList (.keyword k) := .keyword k
      rwa [Keyword.ofText?_eq_some_iff.mp hk, String.toList_ofList] at hlexeme
    | none =>
      refine .name h.1 h.2 fun k he => ?_
      rw [Keyword.ofText?_eq_some_iff.mpr he] at hk
      cases hk

/-! ## First characters -/

theorem ne_of_startsWord {c : Char} (h : startsWord c = true) : c ≠ '"' ∧ isBlank c = false := by
  refine ⟨?_, ?_⟩
  · rintro rfl; exact absurd h (by decide)
  · rw [← Bool.not_eq_true]
    intro hb
    simp only [isBlank, Bool.or_eq_true, decide_eq_true_eq, or_assoc] at hb
    rcases hb with rfl | rfl | rfl | rfl <;> exact absurd h (by decide)

theorem ne_of_isDigit {c : Char} (h : c.isDigit = true) : c ≠ '"' ∧ startsWord c = false ∧ isBlank c = false := by
  refine ⟨?_, ?_, ?_⟩
  · rintro rfl; exact absurd h (by decide)
  · rw [← Bool.not_eq_true]
    intro hw
    have hne : c ≠ '_' := by rintro rfl; exact absurd h (by decide)
    change (decide (c.val ≥ '0'.val) && decide (c.val ≤ '9'.val)) = true at h
    change ((decide (c.val ≥ 'A'.val ∧ c.val ≤ 'Z'.val) || (decide (c.val ≥ 'a'.val) && decide (c.val ≤ 'z'.val))) ||
      decide (c = '_')) = true at hw
    simp only [Bool.or_eq_true, Bool.and_eq_true, decide_eq_true_eq, hne, or_false, UInt32.le_iff_toNat_le, ge_iff_le] at h hw
    simp at h hw
    omega
  · rw [← Bool.not_eq_true]
    intro hb
    simp only [isBlank, Bool.or_eq_true, decide_eq_true_eq, or_assoc] at hb
    rcases hb with rfl | rfl | rfl | rfl <;> exact absurd h (by decide)

/-- The digits of a number before and after the point, if there is one. -/
structure Digits (text whole fraction : List Char) : Prop where
  text : text = numberText whole fraction
  nonempty : whole ≠ []
  whole : ∀ d ∈ whole, d.isDigit = true
  fraction : ∀ d ∈ fraction, d.isDigit = true

/-- The first character tells what a lexeme is. -/
inductive Lexeme.Form : List Char → Token.Kind → Prop where
  | string {content} : '"' ∉ content → Form ('"' :: content ++ ['"']) (.string (String.ofList content))
  | number {c cs whole fraction} : c.isDigit = true → Digits (c :: cs) whole fraction →
    Form (c :: cs) (.number (String.ofList (c :: cs)) (numberValue whole fraction))
  | word {c cs} : startsWord c = true → IsWord (c :: cs) → Form (c :: cs) (wordKind (String.ofList (c :: cs)))
  | mark {c cs m} : c ≠ '"' → c.isDigit = false → startsWord c = false → isBlank c = false →
    m.spelling.toList = c :: cs → Form (c :: cs) (.mark m)

theorem Digits.form {text whole fraction : List Char} (h : Digits text whole fraction) :
    Lexeme.Form text (.number (String.ofList text) (numberValue whole fraction)) := by
  obtain ⟨c, cs, hc⟩ := List.exists_cons_of_ne_nil h.nonempty
  have hd : c.isDigit = true := h.whole c (by simp [hc])
  have htext : ∃ ds, text = c :: ds := by
    rw [h.text, hc, numberText]
    split
    · exact ⟨_, rfl⟩
    · exact ⟨_, rfl⟩
  obtain ⟨ds, rfl⟩ := htext
  exact .number hd h

theorem Lexeme.form {text : List Char} {kind : Token.Kind} (h : Lexeme text kind) : Lexeme.Form text kind := by
  cases h with
  | mark m =>
    cases hm : m.spelling.toList with
    | nil => exact absurd hm m.spelling_ne_nil
    | cons c cs =>
      obtain ⟨hq, hd, hw, hb⟩ := Mark.spelling_head hm
      exact .mark hq hd hw hb hm
  | string hc => exact .string hc
  | integer hne hd => exact Digits.form ⟨rfl, hne, hd, nofun⟩
  | decimal hne hd hne' hd' =>
    exact Digits.form ⟨by simp [numberText, hne'], hne, hd, hd'⟩
  | keyword k =>
    have hk : wordKind (String.ofList k.text.toList) = .keyword k := by
      rw [String.ofList_toList, wordKind, Keyword.ofText?_text]
    have hword := k.isWord
    rw [← hk]
    generalize k.text.toList = word at hword
    cases word with
    | nil => exact hword.elim
    | cons c cs => exact .word hword.1 hword
  | @name c cs hc hcs hne =>
    have hk : wordKind (String.ofList (c :: cs)) = .identifier (String.ofList (c :: cs)) := by
      unfold wordKind
      cases hk : Keyword.ofText? (String.ofList (c :: cs)) with
      | some k => exact absurd (Keyword.ofText?_eq_some_iff.mp hk) (hne k)
      | none => rfl
    rw [← hk]
    exact .word hc ⟨hc, hcs⟩

/-! ## Numbers -/

theorem splitNumber_point {whole fraction : List Char} (hw : ∀ d ∈ whole, d.isDigit = true) (hne : fraction ≠ [])
    (hf : ∀ d ∈ fraction, d.isDigit = true) (more : List Char) : splitNumber (whole ++ '.' :: (fraction ++ more)) =
      (whole, fraction ++ more.takeWhile Char.isDigit, more.dropWhile Char.isDigit) := by
  have htake : (whole ++ '.' :: (fraction ++ more)).takeWhile Char.isDigit = whole := by
    rw [List.takeWhile_append_of_pos hw]
    simp
  have hdrop : (whole ++ '.' :: (fraction ++ more)).dropWhile Char.isDigit = '.' :: (fraction ++ more) := by
    rw [List.dropWhile_append_of_pos hw]
    simp
  obtain ⟨d, ds, rfl⟩ := List.exists_cons_of_ne_nil hne
  have hd : d.isDigit = true := hf d List.mem_cons_self
  unfold splitNumber
  rw [htake, hdrop]
  simp only [List.cons_append, hd, if_true]
  rw [← List.cons_append, List.takeWhile_append_of_pos hf, List.dropWhile_append_of_pos hf]
  rfl

theorem le_numberText_length (whole fraction : List Char) : whole.length ≤ (numberText whole fraction).length := by
  unfold numberText
  split
  · exact Nat.le_refl _
  · rw [List.length_append]
    exact Nat.le_add_right ..

namespace Digits

variable {text whole fraction : List Char}

theorem splitNumber_eq (h : Digits text whole fraction) : splitNumber text = (whole, fraction, []) := by
  by_cases hne : fraction = []
  · subst hne
    have htext : text = whole := h.text
    have htake : whole.takeWhile Char.isDigit = whole := List.takeWhile_eq_self_iff.mpr h.whole
    have hdrop : whole.dropWhile Char.isDigit = [] := List.dropWhile_eq_nil_iff.mpr h.whole
    rw [htext, splitNumber, htake, hdrop]
  · have htext : text = whole ++ '.' :: (fraction ++ []) := by rw [h.text, numberText]; simp [hne]
    rw [htext, splitNumber_point h.whole hne h.fraction]
    simp

/-- No number with which the text goes on is longer than the one that is cut off. -/
theorem length_le (h : Digits text whole fraction) {cs : List Char} (hp : text <+: cs) :
    text.length ≤ (numberText (splitNumber cs).1 (splitNumber cs).2.1).length := by
  obtain ⟨more, rfl⟩ := hp
  by_cases hne : fraction = []
  · subst hne
    have htext : text = whole := h.text
    refine Nat.le_trans ?_ (le_numberText_length ..)
    rw [splitNumber_whole, htext]
    exact length_le_takeWhile h.whole (List.prefix_append ..)
  · have htext : text = whole ++ '.' :: fraction := by rw [h.text, numberText]; simp [hne]
    have happend : whole ++ '.' :: fraction ++ more = whole ++ '.' :: (fraction ++ more) := by simp
    rw [htext, happend, splitNumber_point h.whole hne h.fraction, numberText]
    simp [hne]

end Digits

theorem digits_splitNumber {c : Char} {cs : List Char} (hc : c.isDigit = true) :
    Digits (numberText (splitNumber (c :: cs)).1 (splitNumber (c :: cs)).2.1) (splitNumber (c :: cs)).1
      (splitNumber (c :: cs)).2.1 where
  text := rfl
  nonempty := by rw [splitNumber_whole]; simp [hc]
  whole := by rw [splitNumber_whole]; exact fun d hd => List.mem_takeWhile_imp hd
  fraction := by
    unfold splitNumber
    split
    · split
      · exact fun d hd => List.mem_takeWhile_imp hd
      · exact nofun
    · exact nofun

theorem Digits.lexeme {text whole fraction : List Char} (h : Digits text whole fraction) :
    Lexeme text (.number (String.ofList text) (numberValue whole fraction)) := by
  by_cases hne : fraction = []
  · subst hne
    obtain rfl : text = whole := h.text
    exact .integer h.nonempty h.whole
  · obtain rfl : text = whole ++ '.' :: fraction := by rw [h.text, numberText]; simp [hne]
    exact .decimal h.nonempty h.whole hne h.fraction

/-! ## Lexemes by their first character -/

namespace Lexeme

variable {c : Char} {cs text : List Char} {kind : Token.Kind}

theorem of_quote (h : Lexeme text kind) (hp : text <+: '"' :: cs) :
    ∃ content, '"' ∉ content ∧ text = '"' :: content ++ ['"'] ∧ kind = .string (String.ofList content) := by
  have hform := h.form
  cases hform with
  | string hc => exact ⟨_, hc, rfl, rfl⟩
  | number hd => exact absurd (List.cons_prefix_cons.mp hp).1 (ne_of_isDigit hd).1
  | word hw => exact absurd (List.cons_prefix_cons.mp hp).1 (ne_of_startsWord hw).1
  | mark hq => exact absurd (List.cons_prefix_cons.mp hp).1 hq

theorem of_digit (hc : c.isDigit = true) (h : Lexeme text kind) (hp : text <+: c :: cs) :
    ∃ whole fraction, Digits text whole fraction ∧ kind = .number (String.ofList text) (numberValue whole fraction) := by
  have hform := h.form
  cases hform with
  | string => exact absurd (List.cons_prefix_cons.mp hp).1.symm (ne_of_isDigit hc).1
  | number _ hdigits => exact ⟨_, _, hdigits, rfl⟩
  | word hw => rw [(List.cons_prefix_cons.mp hp).1, (ne_of_isDigit hc).2.1] at hw; cases hw
  | mark _ hd => rw [(List.cons_prefix_cons.mp hp).1, hc] at hd; cases hd

theorem of_word (hc : startsWord c = true) (h : Lexeme text kind) (hp : text <+: c :: cs) :
    IsWord text ∧ kind = wordKind (String.ofList text) := by
  have hform := h.form
  cases hform with
  | string => exact absurd (List.cons_prefix_cons.mp hp).1.symm (ne_of_startsWord hc).1
  | number hd =>
    have hw := (ne_of_isDigit hd).2.1
    rw [(List.cons_prefix_cons.mp hp).1, hc] at hw
    cases hw
  | word _ hword => exact ⟨hword, rfl⟩
  | mark _ _ hw => rw [(List.cons_prefix_cons.mp hp).1, hc] at hw; cases hw

/-- Where no other sort of lexeme begins, all are marks. -/
theorem of_other (hq : c ≠ '"') (hd : c.isDigit = false) (hw : startsWord c = false) (h : Lexeme text kind)
    (hp : text <+: c :: cs) : ∃ m : Mark, m.spelling.toList = text ∧ kind = .mark m := by
  have hform := h.form
  cases hform with
  | string => exact absurd (List.cons_prefix_cons.mp hp).1.symm hq
  | number hd' => rw [(List.cons_prefix_cons.mp hp).1, hd] at hd'; cases hd'
  | word hw' => rw [(List.cons_prefix_cons.mp hp).1, hw] at hw'; cases hw'
  | mark _ _ _ _ hm => exact ⟨_, hm, rfl⟩

theorem ne_nil (h : Lexeme text kind) : text ≠ [] := by
  have hform := h.form
  cases hform <;> simp

/-- No lexeme begins with a blank. -/
theorem not_blank (h : Lexeme text kind) (hp : text <+: c :: cs) : isBlank c = false := by
  have hform := h.form
  cases hform with
  | string => rw [← (List.cons_prefix_cons.mp hp).1]; decide
  | number hd => rw [← (List.cons_prefix_cons.mp hp).1]; exact (ne_of_isDigit hd).2.2
  | word hw => rw [← (List.cons_prefix_cons.mp hp).1]; exact (ne_of_startsWord hw).2
  | mark _ _ _ hb => rw [← (List.cons_prefix_cons.mp hp).1]; exact hb

/-- A lexeme has one kind. -/
theorem kind_unique {kind' : Token.Kind} (h : Lexeme text kind) (h' : Lexeme text kind') : kind = kind' := by
  have hform := h.form
  cases hform with
  | @string content hc =>
    obtain ⟨content', hc', htext, rfl⟩ := h'.of_quote List.prefix_rfl
    have htext : content ++ '"' :: [] = content' ++ '"' :: [] := by simpa using htext
    rw [(eq_of_split hc (by simp) hc' (by simp) htext).1]
  | @number c cs whole fraction hd hdigits =>
    obtain ⟨whole', fraction', hdigits', rfl⟩ := h'.of_digit hd List.prefix_rfl
    have hsplit := hdigits.splitNumber_eq.symm.trans hdigits'.splitNumber_eq
    obtain ⟨rfl, rfl⟩ : whole = whole' ∧ fraction = fraction' := by simpa using hsplit
    rfl
  | word hw _ => exact (h'.of_word hw List.prefix_rfl).2.symm
  | mark hq hd hw _ hm =>
    obtain ⟨m', hm', rfl⟩ := h'.of_other hq hd hw List.prefix_rfl
    rw [Mark.spelling_injective (hm.trans hm'.symm)]

/-- A lexeme is a keyword where the whole of it is the text of one. -/
theorem keyword_iff (h : Lexeme text kind) : (∃ k, kind = .keyword k) ↔ ∃ k : Keyword, text = k.text.toList := by
  constructor
  · rintro ⟨k, rfl⟩
    cases h with
    | keyword => exact ⟨k, rfl⟩
  · rintro ⟨k, rfl⟩
    exact ⟨k, h.kind_unique (.keyword k)⟩

end Lexeme

/-! ## Longest lexemes -/

theorem Longest.unique {text text' rest rest' : List Char} {kind kind' : Token.Kind} (h : Longest text kind rest)
    (h' : Longest text' kind' rest') (heq : text ++ rest = text' ++ rest') : text = text' ∧ kind = kind' ∧ rest = rest' := by
  have hle := h.longest text' kind' h'.lexeme (by rw [heq]; exact List.prefix_append ..)
  have hge := h'.longest text kind h.lexeme (by rw [← heq]; exact List.prefix_append ..)
  obtain ⟨rfl, rfl⟩ := List.append_inj heq (Nat.le_antisymm hge hle)
  exact ⟨rfl, h.lexeme.kind_unique h'.lexeme, rfl⟩

theorem longest_string {content : List Char} (hc : '"' ∉ content) (rest : List Char) :
    Longest ('"' :: content ++ ['"']) (.string (String.ofList content)) rest := by
  refine ⟨.string hc, fun other otherKind h hp => ?_⟩
  obtain ⟨content', hc', rfl, -⟩ := h.of_quote hp
  obtain ⟨more, hmore⟩ := hp
  have heq : content' ++ '"' :: more = content ++ '"' :: rest := by simpa using hmore
  rw [(eq_of_split hc' (by simp) hc (by simp) heq).1]

theorem longest_number {c : Char} {cs : List Char} (hc : c.isDigit = true) :
    Longest (numberText (splitNumber (c :: cs)).1 (splitNumber (c :: cs)).2.1)
      (.number (String.ofList (numberText (splitNumber (c :: cs)).1 (splitNumber (c :: cs)).2.1))
        (numberValue (splitNumber (c :: cs)).1 (splitNumber (c :: cs)).2.1)) (splitNumber (c :: cs)).2.2 := by
  refine ⟨(digits_splitNumber hc).lexeme, fun other otherKind h hp => ?_⟩
  rw [splitNumber_eq] at hp
  obtain ⟨whole, fraction, hdigits, -⟩ := h.of_digit hc hp
  exact hdigits.length_le hp

theorem longest_word {c : Char} {cs : List Char} (hc : startsWord c = true) :
    Longest ((c :: cs).takeWhile continuesWord) (wordKind (String.ofList ((c :: cs).takeWhile continuesWord)))
      ((c :: cs).dropWhile continuesWord) := by
  have hword : IsWord ((c :: cs).takeWhile continuesWord) := by
    rw [List.takeWhile_cons_of_pos (continuesWord_of_startsWord hc)]
    exact ⟨hc, fun d hd => List.mem_takeWhile_imp hd⟩
  refine ⟨hword.lexeme, fun other otherKind h hp => ?_⟩
  rw [List.takeWhile_append_dropWhile] at hp
  exact length_le_takeWhile (h.of_word hc hp).1.continues hp

theorem longest_pair {c d : Char} {m : Mark} (hm : Mark.pair? c d = some m) (rest : List Char) :
    Longest [c, d] (.mark m) rest := by
  have hs := Mark.pair?_eq_some_iff.mp hm
  refine ⟨by have h := Lexeme.mark m; rwa [hs] at h, fun other otherKind h hp => ?_⟩
  obtain ⟨hq, hd, hw, -⟩ := Mark.spelling_head hs
  obtain ⟨m', rfl, -⟩ := h.of_other hq hd hw hp
  have hlen := m'.spelling_length
  simp only [List.length_cons, List.length_nil]
  omega

theorem longest_single {c : Char} {m : Mark} {rest : List Char} (hm : Mark.single? c = some m)
    (hrest : ∀ d ∈ rest.head?, Mark.pair? c d = none) : Longest [c] (.mark m) rest := by
  have hs := Mark.single?_eq_some_iff.mp hm
  refine ⟨by have h := Lexeme.mark m; rwa [hs] at h, fun other otherKind h hp => ?_⟩
  obtain ⟨hq, hd, hw, -⟩ := Mark.spelling_head hs
  obtain ⟨m', rfl, -⟩ := h.of_other hq hd hw hp
  rcases Mark.of_prefix hp with ⟨heq, -⟩ | ⟨d, more, -, rfl, hpair⟩
  · rw [heq]
  · rw [hrest d rfl] at hpair
    cases hpair

end Lox
