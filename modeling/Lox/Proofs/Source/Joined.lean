import Lox.Proofs.Source.Words
import Lox.Proofs.Syntax.Relined
import Lox.Syntax.Reader

/-!
# Two texts, one after the other

Where a text without lexical errors is followed by a line end and another text, the tokens are those
of the first and then those of the second, on lines that are further down.
-/

namespace Lox

section
variable {α : Type} {p : α → Bool} {x : α}

theorem takeWhile_before (h : p x = false) (ys : List α) : ∀ xs : List α,
    (xs ++ x :: ys).takeWhile p = xs.takeWhile p ∧ (xs ++ x :: ys).dropWhile p = xs.dropWhile p ++ x :: ys
  | [] => by simp [h]
  | z :: xs => by
    have ih := takeWhile_before h ys xs
    cases hz : p z with
    | true => simp [hz, ih.1, ih.2]
    | false => simp [hz]

theorem takeWhile_within (ys : List α) : ∀ {xs : List α}, xs.dropWhile p ≠ [] →
    (xs ++ ys).takeWhile p = xs.takeWhile p ∧ (xs ++ ys).dropWhile p = xs.dropWhile p ++ ys
  | [], h => absurd rfl h
  | z :: xs, h => by
    cases hz : p z with
    | true =>
      have hrest : xs.dropWhile p ≠ [] := by simpa [hz] using h
      have ih := takeWhile_within ys hrest
      simp [hz, ih.1, ih.2]
    | false => simp [hz]

end

namespace Piece

theorem splitNumber_before (bs : List Char) (cs : List Char) : splitNumber (cs ++ '\n' :: bs) =
    ((splitNumber cs).1, (splitNumber cs).2.1, (splitNumber cs).2.2 ++ '\n' :: bs) := by
  obtain ⟨ht, hd⟩ := takeWhile_before (p := Char.isDigit) (x := '\n') rfl bs cs
  unfold splitNumber
  rw [ht, hd]
  generalize cs.takeWhile Char.isDigit = whole
  -- a point counts only with a digit after it
  rcases cs.dropWhile Char.isDigit with _ | ⟨c, _ | ⟨d, rest⟩⟩
  · rfl
  · by_cases hc : c = '.'
    · subst hc; rfl
    · simp [hc]
  · by_cases hc : c = '.'
    · subst hc
      by_cases hd : d.isDigit = true
      · obtain ⟨ht, hr⟩ := takeWhile_before (p := Char.isDigit) (x := '\n') rfl bs (d :: rest)
        simp only [List.cons_append] at ht hr
        simp only [List.cons_append, hd, if_true, ht, hr]
      · simp [hd]
    · simp [hc]

theorem cutMark_before (bs : List Char) (c : Char) (cs : List Char) : cutMark c (cs ++ '\n' :: bs) =
    ((cutMark c cs).1, (cutMark c cs).2 ++ '\n' :: bs) := by
  have single : ∀ cs, cutSingle c (cs ++ '\n' :: bs) = ((cutSingle c cs).1, (cutSingle c cs).2 ++ '\n' :: bs) := by
    intro cs
    unfold cutSingle
    split <;> rfl
  cases cs with
  | nil =>
    have hpair : Mark.pair? c '\n' = none := by
      unfold Mark.pair?
      split <;> simp_all
    simp only [cutMark, List.nil_append, hpair]
    exact single []
  | cons d cs =>
    simp only [cutMark, List.cons_append]
    split
    · rfl
    · exact single (d :: cs)

/-- A piece that is closed before a line end is cut the same with it. -/
theorem cut_before {c : Char} {cs : List Char} (bs : List Char) (h : (cut c cs).1.shape ≠ .unterminated) :
    cut c (cs ++ '\n' :: bs) = ((cut c cs).1, (cut c cs).2 ++ '\n' :: bs) := by
  have hhead : (cs ++ '\n' :: bs).head? = some '/' ↔ cs.head? = some '/' := by
    cases cs <;> simp
  unfold cut at h ⊢
  simp only [hhead]
  split; · rfl
  rename_i hblank
  split
  · obtain ⟨ht, hd⟩ := takeWhile_before (p := fun c => decide (c ≠ '\n')) (x := '\n') (by decide) bs (c :: cs)
    simp only [cutComment, ← List.cons_append, ht, hd]
  rename_i hcomment
  split
  · rename_i hquote
    rw [if_neg hblank, if_neg hcomment, if_pos hquote] at h
    have hne : cs.dropWhile (fun c => decide (c ≠ '"')) ≠ [] := by
      intro hnil
      exact h (by unfold cutString; rw [hnil])
    obtain ⟨ht, hd⟩ := takeWhile_within ('\n' :: bs) hne
    unfold cutString
    rw [ht, hd]
    cases hr : cs.dropWhile (fun c => decide (c ≠ '"')) with
    | nil => exact absurd hr hne
    | cons quote rest => rfl
  split
  · simp only [cutNumber, ← List.cons_append, splitNumber_before]
  split
  · obtain ⟨ht, hd⟩ := takeWhile_before (p := continuesWord) (x := '\n') rfl bs (c :: cs)
    simp only [cutWord, ← List.cons_append, ht, hd]
  exact cutMark_before bs c cs

/-- The pieces of the two texts, and between them the line end. -/
theorem ofChars_joined (bs : List Char) : ∀ cs : List Char, (∀ p ∈ ofChars cs, p.shape ≠ .unterminated) →
    ofChars (cs ++ '\n' :: bs) = ofChars cs ++ { text := ['\n'], shape := .blank } :: ofChars bs
  | [], _ => by rw [List.nil_append, ofChars_cons]; rfl
  | c :: cs, h => by
    have hlen := cut_length_le c cs
    rw [ofChars_cons] at h ⊢
    rw [List.cons_append, ofChars_cons, cut_before bs (h _ List.mem_cons_self),
      ofChars_joined bs _ fun p hp => h p (List.mem_cons_of_mem _ hp)]
    rfl
termination_by cs => cs.length
decreasing_by simp only [List.length_cons]; omega

end Piece

/-! ## Tokens of pieces -/

theorem Piece.cut_ne_eof (c : Char) (cs : List Char) : (Piece.cut c cs).1.shape ≠ .token .eof := by
  have single : ∀ cs, (cutSingle c cs).1.shape ≠ .token .eof := by
    intro cs; unfold cutSingle; split <;> simp
  unfold cut
  split; · simp
  split; · simp [cutComment]
  split; · unfold cutString; split <;> simp
  split; · simp [cutNumber]
  split; · simp only [cutWord, wordKind]; split <;> simp
  unfold cutMark
  split
  · exact single []
  · split
    · simp
    · exact single _

theorem Piece.ofChars_ne_eof : ∀ {cs : List Char}, ∀ p ∈ Piece.ofChars cs, p.shape ≠ .token .eof
  | c :: cs, p, hp => by
    have hlen := cut_length_le c cs
    rw [ofChars_cons] at hp
    cases hp with
    | head => exact cut_ne_eof c cs
    | tail _ hp => exact ofChars_ne_eof p hp
termination_by cs => cs.length
decreasing_by simp only [List.length_cons]; omega

namespace Item

/-- The tokens of pieces that start on the given line, without the end of the text. -/
def tokensIn : (line : Nat) → List Piece → List Token
  | _, [] => []
  | line, p :: ps =>
    let line := line + newlines p.text
    ((ofShape? line p.shape).bind token?).toList ++ tokensIn line ps

/-- The line on which the pieces end. -/
def lineAfter (line : Nat) (ps : List Piece) : Nat := line + newlines (ps.flatMap Piece.text)

theorem lineAfter_cons (line : Nat) (p : Piece) (ps : List Piece) :
    lineAfter line (p :: ps) = lineAfter (line + newlines p.text) ps := by
  simp [lineAfter, newlines, Nat.add_assoc]

theorem tokensOf_ofPieces : ∀ (line : Nat) (ps : List Piece),
    tokensOf (ofPieces line ps) = tokensIn line ps ++ [{ kind := .eof, line := lineAfter line ps }]
  | _, [] => rfl
  | line, p :: ps => by
    have ih := tokensOf_ofPieces (line + newlines p.text) ps
    unfold tokensOf at ih ⊢
    rw [ofPieces, List.filterMap_append, ih, lineAfter_cons, tokensIn, List.append_assoc]
    congr 1
    cases ofShape? (line + newlines p.text) p.shape with
    | none => rfl
    | some i => cases i <;> rfl

theorem tokensIn_append : ∀ (line : Nat) (ps qs : List Piece),
    tokensIn line (ps ++ qs) = tokensIn line ps ++ tokensIn (lineAfter line ps) qs
  | _, [], _ => rfl
  | line, p :: ps, qs => by
    rw [List.cons_append, tokensIn, tokensIn_append, tokensIn, lineAfter_cons, List.append_assoc]

/-- Pieces that start further down have their tokens further down. -/
theorem tokensIn_add (k : Nat) : ∀ (line : Nat) (ps : List Piece),
    tokensIn (line + k) ps = (tokensIn line ps).map (Token.relined (· + k))
  | _, [] => rfl
  | line, p :: ps => by
    have hline : line + k + newlines p.text = line + newlines p.text + k := Nat.add_right_comm ..
    rw [tokensIn, tokensIn, hline, tokensIn_add, List.map_append]
    congr 1
    cases p.shape <;> rfl

theorem mem_tokensIn : ∀ {line : Nat} {ps : List Piece} {t : Token}, t ∈ tokensIn line ps →
    line ≤ t.line ∧ t.line ≤ lineAfter line ps ∧ ∃ p ∈ ps, p.shape = .token t.kind
  | line, p :: ps, t, h => by
    rw [tokensIn] at h
    rw [lineAfter_cons]
    rcases List.mem_append.mp h with h | h
    · have ht : p.shape = .token t.kind ∧ t.line = line + newlines p.text := by
        cases hs : p.shape <;> simp_all [ofShape?, token?]
      exact ⟨by rw [ht.2]; exact Nat.le_add_right .., by rw [ht.2]; exact Nat.le_add_right .., p, List.mem_cons_self, ht.1⟩
    · obtain ⟨hlo, hhi, q, hq, hs⟩ := mem_tokensIn h
      exact ⟨Nat.le_trans (Nat.le_add_right ..) hlo, hhi, q, List.mem_cons_of_mem _ hq, hs⟩

/-! ## Errors of pieces -/

/-- No piece is an error. -/
def Clean (ps : List Piece) : Prop := ∀ p ∈ ps, p.shape ≠ .unterminated ∧ ∀ c, p.shape ≠ .unexpected c

theorem errorsOf_ofPieces : ∀ (line : Nat) (ps : List Piece), errorsOf (ofPieces line ps) = [] ↔ Clean ps
  | _, [] => by simp [errorsOf, ofPieces, error?, Clean]
  | line, p :: ps => by
    have ih := errorsOf_ofPieces (line + newlines p.text) ps
    unfold errorsOf at ih ⊢
    rw [ofPieces, List.filterMap_append, List.append_eq_nil_iff, ih, Clean, Clean, List.forall_mem_cons]
    refine and_congr_left fun _ => ?_
    cases p.shape <;> simp [ofShape?, error?]

theorem Clean.append {ps qs : List Piece} (h : Clean ps) (h' : Clean qs) : Clean (ps ++ qs) :=
  fun p hp => (List.mem_append.mp hp).elim (h p) (h' p)

end Item

/-! ## Two texts -/

open Item

/-- The tokens of a text, without its end. -/
def tokensIn (source : String) : List Token := Item.tokensIn 1 (Piece.ofChars source.toList)

/-- The line on which a text ends. -/
def lastLine (source : String) : Nat := 1 + newlines source.toList

theorem lineAfter_ofChars (line : Nat) (cs : List Char) : lineAfter line (Piece.ofChars cs) = line + newlines cs := by
  rw [lineAfter, Piece.flatMap_text_ofChars]

theorem mem_tokensIn {source : String} {t : Token} (h : t ∈ tokensIn source) :
    1 ≤ t.line ∧ t.line ≤ lastLine source ∧ t.kind ≠ .eof := by
  obtain ⟨hlo, hhi, p, hp, hs⟩ := Item.mem_tokensIn h
  rw [lineAfter_ofChars] at hhi
  refine ⟨hlo, hhi, fun he => Piece.ofChars_ne_eof p hp ?_⟩
  rw [hs, he]

theorem tokensOf_ofSource (source : String) :
    tokensOf (ofSource source) = tokensIn source ++ [{ kind := .eof, line := lastLine source }] := by
  rw [ofSource, tokensOf_ofPieces, lineAfter_ofChars]
  rfl

theorem ofTokens_ofSource (source : String) (nextId : NodeId) : Reader.ofTokens (tokensOf (ofSource source)) nextId =
    { tokens := tokensIn source, endLine := lastLine source, nextId, errors := [] } := by
  have hne : ∀ t ∈ tokensIn source, decide (t.kind ≠ .eof) = true := fun t ht => decide_eq_true (mem_tokensIn ht).2.2
  have hfind : (tokensIn source).find? (fun t => decide (t.kind = .eof)) = none := by
    rw [List.find?_eq_none]
    intro t ht
    simpa using (mem_tokensIn ht).2.2
  rw [tokensOf_ofSource]
  simp only [Reader.ofTokens, List.takeWhile_append_of_pos hne, List.find?_append, hfind]
  simp

section
variable {first second : String}

theorem ofChars_two_texts (h : errorsOf (ofSource first) = []) : Piece.ofChars (first ++ "\n" ++ second).toList =
    Piece.ofChars first.toList ++ { text := ['\n'], shape := .blank } :: Piece.ofChars second.toList := by
  have hclean := (errorsOf_ofPieces _ _).mp h
  rw [String.toList_append, String.toList_append, List.append_assoc]
  exact Piece.ofChars_joined _ _ fun p hp => (hclean p hp).1

/-- The tokens of the second text stand as much further down as the first one has lines. -/
theorem tokensIn_two_texts (h : errorsOf (ofSource first) = []) :
    tokensIn (first ++ "\n" ++ second) = tokensIn first ++ (tokensIn second).map (Token.relined (· + lastLine first)) := by
  have hblank : Item.tokensIn (lastLine first) ({ text := ['\n'], shape := .blank } :: Piece.ofChars second.toList) =
      Item.tokensIn (1 + lastLine first) (Piece.ofChars second.toList) := by
    rw [Nat.add_comm 1]
    rfl
  rw [tokensIn, ofChars_two_texts h, tokensIn_append, lineAfter_ofChars]
  rw [lastLine] at hblank
  rw [hblank, tokensIn_add]
  rfl

theorem errorsOf_two_texts (h : errorsOf (ofSource first) = []) (h' : errorsOf (ofSource second) = []) :
    errorsOf (ofSource (first ++ "\n" ++ second)) = [] := by
  have hblank : Clean [({ text := ['\n'], shape := .blank } : Piece)] := by simp [Clean]
  rw [ofSource, errorsOf_ofPieces, ofChars_two_texts h]
  exact ((errorsOf_ofPieces _ _).mp h).append (hblank.append ((errorsOf_ofPieces _ _).mp h'))

end

end Lox
