import Lox.Source.Item

/-!
# Words

A word that spells a keyword is never a name.
-/

namespace Lox

theorem Keyword.ofText?_text (k : Keyword) : Keyword.ofText? k.text = some k := by cases k <;> rfl

namespace Piece

theorem wordKind_ne_keyword {word text : String} (h : wordKind word = .identifier text) (k : Keyword) : text ≠ k.text := by
  unfold wordKind at h
  split at h
  · cases h
  · rename_i hw
    cases h
    rintro rfl
    rw [Keyword.ofText?_text] at hw
    cases hw

theorem cut_identifier {c : Char} {cs : List Char} {text : String} (h : (cut c cs).1.shape = .token (.identifier text)) :
    ∃ word, wordKind word = .identifier text := by
  have single : ∀ {c cs}, (cutSingle c cs).1.shape ≠ .token (.identifier text) := by
    intro c cs; unfold cutSingle; split <;> simp
  unfold cut at h
  split at h; · cases h
  split at h; · cases h
  split at h; · unfold cutString at h; split at h <;> cases h
  split at h; · cases h
  split at h; · exact ⟨_, by simpa [cutWord] using h⟩
  unfold cutMark at h
  split at h
  · exact absurd h single
  · split at h
    · cases h
    · exact absurd h single

theorem ofChars_identifier : ∀ {cs : List Char} {p : Piece}, p ∈ ofChars cs → ∀ {text}, p.shape = .token (.identifier text) →
    ∃ word, wordKind word = .identifier text
  | c :: cs, p, hp, text, h => by
    have hlen := cut_length_le c cs
    rw [ofChars_cons] at hp
    cases hp with
    | head => exact cut_identifier h
    | tail _ hp => exact ofChars_identifier hp h
termination_by cs => cs.length
decreasing_by simp only [List.length_cons]; omega

end Piece

namespace Item

theorem of_mem_ofPieces : ∀ {line : Nat} {ps : List Piece} {t : Token}, .token t ∈ ofPieces line ps →
    t.kind = .eof ∨ ∃ p ∈ ps, p.shape = .token t.kind
  | _, [], t, h => by
    obtain rfl : t = { kind := .eof, line := _ } := by simpa [ofPieces] using h
    exact .inl rfl
  | line, p :: ps, t, h => by
    rw [ofPieces] at h
    rcases List.mem_append.mp h with h | h
    · right
      refine ⟨p, List.mem_cons_self, ?_⟩
      generalize line + newlines p.text = line at h
      cases hs : p.shape <;> simp_all [ofShape?]
    · rcases of_mem_ofPieces h with h | ⟨q, hq, h⟩
      · exact .inl h
      · exact .inr ⟨q, List.mem_cons_of_mem _ hq, h⟩

end Item

/-- No token of a source text that is a name spells a keyword. -/
theorem tokensOf_name_ne_keyword {source : String} {t : Token} (ht : t ∈ tokensOf (Item.ofSource source)) {text : String}
    (h : t.kind = .identifier text) (k : Keyword) : text ≠ k.text := by
  obtain ⟨item, hi, hit⟩ := List.mem_filterMap.mp ht
  cases item with
  | error e => cases hit
  | token t' =>
    cases hit
    rcases Item.of_mem_ofPieces hi with he | ⟨p, hp, hs⟩
    · rw [h] at he; cases he
    · rw [h] at hs
      obtain ⟨word, hw⟩ := Piece.ofChars_identifier hp hs
      exact Piece.wordKind_ne_keyword hw k

end Lox
