import Lox.Proofs.Source.Joined
import Lox.Proofs.Source.Tiling

/-!
# Lexemes further apart

What is between the lexemes of a text does not matter to its tokens. A lexeme that comes before a blank ends there, since no
lexeme but a string has a blank in it, and what fills a gap gives no items.
-/

namespace Lox

open Piece

/-- Lexemes, one after another. Behind each of them there is a blank and then what may fill a gap. Behind the last one there
may be nothing at all. -/
inductive SpacedOut : List Token.Kind → List Char → Prop where
  | nil : SpacedOut [] []
  | last (kind : Token.Kind) : SpacedOut [kind] kind.lexeme.toList
  | cons {kind kinds c gap text} : isBlank c = true → Filler gap text → SpacedOut kinds text →
    SpacedOut (kind :: kinds) (kind.lexeme.toList ++ c :: (gap ++ text))

/-! ## Lexemes of a text -/

theorem Piece.ofChars_starts : ∀ {cs : List Char} {p : Piece}, p ∈ ofChars cs → ∃ after, p.Starts after
  | c :: cs, p, hp => by
    have hlen := cut_length_le c cs
    rw [ofChars_cons] at hp
    cases hp with
    | head => exact ⟨_, cut_starts c cs⟩
    | tail _ hp => exact ofChars_starts hp
termination_by cs => cs.length
decreasing_by simp only [List.length_cons]; omega

theorem Piece.Starts.lexeme {p : Piece} {after : List Char} {kind : Token.Kind} (h : p.Starts after)
    (hs : p.shape = .token kind) : Lexeme kind.lexeme.toList kind := by
  cases h with
  | token _ hl =>
    cases hs
    rw [← hl.lexeme.text_eq]
    exact hl.lexeme
  | _ => cases hs

theorem lexeme_of_mem_tokensIn {source : String} {t : Token} (h : t ∈ tokensIn source) :
    Lexeme t.kind.lexeme.toList t.kind := by
  obtain ⟨-, -, p, hp, hs⟩ := Item.mem_tokensIn h
  obtain ⟨after, hstarts⟩ := ofChars_starts hp
  exact hstarts.lexeme hs

/-! ## Lexemes before a blank -/

theorem blank_cases {c : Char} (h : isBlank c = true) : continuesWord c = false ∧ c.isDigit = false ∧ c ≠ '.' := by
  simp only [isBlank, Bool.or_eq_true, decide_eq_true_eq, or_assoc] at h
  rcases h with rfl | rfl | rfl | rfl <;> decide

theorem Mark.not_blank (m : Mark) : ∀ c ∈ m.spelling.toList, isBlank c = false := by
  cases m <;> simp [spelling, isBlank]

theorem mem_numberText {whole fraction : List Char} {c : Char} (h : c ∈ numberText whole fraction) :
    c ∈ whole ∨ c = '.' ∨ c ∈ fraction := by
  unfold numberText at h
  split at h
  · exact .inl h
  · simpa using h

namespace Lexeme

variable {text rest : List Char} {kind : Token.Kind}

/-- Only a string goes on over a blank. -/
theorem quote_of_blank (h : Lexeme text kind) {c : Char} (hc : c ∈ text) (hb : isBlank c = true) :
    ∃ cs, text = '"' :: cs := by
  obtain ⟨hw, hd, hp⟩ := blank_cases hb
  have hform := h.form
  cases hform with
  | string => exact ⟨_, rfl⟩
  | number _ hdigits =>
    rw [hdigits.text] at hc
    rcases mem_numberText hc with hm | rfl | hm
    · rw [hdigits.whole c hm] at hd; cases hd
    · exact absurd rfl hp
    · rw [hdigits.fraction c hm] at hd; cases hd
  | word _ hword => rw [hword.continues c hc] at hw; cases hw
  | @mark _ _ m _ _ _ _ hm =>
    rw [m.not_blank c (hm ▸ hc)] at hb
    cases hb

/-- A lexeme ends before a blank. -/
theorem longest (h : Lexeme text kind) (hrest : ∀ c ∈ rest.head?, isBlank c = true) : Longest text kind rest := by
  by_cases hq : ∃ cs, text = '"' :: cs
  · obtain ⟨cs, htext⟩ := hq
    obtain ⟨content, hc, rfl, rfl⟩ := h.of_quote (htext ▸ List.prefix_rfl : text <+: '"' :: cs)
    exact longest_string hc rest
  · refine ⟨h, fun other otherKind ho hp => Nat.le_of_not_lt fun hlt => hq ?_⟩
    obtain ⟨more, rfl⟩ : text <+: other := List.prefix_of_prefix_length_le (List.prefix_append ..) hp (Nat.le_of_lt hlt)
    rw [List.prefix_append_right_inj] at hp
    cases more with
    | nil => exact absurd hlt (by simp)
    | cons c more =>
      obtain ⟨rest', rfl⟩ := hp
      obtain ⟨cs, hcs⟩ := ho.quote_of_blank (List.mem_append_right text List.mem_cons_self) (hrest c rfl)
      cases text with
      | nil => exact absurd rfl h.ne_nil
      | cons d ds => exact ⟨ds, by rw [List.cons_append] at hcs; rw [(List.cons.inj hcs).1]⟩

/-- No comment begins with a lexeme. -/
theorem not_comment (h : Lexeme text kind) (hrest : ∀ c ∈ rest.head?, isBlank c = true) : ¬ ['/', '/'] <+: text ++ rest := by
  intro hp
  obtain ⟨d, ds, rfl⟩ := List.exists_cons_of_ne_nil h.ne_nil
  obtain ⟨hd, hnext⟩ := List.cons_prefix_cons.mp hp
  subst hd
  obtain ⟨m, hm, -⟩ := h.of_other (by decide) (by decide) (by decide) List.prefix_rfl
  have hds : ds = [] ∨ ds = ['='] := by
    cases m <;> simp [Mark.spelling] at hm <;> simp [← hm]
  rcases hds with rfl | rfl
  · cases rest with
    | nil => exact absurd hnext (by simp)
    | cons c rest =>
      have hc : '/' = c := (List.cons_prefix_cons.mp hnext).1
      exact absurd (hrest c rfl) (hc ▸ by decide)
  · exact absurd (List.cons_prefix_cons.mp hnext).1 (by decide)

end Lexeme

/-! ## Scanning -/

namespace Scans

/-- What fills a gap gives no items. -/
theorem filler {gap after : List Char} (h : Filler gap after) : ∀ {line : Nat} {items : List Item},
    Scans (line + Item.newlines gap) after items → Scans line (gap ++ after) items := by
  induction h with
  | nil => exact id
  | @blank c gap after hc _ ih =>
    intro line items hs
    have hb : isBlank c = true := by simpa [isBlank, or_assoc] using hc
    have hline : line + Item.newlines (c :: gap) = line + Item.newlines [c] + Item.newlines gap := by
      rw [Nat.add_assoc, Item.newlines, Item.newlines, Item.newlines, ← List.count_append, List.singleton_append]
    rw [hline] at hs
    exact .step (p := ⟨[c], .blank⟩) (.blank hb) (ih hs)
  | @comment body gap after hbody hnext _ ih =>
    intro line items hs
    have hline : line + Item.newlines ('/' :: '/' :: body ++ gap) =
        line + Item.newlines ('/' :: '/' :: body) + Item.newlines gap := by
      rw [Nat.add_assoc, Item.newlines, List.count_append]
      rfl
    rw [hline] at hs
    rw [List.append_assoc]
    exact .step (p := ⟨'/' :: '/' :: body, .comment⟩) (.comment hbody hnext) (ih hs)

/-- A lexeme before a blank gives a token of its own. -/
theorem lexeme {kind : Token.Kind} {line : Nat} {after : List Char} {items : List Item} (h : Lexeme kind.lexeme.toList kind)
    (hafter : ∀ c ∈ after.head?, isBlank c = true) (hs : Scans (line + Item.newlines kind.lexeme.toList) after items) :
    Scans line (kind.lexeme.toList ++ after)
      (.token { kind, line := line + Item.newlines kind.lexeme.toList } :: items) :=
  .step (p := ⟨kind.lexeme.toList, .token kind⟩) (.token (h.not_comment hafter) (h.longest hafter)) hs

theorem last_lexeme {kind : Token.Kind} (h : Lexeme kind.lexeme.toList kind) (line : Nat) :
    Scans line kind.lexeme.toList [.token { kind, line := line + Item.newlines kind.lexeme.toList },
      .token { kind := .eof, line := line + Item.newlines kind.lexeme.toList }] := by
  have hnone : ∀ c ∈ ([] : List Char).head?, isBlank c = true := fun c hc => nomatch hc
  simpa only [List.append_nil] using lexeme h hnone .done

/-- Lexemes that are spaced out give their own tokens. -/
theorem spacedOut {kinds : List Token.Kind} {text : List Char} (h : SpacedOut kinds text) :
    (∀ kind ∈ kinds, Lexeme kind.lexeme.toList kind) → ∀ line, ∃ items, Scans line text items ∧ errorsOf items = [] ∧
      (tokensOf items).map Token.kind = kinds ++ [.eof] := by
  induction h with
  | nil => exact fun _ line => ⟨_, .done, rfl, rfl⟩
  | last kind => exact fun hk line => ⟨_, last_lexeme (hk kind List.mem_cons_self) line, rfl, rfl⟩
  | @cons kind kinds c gap text hb hfill _ ih =>
    intro hk line
    have hgap : Filler (c :: gap) text := .blank (by simpa [isBlank, or_assoc] using hb) hfill
    have hnext : ∀ d ∈ (c :: gap ++ text).head?, isBlank d = true := by
      rintro _ ⟨⟩
      exact hb
    obtain ⟨items, hs, herrors, hkinds⟩ := ih (fun k hm => hk k (List.mem_cons_of_mem _ hm)) _
    exact ⟨_, lexeme (hk kind List.mem_cons_self) hnext (filler hgap hs), herrors, congrArg (kind :: ·) hkinds⟩

end Scans

/-! ## Texts -/

/-- The text of one token is scanned as this token. -/
theorem ofSource_of_lexeme {text : String} {kind : Token.Kind} (h : Lexeme text.toList kind) :
    Item.ofSource text = [.token { kind, line := 1 + Item.newlines text.toList },
      .token { kind := .eof, line := 1 + Item.newlines text.toList }] := by
  have hs := Scans.last_lexeme (h.text_eq ▸ h) 1
  rw [← h.text_eq] at hs
  exact hs.eq_ofPieces.symm

/-- The lexemes of a source may be set further apart, with blanks and comments between them. The tokens stay what they are, but
for their lines. -/
theorem respaced_source_has_same_tokens {source text : String}
    (h : SpacedOut ((tokensIn source).map Token.kind) text.toList) :
    errorsOf (Item.ofSource text) = [] ∧
      (tokensOf (Item.ofSource text)).map Token.kind = (tokensOf (Item.ofSource source)).map Token.kind ∧
      (tokensOf (Item.ofSource text)).map Token.lexeme = (tokensOf (Item.ofSource source)).map Token.lexeme := by
  have hk : ∀ kind ∈ (tokensIn source).map Token.kind, Lexeme kind.lexeme.toList kind := by
    intro kind hm
    obtain ⟨t, ht, rfl⟩ := List.mem_map.mp hm
    exact lexeme_of_mem_tokensIn ht
  obtain ⟨items, hscans, herrors, hkinds⟩ := Scans.spacedOut h hk 1
  have hitems : items = Item.ofSource text := hscans.eq_ofPieces
  rw [hitems] at herrors hkinds
  have heq : (tokensOf (Item.ofSource text)).map Token.kind = (tokensOf (Item.ofSource source)).map Token.kind := by
    rw [hkinds, tokensOf_ofSource, List.map_append]
    rfl
  refine ⟨herrors, heq, ?_⟩
  have hlexeme := congrArg (List.map Token.Kind.lexeme) heq
  rwa [List.map_map, List.map_map] at hlexeme

/-- A comment stands between a slash and what it divides by, with a blank before it. -/
theorem respaced_quotient : SpacedOut ((tokensIn "a/2.5").map Token.kind) "a\t/ //b\n2.5".toList ∧
    errorsOf (Item.ofSource "a\t/ //b\n2.5") = [] ∧
    (tokensOf (Item.ofSource "a\t/ //b\n2.5")).map Token.lexeme = ["a", "/", "2.5", ""] := by
  have hbreak : Filler ['\n'] "2.5".toList := .blank (by decide) .nil
  have hbody : '\n' ∉ ['b'] := by decide
  have hcomment : Filler "//b\n".toList "2.5".toList := .comment hbody (by rintro _ ⟨⟩; rfl) hbreak
  have hspaced : SpacedOut ((tokensIn "a/2.5").map Token.kind) "a\t/ //b\n2.5".toList :=
    .cons rfl .nil (.cons rfl hcomment (.last _))
  have hsame := respaced_source_has_same_tokens hspaced
  exact ⟨hspaced, hsame.1, hsame.2.2⟩

end Lox
