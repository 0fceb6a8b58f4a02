import Lox.Proofs.Source.Lexemes

/-!
# Longest match

What stands at the beginning of a text is a blank, a comment, the longest lexeme, or an error where there is none of these.
The scanner finds just that, from one place to the next.
-/

namespace Lox

/-- No lexeme, blank or comment stands at the beginning of the text. -/
structure NothingStarts (text : List Char) : Prop where
  lexeme : ∀ start kind, Lexeme start kind → ¬ start <+: text
  blank : ∀ c ∈ text.head?, Piece.isBlank c = false
  comment : ¬ ['/', '/'] <+: text

/-- The piece stands at the beginning of the text that consists of its own text and what comes after it. -/
inductive Piece.Starts : Piece → (after : List Char) → Prop where
  | blank {c after} : isBlank c = true → Starts ⟨[c], .blank⟩ after
  /-- Two slashes, up to the next line end, or to the end of the text. -/
  | comment {body after} : '\n' ∉ body → (∀ c ∈ after.head?, c = '\n') → Starts ⟨'/' :: '/' :: body, .comment⟩ after
  | token {text kind after} : ¬ ['/', '/'] <+: text ++ after → Longest text kind after → Starts ⟨text, .token kind⟩ after
  | unexpected {c after} : NothingStarts (c :: after) → c ≠ '"' → Starts ⟨[c], .unexpected c⟩ after
  | unterminated {content} : NothingStarts ('"' :: content) → Starts ⟨'"' :: content, .unterminated⟩ []

/-- The items of a text that begins on the line, from one piece to the next. -/
inductive Scans : (line : Nat) → List Char → List Item → Prop where
  | done {line} : Scans line [] [.token { kind := .eof, line }]
  | step {line p after items} : Piece.Starts p after → Scans (line + Item.newlines p.text) after items →
    Scans line (p.text ++ after) ((Item.ofShape? (line + Item.newlines p.text) p.shape).toList ++ items)

namespace Piece

/-! ## What is cut off -/

theorem comment_prefix_iff {c : Char} {cs : List Char} : ['/', '/'] <+: c :: cs ↔ c = '/' ∧ cs.head? = some '/' := by
  rw [List.cons_prefix_cons, eq_comm]
  refine and_congr_right fun _ => ?_
  cases cs with
  | nil => simp
  | cons d ds => simp [List.cons_prefix_cons, eq_comm]

theorem cutComment_starts {c : Char} {cs : List Char} (hc : c = '/' ∧ cs.head? = some '/') :
    (cutComment (c :: cs)).1.Starts (cutComment (c :: cs)).2 := by
  obtain ⟨rfl, hcs⟩ := hc
  obtain ⟨ds, rfl⟩ := List.head?_eq_some_iff.mp hcs
  have htake : ('/' :: '/' :: ds).takeWhile (fun c => decide (c ≠ '\n')) =
      '/' :: '/' :: ds.takeWhile (fun c => decide (c ≠ '\n')) := rfl
  have hdrop : ('/' :: '/' :: ds).dropWhile (fun c => decide (c ≠ '\n')) = ds.dropWhile (fun c => decide (c ≠ '\n')) := rfl
  rw [cutComment, htake, hdrop]
  refine .comment (not_mem_takeWhile_ne _ _) fun c hc => ?_
  have hn := List.head?_dropWhile_not (fun c => decide (c ≠ '\n')) ds
  rw [hc] at hn
  simpa using hn

theorem cutString_starts (cs : List Char) : (cutString cs).1.Starts (cutString cs).2 := by
  have happend := List.takeWhile_append_dropWhile (p := fun c => decide (c ≠ '"')) (l := cs)
  have hcontent := not_mem_takeWhile_ne '"' cs
  unfold cutString
  split
  · rename_i hdrop
    rw [hdrop, List.append_nil] at happend
    rw [happend] at hcontent ⊢
    refine .unterminated ⟨fun start kind h hp => ?_, fun c hc => ?_, fun hp => ?_⟩
    · obtain ⟨content, -, rfl, -⟩ := h.of_quote hp
      exact hcontent ((List.cons_prefix_cons.mp hp).2.subset (by simp))
    · cases hc; decide
    · exact absurd (comment_prefix_iff.mp hp).1 (by decide)
  · rename_i quote rest hdrop
    have hquote : quote = '"' := by
      have hn := List.head?_dropWhile_not (fun c => decide (c ≠ '"')) cs
      rw [hdrop] at hn
      simpa using hn
    subst hquote
    refine .token (fun hp => absurd (comment_prefix_iff.mp hp).1 (by decide)) (longest_string hcontent rest)

theorem cutMark_starts {c : Char} {cs : List Char} (hb : isBlank c = false) (hcomment : ¬ ['/', '/'] <+: c :: cs)
    (hq : c ≠ '"') (hd : c.isDigit = false) (hw : startsWord c = false) : (cutMark c cs).1.Starts (cutMark c cs).2 := by
  have single : (∀ d ∈ cs.head?, Mark.pair? c d = none) → (cutSingle c cs).1.Starts (cutSingle c cs).2 := by
    intro hpair
    unfold cutSingle
    split
    · rename_i m hm
      exact .token hcomment (longest_single hm hpair)
    · rename_i hm
      refine .unexpected ⟨fun start kind h hp => ?_, fun d hd => by cases hd; exact hb, hcomment⟩ hq
      obtain ⟨m, rfl, -⟩ := h.of_other hq hd hw hp
      rcases Mark.of_prefix hp with ⟨-, hs⟩ | ⟨d, rest, -, rfl, hs⟩
      · rw [hm] at hs; cases hs
      · rw [hpair d rfl] at hs; cases hs
  unfold cutMark
  split
  · exact single nofun
  · rename_i d rest
    split
    · rename_i m hm
      exact .token hcomment (longest_pair hm rest)
    · rename_i hm
      exact single fun d' hd' => by cases hd'; exact hm

theorem cut_starts (c : Char) (cs : List Char) : (cut c cs).1.Starts (cut c cs).2 := by
  unfold cut
  split
  · rename_i hb
    exact .blank hb
  rename_i hb
  split
  · rename_i hc
    exact cutComment_starts hc
  rename_i hc
  have hcomment : ¬ ['/', '/'] <+: c :: cs := fun hp => hc (comment_prefix_iff.mp hp)
  split
  · exact cutString_starts cs
  rename_i hq
  split
  · rename_i hd
    refine .token (fun hp => hcomment ?_) (longest_number hd)
    rwa [← splitNumber_eq (c :: cs)]
  rename_i hd
  split
  · rename_i hw
    refine .token (fun hp => hcomment ?_) (longest_word hw)
    rwa [← List.takeWhile_append_dropWhile (p := continuesWord) (l := c :: cs)]
  rename_i hw
  exact cutMark_starts (by simpa using hb) hcomment hq (by simpa using hd) (by simpa using hw)

/-! ## Only one piece -/

namespace Starts

variable {p p' : Piece} {after after' : List Char}

theorem text_ne_nil (h : p.Starts after) : p.text ≠ [] := by
  cases h with
  | token _ hl => exact hl.lexeme.ne_nil
  | _ => exact nofun

/-- Where nothing starts, a character stands for itself or a quote for all that comes after it. -/
theorem of_nothing (h : p.Starts after) (hn : NothingStarts (p.text ++ after)) :
    (∃ c, c ≠ '"' ∧ p = ⟨[c], .unexpected c⟩) ∨ ∃ content, p = ⟨'"' :: content, .unterminated⟩ ∧ after = [] := by
  cases h with
  | blank hb => have hb' := hn.blank _ rfl; rw [hb] at hb'; cases hb'
  | comment => exact absurd (List.prefix_append ['/', '/'] _) hn.comment
  | token _ hl => exact absurd (List.prefix_append ..) (hn.lexeme _ _ hl.lexeme)
  | unexpected _ hq => exact .inl ⟨_, hq, rfl⟩
  | unterminated => exact .inr ⟨_, rfl, rfl⟩

/-- An error stands where nothing starts. -/
theorem error_iff (h : p.Starts after) (line : Nat) :
    (∃ e, Item.ofShape? line p.shape = some (.error e)) ↔ NothingStarts (p.text ++ after) := by
  constructor
  · rintro ⟨e, he⟩
    cases h with
    | blank => cases he
    | comment => cases he
    | token => simp [Item.ofShape?] at he
    | unexpected hn => exact hn
    | unterminated hn => rwa [List.append_nil]
  · intro hn
    rcases h.of_nothing hn with ⟨c, -, rfl⟩ | ⟨content, rfl, -⟩
    · exact ⟨_, rfl⟩
    · exact ⟨_, rfl⟩

theorem of_blank {c : Char} {cs : List Char} (hb : isBlank c = true) (h : p.Starts after) (heq : p.text ++ after = c :: cs) :
    p = ⟨[c], .blank⟩ ∧ after = cs := by
  cases h with
  | blank => cases heq; exact ⟨rfl, rfl⟩
  | comment => cases heq; exact absurd hb (by decide)
  | @token text kind _ _ hl =>
    have hp : text <+: c :: cs := heq ▸ List.prefix_append text after
    rw [hl.lexeme.not_blank hp] at hb
    cases hb
  | unexpected hn => cases heq; rw [hn.blank _ rfl] at hb; cases hb
  | unterminated => cases heq; exact absurd hb (by decide)

theorem of_comment {cs : List Char} (h : p.Starts after) (heq : p.text ++ after = '/' :: '/' :: cs) :
    ∃ body, '\n' ∉ body ∧ (∀ c ∈ after.head?, c = '\n') ∧ cs = body ++ after ∧ p = ⟨'/' :: '/' :: body, .comment⟩ := by
  have hprefix : ['/', '/'] <+: '/' :: '/' :: cs := List.prefix_append _ cs
  cases h with
  | blank hb => cases heq; exact absurd hb (by decide)
  | comment hbody hafter => cases heq; exact ⟨_, hbody, hafter, rfl, rfl⟩
  | token hc => rw [heq] at hc; exact absurd hprefix hc
  | unexpected hn => cases heq; exact absurd hprefix hn.comment
  | unterminated hn => cases heq

theorem of_longest {text rest : List Char} {kind : Token.Kind} (hc : ¬ ['/', '/'] <+: text ++ rest)
    (hl : Longest text kind rest) (h : p.Starts after) (heq : p.text ++ after = text ++ rest) :
    p = ⟨text, .token kind⟩ ∧ after = rest := by
  have hp : text <+: p.text ++ after := heq ▸ List.prefix_append text rest
  cases h with
  | blank hb => rw [hl.lexeme.not_blank hp] at hb; cases hb
  | comment => rw [← heq] at hc; exact absurd (List.prefix_append ['/', '/'] _) hc
  | token _ hl' =>
    obtain ⟨rfl, rfl, rfl⟩ := hl'.unique hl heq
    exact ⟨rfl, rfl⟩
  | unexpected hn => exact absurd hp (hn.lexeme _ _ hl.lexeme)
  | unterminated hn => rw [List.append_nil] at hp; exact absurd hp (hn.lexeme _ _ hl.lexeme)

/-- Only one piece stands at the beginning of a text. -/
theorem unique (h : p.Starts after) (h' : p'.Starts after') (heq : p.text ++ after = p'.text ++ after') :
    p = p' ∧ after = after' := by
  cases h' with
  | blank hb => exact of_blank hb h heq
  | comment hbody hafter =>
    obtain ⟨body', hbody', hafter', hsplit, rfl⟩ := of_comment h heq
    obtain ⟨rfl, rfl⟩ := eq_of_split hbody hafter hbody' hafter' hsplit
    exact ⟨rfl, rfl⟩
  | token hc hl => exact of_longest hc hl h heq
  | unexpected hn hq =>
    rcases h.of_nothing (heq ▸ hn) with ⟨c, -, rfl⟩ | ⟨content, rfl, -⟩
    · cases heq; exact ⟨rfl, rfl⟩
    · cases heq; exact absurd rfl hq
  | unterminated hn =>
    rcases h.of_nothing (by rwa [heq, List.append_nil]) with ⟨c, hq, rfl⟩ | ⟨content, rfl, rfl⟩
    · cases heq; exact absurd rfl hq
    · simp only [List.append_nil] at heq
      cases heq
      exact ⟨rfl, rfl⟩

end Starts

end Piece

namespace Scans

open Piece

/-- The scanner goes from piece to piece. -/
theorem ofPieces : ∀ (line : Nat) (cs : List Char), Scans line cs (Item.ofPieces line (ofChars cs))
  | _, [] => .done
  | line, c :: cs => by
    have hlen := cut_length_le c cs
    have hrest := ofPieces (line + Item.newlines (cut c cs).1.text) (cut c cs).2
    have hstep := Scans.step (cut_starts c cs) hrest
    rw [cut_append] at hstep
    rw [ofChars_cons]
    exact hstep
termination_by _ cs => cs.length
decreasing_by simp only [List.length_cons]; omega

theorem eq_ofPieces {line : Nat} {cs : List Char} {items : List Item} (h : Scans line cs items) :
    items = Item.ofPieces line (ofChars cs) := by
  induction h with
  | done => rfl
  | @step line p after items hp _ ih =>
    cases htext : p.text ++ after with
    | nil => exact absurd (List.append_eq_nil_iff.mp htext).1 hp.text_ne_nil
    | cons c cs =>
      obtain ⟨hcut, hafter⟩ := hp.unique (cut_starts c cs) (by rw [htext, cut_append])
      rw [ofChars_cons, ← hcut, ← hafter, Item.ofPieces, ih]

end Scans

/-- Scanning is longest match: the items of a source are those of the pieces that stand, by the grammar, at its beginning and
at the end of each of them, and no others. -/
theorem scanning_is_longest_match :
    (∀ source items, Scans 1 source.toList items ↔ items = Item.ofSource source) ∧
      (∀ text kind other, Lexeme text kind → Lexeme text other → kind = other) ∧
      (∀ text kind, Lexeme text kind → ((∃ k, kind = .keyword k) ↔ ∃ k : Keyword, text = k.text.toList)) ∧
      ∀ (p : Piece) after line, p.Starts after →
        ((∃ e, Item.ofShape? line p.shape = some (.error e)) ↔ NothingStarts (p.text ++ after)) := by
  refine ⟨fun source items => ⟨Scans.eq_ofPieces, ?_⟩, fun _ _ _ h h' => h.kind_unique h', fun _ _ h => h.keyword_iff,
    fun _ _ line h => h.error_iff line⟩
  rintro rfl
  exact Scans.ofPieces 1 source.toList

end Lox
