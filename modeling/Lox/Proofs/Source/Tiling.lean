import Mathlib.Data.List.Forall2
import Lox.Proofs.Source.Longest

/-!
# The items tile the source

Each item stands at a span of the source. The spans lie one behind the other, and what is between them is blanks and
comments.
-/

namespace Lox

/-- A stretch of a text, from one byte up to another. -/
structure Span where
  start : Nat
  stop : Nat
deriving DecidableEq

/-- Blanks, and comments that end before a line end or with the text, in front of what comes after them. -/
inductive Filler : (gap after : List Char) → Prop where
  | nil {after} : Filler [] after
  | blank {c gap after} : c = ' ' ∨ c = '\t' ∨ c = '\r' ∨ c = '\n' → Filler gap after → Filler (c :: gap) after
  | comment {body gap after} : '\n' ∉ body → (∀ c ∈ (gap ++ after).head?, c = '\n') → Filler gap after →
    Filler ('/' :: '/' :: body ++ gap) after

/-- The item is that of the text, which ends on the line. Only the end of the source and an open string have nothing
after them. -/
inductive Item.Stands (line : Nat) : Item → (text after : List Char) → Prop where
  | token {kind after} : kind ≠ .eof → Stands line (.token { kind, line }) kind.lexeme.toList after
  | unexpected {c after} : Stands line (.error (.lexical line (.unexpectedCharacter c))) [c] after
  | unterminated {content} : '"' ∉ content →
    Stands line (.error (.lexical line .unterminatedString)) ('"' :: content) []
  | eof : Stands line (.token { kind := .eof, line }) [] []

/-- The span of the item lies between two characters, and has its text. Lines are counted up to its end. -/
def Item.At (source : String) (item : Item) (σ : Span) : Prop :=
  ∃ before text after : String, source = before ++ text ++ after ∧ σ.start = before.utf8ByteSize ∧
    σ.stop = (before ++ text).utf8ByteSize ∧
    item.Stands (1 + newlines (before ++ text).toList) text.toList after.toList

/-- Between the spans there are only blanks and comments. -/
def Span.Apart (source : String) (σ τ : Span) : Prop :=
  ∃ before gap after : String, source = before ++ gap ++ after ∧ σ.stop = before.utf8ByteSize ∧
    τ.start = (before ++ gap).utf8ByteSize ∧ Filler gap.toList after.toList

structure Tiling (source : String) (items : List Item) (spans : List Span) : Prop where
  placed : List.Forall₂ (Item.At source) items spans
  ordered : spans.Pairwise fun σ τ => σ.start < σ.stop ∧ σ.stop ≤ τ.start
  /-- From the beginning of the source to the first span, and from each to the next. -/
  filled : (⟨0, 0⟩ :: spans).IsChain (Span.Apart source)
  ended : ∃ before, items = before ++ [.token { kind := .eof, line := 1 + Item.newlines source.toList }] ∧
    ∀ line, .token { kind := .eof, line } ∉ before

/-! ## Pieces -/

theorem Lexeme.text_eq {text : List Char} {kind : Token.Kind} (h : Lexeme text kind) : text = kind.lexeme.toList := by
  cases h with
  | mark m => rfl
  | string => simp [Token.Kind.lexeme]
  | integer => exact String.toList_ofList.symm
  | decimal => exact String.toList_ofList.symm
  | keyword k => rfl
  | name => exact String.toList_ofList.symm

theorem Lexeme.ne_eof {text : List Char} (h : Lexeme text .eof) : False := by
  cases h

theorem NothingStarts.open_quote {content : List Char} (h : NothingStarts ('"' :: content)) : '"' ∉ content := by
  intro hm
  obtain ⟨first, rest, rfl, hfirst⟩ := List.eq_append_cons_of_mem hm
  refine h.lexeme _ _ (.string hfirst) ⟨rest, ?_⟩
  simp

namespace Piece.Starts

variable {p : Piece} {after : List Char} {line : Nat}

theorem stands (h : p.Starts after) {item : Item} (hi : Item.ofShape? line p.shape = some item) :
    item.Stands line p.text after := by
  cases h with
  | blank => cases hi
  | comment => cases hi
  | @token text kind _ _ hl =>
    cases hi
    rw [hl.lexeme.text_eq]
    exact .token fun he => (he ▸ hl.lexeme).ne_eof
  | unexpected => cases hi; exact .unexpected
  | unterminated hn => cases hi; exact .unterminated hn.open_quote

theorem ne_eof (h : p.Starts after) {l : Nat} : Item.ofShape? line p.shape ≠ some (.token { kind := .eof, line := l }) := by
  intro hi
  cases h with
  | blank => cases hi
  | comment => cases hi
  | token _ hl => cases hi; exact hl.lexeme.ne_eof
  | unexpected => cases hi
  | unterminated => cases hi

theorem fills (h : p.Starts after) (hi : Item.ofShape? line p.shape = none) {gap rest : List Char} (hafter : after = gap ++ rest)
    (hg : Filler gap rest) : Filler (p.text ++ gap) rest := by
  cases h with
  | blank hb => exact .blank (by simpa [isBlank, or_assoc] using hb) hg
  | comment hbody hrest => exact .comment hbody (hafter ▸ hrest) hg
  | token => simp [Item.ofShape?] at hi
  | unexpected => cases hi
  | unterminated => cases hi

end Piece.Starts

/-! ## Texts -/

section
variable {before rest : List Char}

/-- What is laid out from a place on: a gap, and then the spans. -/
structure Laid (before rest : List Char) (items : List Item) (gap : List Char) (σ : Span) (spans : List Span) : Prop where
  fills : ∃ after, rest = gap ++ after ∧ Filler gap after
  start : σ.start = (String.ofList (before ++ gap)).utf8ByteSize
  placed : List.Forall₂ (Item.At (String.ofList (before ++ rest))) items (σ :: spans)
  ordered : (σ :: spans).Pairwise fun σ τ => σ.start < σ.stop ∧ σ.stop ≤ τ.start
  filled : (σ :: spans).IsChain (Span.Apart (String.ofList (before ++ rest)))

theorem Laid.apart {items : List Item} {gap : List Char} {σ τ : Span} {spans : List Span}
    (h : Laid before rest items gap σ spans) (hstop : τ.stop = (String.ofList before).utf8ByteSize) :
    τ.Apart (String.ofList (before ++ rest)) σ := by
  obtain ⟨after, rfl, hfill⟩ := h.fills
  refine ⟨String.ofList before, String.ofList gap, String.ofList after, ?_, hstop, ?_, ?_⟩
  · rw [String.ofList_append, String.ofList_append, String.append_assoc]
  · rw [h.start, String.ofList_append]
  · rwa [String.toList_ofList, String.toList_ofList]

end

theorem Scans.laid {line : Nat} {rest : List Char} {items : List Item} (h : Scans line rest items) :
    ∀ before : List Char, line = 1 + Item.newlines before → ∃ gap σ spans, Laid before rest items gap σ spans := by
  induction h with
  | @done line =>
    intro before hline
    refine ⟨[], ⟨(String.ofList before).utf8ByteSize, (String.ofList before).utf8ByteSize⟩, [], ⟨[], rfl, .nil⟩, ?_, ?_,
      List.pairwise_singleton .., List.IsChain.singleton _⟩
    · rw [List.append_nil]
    · refine .cons ⟨String.ofList before, "", "", ?_, rfl, ?_, ?_⟩ .nil
      · simp
      · simp
      · subst hline
        simpa using Item.Stands.eof
  | @step line p after items hp _ ih =>
    intro before hline
    have hline' : line + Item.newlines p.text = 1 + Item.newlines (before ++ p.text) := by
      simp only [hline, Item.newlines, List.count_append, Nat.add_assoc]
    obtain ⟨gap, σ, spans, hlaid⟩ := ih (before ++ p.text) hline'
    have hsource : before ++ p.text ++ after = before ++ (p.text ++ after) := List.append_assoc ..
    obtain ⟨last, hafter, hfill⟩ := hlaid.fills
    cases hi : Item.ofShape? (line + Item.newlines p.text) p.shape with
    | none =>
      -- the piece belongs to the gap
      refine ⟨p.text ++ gap, σ, spans, ⟨last, by rw [hafter, List.append_assoc], hp.fills hi hafter hfill⟩, ?_, ?_,
        hlaid.ordered, ?_⟩
      · rw [hlaid.start, List.append_assoc]
      · rw [← hsource]; exact hlaid.placed
      · rw [← hsource]; exact hlaid.filled
    | some item =>
      have hstart : (String.ofList before).utf8ByteSize < (String.ofList (before ++ p.text)).utf8ByteSize := by
        have hne : (String.ofList p.text).utf8ByteSize ≠ 0 := fun hz =>
          hp.text_ne_nil (String.ofList_eq_empty_iff.mp (String.utf8ByteSize_eq_zero_iff.mp hz))
        rw [String.ofList_append, String.utf8ByteSize_append]
        omega
      have hstop : (String.ofList (before ++ p.text)).utf8ByteSize ≤ σ.start := by
        have happend : String.ofList (before ++ p.text ++ gap) = String.ofList (before ++ p.text) ++ String.ofList gap :=
          String.ofList_append
        rw [hlaid.start, happend, String.utf8ByteSize_append]
        exact Nat.le_add_right ..
      refine ⟨[], ⟨(String.ofList before).utf8ByteSize, (String.ofList (before ++ p.text)).utf8ByteSize⟩, σ :: spans,
        ⟨_, rfl, .nil⟩, by rw [List.append_nil], .cons ?_ ?_, List.pairwise_cons.mpr ⟨fun τ hτ => ⟨hstart, ?_⟩, hlaid.ordered⟩,
        List.isChain_cons_cons.mpr ⟨?_, ?_⟩⟩
      · refine ⟨String.ofList before, String.ofList p.text, String.ofList after, ?_, rfl, ?_, ?_⟩
        · rw [← hsource, String.ofList_append, String.ofList_append]
        · rw [String.ofList_append]
        · rw [← String.ofList_append, String.toList_ofList, String.toList_ofList, String.toList_ofList, ← hline']
          exact hp.stands hi
      · rw [← hsource]; exact hlaid.placed
      · cases hτ with
        | head => exact hstop
        | tail _ hτ =>
          have hlt := (List.pairwise_cons.mp hlaid.ordered).1 τ hτ
          exact Nat.le_trans hstop (Nat.le_of_lt (Nat.lt_of_lt_of_le hlt.1 hlt.2))
      · rw [← hsource]; exact hlaid.apart rfl
      · rw [← hsource]; exact hlaid.filled

theorem Scans.ended {line : Nat} {rest : List Char} {items : List Item} (h : Scans line rest items) :
    ∃ before, items = before ++ [.token { kind := .eof, line := line + Item.newlines rest }] ∧
      ∀ line, .token { kind := .eof, line } ∉ before := by
  induction h with
  | done => exact ⟨[], rfl, fun _ => List.not_mem_nil⟩
  | @step line p after items hp _ ih =>
    obtain ⟨before, rfl, hbefore⟩ := ih
    refine ⟨(Item.ofShape? (line + Item.newlines p.text) p.shape).toList ++ before, ?_, fun l hm => ?_⟩
    · simp only [Item.newlines, List.count_append, List.append_assoc, Nat.add_assoc]
    · rcases List.mem_append.mp hm with hm | hm
      · exact hp.ne_eof (Option.mem_toList.mp hm)
      · exact hbefore l hm

/-- The items of every source tile it. -/
theorem items_tile_source (source : String) : ∃ spans, Tiling source (Item.ofSource source) spans := by
  have hscans : Scans 1 source.toList (Item.ofSource source) := .ofPieces 1 source.toList
  obtain ⟨gap, σ, spans, hlaid⟩ := hscans.laid [] rfl
  have hplaced := hlaid.placed
  have happart : Span.Apart _ ⟨0, 0⟩ σ := hlaid.apart rfl
  have hfilled := hlaid.filled
  rw [List.nil_append, String.ofList_toList] at hplaced happart hfilled
  exact ⟨σ :: spans, hplaced, hlaid.ordered, List.isChain_cons_cons.mpr ⟨happart, hfilled⟩, hscans.ended⟩

end Lox
