import Lox.Evaluate
import Lox.Proofs.Number.Texts
import Lox.Proofs.Source.Respaced
import Lox.Syntax.Grammar
import Lox.Syntax.Polish

/-!
# Texts of numbers read back

The text of a finite double without a sign is one number, with this double as its value. The text of a negative double is a
minus before such a number, and evaluates to the negative double.
-/

namespace Lox

open Piece

/-! ## Numbers without a sign -/

namespace Number.Form

variable {form : Form} {x : Float} {m : Nat} {q : Int}

theorem chars_of_finite {negative : Bool} (hsign : form.signsZero = true ∨ negative = false)
    (h : read x = .finite negative m q) : form.chars x = sign negative ++ form.magnitude m q := by
  have hzero : (negative && (form.signsZero || decide (m ≠ 0))) = negative := by
    rcases hsign with hs | hs
    · rw [hs, Bool.true_or, Bool.and_true]
    · rw [hs, Bool.false_and]
  unfold chars magnitude
  rw [h]
  simp only [hzero]
  split
  · rw [List.append_assoc]
  · rfl

/-- The digits of a magnitude are a number of the language. -/
theorem magnitude_lexeme (hend : form.wholeEnd = [] ∨ form.wholeEnd = ['.', '0']) (h : read x = .finite false m q) :
    Lexeme (form.magnitude m q) (.number (String.ofList (form.magnitude m q)) x) ∧
      (∃ c cs, form.magnitude m q = c :: cs ∧ c.isDigit = true) ∧ Item.newlines (form.magnitude m q) = 0 := by
  obtain ⟨whole, fraction, hd, hx⟩ := magnitude_digits hend m q
  refine ⟨numberValue_of_within h hx ▸ hd.lexeme, ?_, List.count_eq_zero.mpr fun hn => ?_⟩
  · obtain ⟨c, cs, hc⟩ := List.exists_cons_of_ne_nil hd.nonempty
    have hdigit : c.isDigit = true := hd.whole c (hc ▸ List.mem_cons_self)
    rw [hd.text, hc, numberText]
    split
    · exact ⟨c, cs, rfl, hdigit⟩
    · exact ⟨c, _, rfl, hdigit⟩
  · rw [hd.text] at hn
    rcases mem_numberText hn with hn | hn | hn
    · exact absurd (hd.whole _ hn) (by decide)
    · exact absurd hn (by decide)
    · exact absurd (hd.fraction _ hn) (by decide)

/-- The text is scanned as one number with this value. -/
theorem ofSource_text (hend : form.wholeEnd = [] ∨ form.wholeEnd = ['.', '0']) (h : read x = .finite false m q) :
    Item.ofSource (form.text x) =
      [.token { kind := .number (form.text x) x, line := 1 }, .token { kind := .eof, line := 1 }] := by
  have hchars : form.chars x = form.magnitude m q := chars_of_finite (.inr rfl) h
  obtain ⟨hlexeme, -, hlines⟩ := magnitude_lexeme hend h
  rw [← hchars] at hlexeme hlines
  have hlist : (form.text x).toList = form.chars x := String.toList_ofList
  rw [← hlist] at hlexeme hlines
  have hscan := ofSource_of_lexeme hlexeme
  rwa [hlines, String.ofList_toList] at hscan

end Number.Form

/-! ## Numbers with a minus -/

theorem cut_minus {c : Char} {cs : List Char} (h : c.isDigit = true) :
    cut '-' (c :: cs) = ({ text := ['-'], shape := .token (.mark .minus) }, c :: cs) := by
  have hpair : Mark.pair? '-' c = none := by
    unfold Mark.pair?
    split <;> first | rfl | exact absurd h (by decide)
  have hcut : cut '-' (c :: cs) = cutMark '-' (c :: cs) := rfl
  rw [hcut, cutMark, hpair]
  rfl

/-- A minus before a number. -/
theorem ofSource_of_minus {text : String} {cs : List Char} {kind : Token.Kind} (htext : text.toList = '-' :: cs)
    (h : Lexeme cs kind) (hfirst : ∃ d ds, cs = d :: ds ∧ d.isDigit = true) (hlines : Item.newlines cs = 0) :
    Item.ofSource text = [.token { kind := .mark .minus, line := 1 }, .token { kind, line := 1 },
      .token { kind := .eof, line := 1 }] := by
  have hscans := Scans.last_lexeme (h.text_eq ▸ h) 1
  rw [← h.text_eq, hlines] at hscans
  obtain ⟨d, ds, rfl, hd⟩ := hfirst
  rw [Item.ofSource, htext, ofChars_cons, cut_minus hd, Item.ofPieces]
  exact congrArg (_ :: ·) hscans.eq_ofPieces.symm

/-- A literal with a minus before it. -/
theorem parseExpression_of_minus (text : String) (x : Float) (nextId : NodeId) :
    parseExpression [{ kind := .mark .minus, line := 1 }, { kind := .number text x, line := 1 }, { kind := .eof, line := 1 }]
      nextId = { tree := some (.unary .minus 1 (.literal (.number x))), errors := [], nextId } := rfl

theorem evaluate_minus (x : Float) (line fuel : Nat) (m : Machine) :
    Eval.evaluate (fuel + 2) (.unary .minus line (.literal (.number x))) m = .done (.number (-x)) m := rfl

/-! ## Reading back -/

/-- Each way to write a finite double without a sign gives one number with this double as its value. What is shown of a finite
double with a sign is an expression that evaluates to it. -/
theorem number_texts_read_back (x : Float) :
    (∀ m q, Number.read x = .finite false m q → ∀ digits line, ∀ text ∈ [(Value.number x).text,
      (Expr.literal (.number x)).polish, (Expr.literal (.number x)).reversePolish,
      Token.literalText { kind := .number digits x, line }],
      Item.ofSource text = [.token { kind := .number text x, line := 1 }, .token { kind := .eof, line := 1 }]) ∧
    ∀ m q, Number.read x = .finite true m q → ∀ nextId, ∃ e : Expr,
      errorsOf (Item.ofSource (Value.number x).text) = [] ∧
      parseExpression (tokensOf (Item.ofSource (Value.number x).text)) nextId = { tree := some e, errors := [], nextId } ∧
      ∀ fuel machine, Eval.evaluate (fuel + 2) e machine = .done (.number x) machine := by
  refine ⟨fun m q h digits line text htext => ?_, fun m q h nextId => ?_⟩
  · simp only [List.mem_cons, List.not_mem_nil, or_false] at htext
    rcases htext with rfl | rfl | rfl | rfl
    · exact Number.Form.ofSource_text (.inl rfl) h
    · exact Number.Form.ofSource_text (.inr rfl) h
    · exact Number.Form.ofSource_text (.inl rfl) h
    · exact Number.Form.ofSource_text (.inr rfl) h
  · have hpos : Number.read (-x) = .finite false m q := Number.read_neg h
    have hend : Number.Form.value.wholeEnd = [] ∨ Number.Form.value.wholeEnd = ['.', '0'] := .inl rfl
    obtain ⟨hlexeme, hfirst, hlines⟩ := Number.Form.magnitude_lexeme hend hpos
    have hchars : Number.Form.value.chars x = '-' :: Number.Form.value.magnitude m q :=
      Number.Form.chars_of_finite (.inl rfl) h
    have htext : (Value.number x).text.toList = '-' :: Number.Form.value.magnitude m q := String.toList_ofList.trans hchars
    rw [ofSource_of_minus htext hlexeme hfirst hlines]
    refine ⟨_, rfl, parseExpression_of_minus _ (-x) nextId, fun fuel machine => ?_⟩
    rw [evaluate_minus, Number.neg_neg_of_finite h]

/-- The double `2 ^ 63`, the first whole one that a token shows by its shortest decimal, and negative zero. -/
theorem number_texts_of_limits :
    Item.ofSource (Token.literalText { kind := .number "" (Float.ofBits 0x43E0000000000000), line := 1 }) =
      [.token { kind := .number "9223372036854776000" (Float.ofBits 0x43E0000000000000), line := 1 },
        .token { kind := .eof, line := 1 }] ∧
    ∃ e : Expr, parseExpression (tokensOf (Item.ofSource "-0")) 0 = { tree := some e, errors := [], nextId := 0 } ∧
      ∀ fuel machine, Eval.evaluate (fuel + 2) e machine = .done (.number (Float.ofBits 0x8000000000000000)) machine := by
  have hlimit : Number.read (Float.ofBits 0x43E0000000000000) = .finite false 4503599627370496 11 := by decide +kernel
  have hzero : Number.read (Float.ofBits 0x8000000000000000) = .finite true 0 (-1074) := by decide +kernel
  have hshown : Token.literalText { kind := .number "" (Float.ofBits 0x43E0000000000000), line := 1 } =
      "9223372036854776000" := by decide +kernel
  have hshown' : (Value.number (Float.ofBits 0x8000000000000000)).text = "-0" := by decide +kernel
  have htoken := (number_texts_read_back _).1 _ _ hlimit "" 1 _ (.tail _ (.tail _ (.tail _ (.head _))))
  obtain ⟨e, -, hparse, heval⟩ := (number_texts_read_back _).2 _ _ hzero 0
  rw [hshown] at htoken
  rw [hshown'] at hparse
  rw [hshown]
  exact ⟨htoken, e, hparse, heval⟩

end Lox
