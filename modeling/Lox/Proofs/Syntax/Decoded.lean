import Lox.Proofs.Number.ReadBack
import Lox.Proofs.Syntax.Scanned
import Lox.Proofs.Syntax.Sexp
import Lox.Proofs.Syntax.Written

/-!
# Expressions read back from the prefix form

Every word of the prefix form is a token. Which token it is, and how many items it is applied to, tells what expression it
stands for, unless there are lambdas, strings or infinite numbers: only these are not shown as they are.
-/

namespace Lox

open Piece

mutual

/-- There is no lambda, no string and no infinite number. -/
def Expr.Shown : Expr → Prop
  | .literal (.string _) => False
  | .literal (.number x) => ∀ negative, Number.read x ≠ .infinite negative
  | .literal _ => True
  | .unary _ _ operand => operand.Shown
  | .binary _ _ left right => left.Shown ∧ right.Shown
  | .logical _ _ left right => left.Shown ∧ right.Shown
  | .group inner => inner.Shown
  | .var _ _ => True
  | .assign _ _ value => value.Shown
  | .call callee _ arguments => callee.Shown ∧ AllShown arguments
  | .lambda _ _ => False
  | .get object _ => object.Shown
  | .set object _ value => object.Shown ∧ value.Shown
  | .this _ _ => True
  | .super _ _ _ => True

def AllShown : List Expr → Prop
  | [] => True
  | e :: es => e.Shown ∧ AllShown es

end

/-! ## Words are tokens -/

/-- The token with which the text begins. -/
def kindOf? (text : String) : Option Token.Kind := (tokensOf (Item.ofSource text)).head?.map Token.kind

/-- Strings and parentheses are no words. -/
def Token.Kind.isWord : Token.Kind → Bool
  | .string _ | .mark .leftParen | .mark .rightParen => false
  | _ => true

section
variable {text : String} {kind : Token.Kind}

theorem kindOf?_of_lexeme (h : Lexeme text.toList kind) : kindOf? text = some kind := by
  rw [kindOf?, ofSource_of_lexeme h]
  rfl

theorem not_divides_of_continuesWord {c : Char} (h : continuesWord c = true) : divides c = false := by
  simp only [divides, Bool.or_eq_false_iff, decide_eq_false_iff_not, and_assoc]
  refine ⟨?_, ?_, ?_⟩
  all_goals
    rintro rfl
    exact absurd h (by decide)

theorem not_divides_of_isDigit {c : Char} (h : c.isDigit = true) : divides c = false :=
  not_divides_of_continuesWord (by simp [continuesWord, Char.isAlphanum, h])

theorem Mark.not_divides {m : Mark} (hw : (Token.Kind.mark m).isWord = true) :
    ∀ c ∈ m.spelling.toList, divides c = false := by
  revert hw
  cases m <;> simp [Token.Kind.isWord, spelling, divides]

theorem Lexeme.undivided (h : Lexeme text.toList kind) (hw : kind.isWord = true) : Undivided text := by
  refine ⟨h.ne_nil, fun c hc => ?_⟩
  have hform := h.form
  generalize text.toList = cs at hc hform
  cases hform with
  | string => cases hw
  | number _ hdigits =>
    rw [hdigits.text] at hc
    rcases mem_numberText hc with hc | rfl | hc
    · exact not_divides_of_isDigit (hdigits.whole c hc)
    · rfl
    · exact not_divides_of_isDigit (hdigits.fraction c hc)
  | word _ hword => exact not_divides_of_continuesWord (hword.continues c hc)
  | mark _ _ _ _ hm => exact Mark.not_divides hw c (hm ▸ hc)

end

/-- The text of a number without a sign is a number. -/
theorem Number.Unsigned.lexeme {x : Float} (h : Number.Unsigned x) (hx : ∀ negative, Number.read x ≠ .infinite negative) :
    Lexeme (Number.Form.literal.text x).toList (.number (Number.Form.literal.text x) x) := by
  obtain ⟨m, q, hread⟩ | hread := h
  · have hchars : Number.Form.literal.chars x = Number.Form.literal.magnitude m q := Number.Form.chars_of_finite (.inr rfl) hread
    have hend : Number.Form.literal.wholeEnd = [] ∨ Number.Form.literal.wholeEnd = ['.', '0'] := .inr rfl
    have hlexeme := (Number.Form.magnitude_lexeme hend hread).1
    rw [← hchars] at hlexeme
    rwa [Number.Form.text, String.toList_ofList]
  · exact absurd hread (hx false)

theorem LogicalOp.lexeme (op : LogicalOp) : Lexeme op.symbol.toList (.keyword op.keyword) := by
  cases op with
  | and => exact .keyword .and
  | or => exact .keyword .or

/-- What a group and a call are headed by could be names, too. -/
theorem lexeme_group : Lexeme "group".toList (.identifier "group") := IsWord.lexeme ⟨by decide, List.all_eq_true.mp (by decide)⟩

theorem lexeme_call : Lexeme "call".toList (.identifier "call") := IsWord.lexeme ⟨by decide, List.all_eq_true.mp (by decide)⟩

theorem Mark.isWord_of_isUnary {op : Mark} (h : op.isUnary = true) : (Token.Kind.mark op).isWord = true := by
  cases op <;> first | rfl | cases h

theorem Mark.isWord_of_isBinary {op : Mark} (h : op.isBinary = true) : (Token.Kind.mark op).isWord = true := by
  cases op <;> first | rfl | cases h

mutual

theorem Expr.Scanned.ofWords : ∀ {e : Expr}, e.Scanned → e.Shown → e.sexp.OfWords
  | .literal .nil, _, _ => Lexeme.undivided (.keyword .nil) rfl
  | .literal (.bool true), _, _ => Lexeme.undivided (.keyword .true) rfl
  | .literal (.bool false), _, _ => Lexeme.undivided (.keyword .false) rfl
  | .literal (.number _), h, hs => (Number.Unsigned.lexeme h hs).undivided rfl
  | .unary _ _ _, h, hs => ⟨(Lexeme.mark _).undivided (Mark.isWord_of_isUnary h.1), h.2.ofWords hs, trivial⟩
  | .binary _ _ _ _, h, hs =>
    ⟨(Lexeme.mark _).undivided (Mark.isWord_of_isBinary h.1), h.2.1.ofWords hs.1, h.2.2.ofWords hs.2, trivial⟩
  | .logical op _ _ _, h, hs => ⟨op.lexeme.undivided rfl, h.1.ofWords hs.1, h.2.ofWords hs.2, trivial⟩
  | .group inner, h, hs => ⟨lexeme_group.undivided rfl, @Expr.Scanned.ofWords inner h hs, trivial⟩
  | .var _ _, h, _ => Lexeme.undivided h rfl
  | .assign _ _ _, h, hs => ⟨(Lexeme.mark .equal).undivided rfl, Lexeme.undivided h.1 rfl, h.2.ofWords hs, trivial⟩
  | .call _ _ _, h, hs => ⟨lexeme_call.undivided rfl, h.1.ofWords hs.1, h.2.ofWords hs.2⟩
  | .get _ _, h, hs => ⟨(Lexeme.mark .dot).undivided rfl, h.1.ofWords hs, Lexeme.undivided h.2 rfl, trivial⟩
  | .set _ _ _, h, hs =>
    have hget := ⟨(Lexeme.mark .dot).undivided rfl, h.1.ofWords hs.1, Lexeme.undivided h.2.1 rfl, trivial⟩
    ⟨(Lexeme.mark .equal).undivided rfl, hget, h.2.2.ofWords hs.2, trivial⟩
  | .this _ _, _, _ => Lexeme.undivided (.keyword .this) rfl
  | .super _ _ _, h, _ => ⟨Lexeme.undivided (.keyword .super) rfl, Lexeme.undivided h rfl, trivial⟩

theorem AllScanned.ofWords : ∀ {es : List Expr}, AllScanned es → AllShown es → AllOfWords (sexpExprs es)
  | [], _, _ => trivial
  | _ :: _, h, hs => ⟨h.1.ofWords hs.1, h.2.ofWords hs.2⟩

end

/-! ## Reading back -/

/-- The expression of one token. -/
def Expr.ofKind? : Token.Kind → Option Expr
  | .keyword .nil => some (.literal .nil)
  | .keyword .true => some (.literal (.bool true))
  | .keyword .false => some (.literal (.bool false))
  | .keyword .this => some (.this 0 0)
  | .number _ x => some (.literal (.number x))
  | .identifier text => some (.var 0 { text, line := 0 })
  | _ => none

/-- The expression of a head and what it is applied to. What is assigned to tells an assignment from a property that is set. -/
def Expr.applied? : Token.Kind → List Expr → Option Expr
  | .mark .equal, [.var _ name, value] => some (.assign 0 name value)
  | .mark .equal, [.get object name, value] => some (.set object name value)
  | .mark .dot, [object, .var _ name] => some (.get object name)
  | .mark op, [operand] => some (.unary op 0 operand)
  | .mark op, [left, right] => some (.binary op 0 left right)
  | .keyword .and, [left, right] => some (.logical .and 0 left right)
  | .keyword .or, [left, right] => some (.logical .or 0 left right)
  | .keyword .super, [.var _ method] => some (.super 0 0 method)
  | .identifier "group", [inner] => some (.group inner)
  | .identifier "call", callee :: arguments => some (.call callee 0 arguments)
  | _, _ => none

mutual

def Sexp.expr? : Sexp → Option Expr
  | .word text => (kindOf? text).bind Expr.ofKind?
  | .node head items => (kindOf? head).bind fun kind => (exprs? items).bind (Expr.applied? kind)

def exprs? : List Sexp → Option (List Expr)
  | [] => some []
  | s :: ss => s.expr?.bind fun e => (exprs? ss).map (e :: ·)

end

section
variable {text : String} {kind : Token.Kind}

theorem expr?_word (h : Lexeme text.toList kind) : (Sexp.word text).expr? = Expr.ofKind? kind := by
  rw [Sexp.expr?, kindOf?_of_lexeme h]
  rfl

theorem expr?_node {items : List Sexp} {es : List Expr} (h : Lexeme text.toList kind) (hitems : exprs? items = some es) :
    (Sexp.node text items).expr? = Expr.applied? kind es := by
  rw [Sexp.expr?, kindOf?_of_lexeme h, hitems]
  rfl

theorem exprs?_cons {s : Sexp} {ss : List Sexp} {e : Expr} {es : List Expr} (h : s.expr? = some e) (hs : exprs? ss = some es) :
    exprs? (s :: ss) = some (e :: es) := by
  rw [exprs?, h, hs]
  rfl

theorem exprs?_single {s : Sexp} {e : Expr} (h : s.expr? = some e) : exprs? [s] = some [e] := exprs?_cons h rfl

theorem exprs?_pair {s s' : Sexp} {e e' : Expr} (h : s.expr? = some e) (h' : s'.expr? = some e') :
    exprs? [s, s'] = some [e, e'] :=
  exprs?_cons h (exprs?_single h')

end

theorem expr?_name {name : Name} (h : name.IsIdentifier) :
    (Sexp.word name.text).expr? = some (.var 0 (name.relined Recoding.blank.lineOf)) := expr?_word h

theorem applied?_unary {op : Mark} (h : op.isUnary = true) (operand : Expr) :
    Expr.applied? (.mark op) [operand] = some (.unary op 0 operand) := by
  cases op <;> first | rfl | cases h

theorem applied?_binary {op : Mark} (h : op.isBinary = true) (left right : Expr) :
    Expr.applied? (.mark op) [left, right] = some (.binary op 0 left right) := by
  cases op <;> first | rfl | cases h

theorem applied?_logical (op : LogicalOp) (left right : Expr) :
    Expr.applied? (.keyword op.keyword) [left, right] = some (.logical op 0 left right) := by
  cases op <;> rfl

mutual

theorem Expr.Scanned.expr?_sexp : ∀ {e : Expr}, e.Scanned → e.Shown → e.sexp.expr? = some (e.recoded .blank)
  | .literal .nil, _, _ => expr?_word (.keyword .nil)
  | .literal (.bool true), _, _ => expr?_word (.keyword .true)
  | .literal (.bool false), _, _ => expr?_word (.keyword .false)
  | .literal (.number _), h, hs => expr?_word (Number.Unsigned.lexeme h hs)
  | .unary _ _ _, h, hs =>
    (expr?_node (.mark _) (exprs?_single (h.2.expr?_sexp hs))).trans (applied?_unary h.1 _)
  | .binary _ _ _ _, h, hs =>
    (expr?_node (.mark _) (exprs?_pair (h.2.1.expr?_sexp hs.1) (h.2.2.expr?_sexp hs.2))).trans (applied?_binary h.1 _ _)
  | .logical op _ _ _, h, hs =>
    (expr?_node op.lexeme (exprs?_pair (h.1.expr?_sexp hs.1) (h.2.expr?_sexp hs.2))).trans (applied?_logical op _ _)
  | .group inner, h, hs => expr?_node lexeme_group (exprs?_single (@Expr.Scanned.expr?_sexp inner h hs))
  | .var _ _, h, _ => expr?_name h
  | .assign _ _ _, h, hs => expr?_node (.mark .equal) (exprs?_pair (expr?_name h.1) (h.2.expr?_sexp hs))
  | .call _ _ _, h, hs => expr?_node lexeme_call (exprs?_cons (h.1.expr?_sexp hs.1) (h.2.exprs?_sexpExprs hs.2))
  | .get _ _, h, hs => expr?_node (.mark .dot) (exprs?_pair (h.1.expr?_sexp hs) (expr?_name h.2))
  | .set _ _ _, h, hs =>
    have hget := expr?_node (.mark .dot) (exprs?_pair (h.1.expr?_sexp hs.1) (expr?_name h.2.1))
    expr?_node (.mark .equal) (exprs?_pair hget (h.2.2.expr?_sexp hs.2))
  | .this _ _, _, _ => expr?_word (.keyword .this)
  | .super _ _ _, h, _ => expr?_node (.keyword .super) (exprs?_single (expr?_name h))

theorem AllScanned.exprs?_sexpExprs : ∀ {es : List Expr}, AllScanned es → AllShown es →
    exprs? (sexpExprs es) = some (recodedExprs .blank es)
  | [], _, _ => rfl
  | _ :: _, h, hs => exprs?_cons (h.1.expr?_sexp hs.1) (h.2.exprs?_sexpExprs hs.2)

end

/-- The same prefix form is that of the same expression, but for lines and identities. -/
theorem Expr.alike_of_polish_eq {e e' : Expr} (h : e.Scanned) (h' : e'.Scanned) (hs : e.Shown) (hs' : e'.Shown)
    (heq : e.polish = e'.polish) : e.Alike e' := by
  have hchars : e.sexp.chars = e'.sexp.chars := by rw [← e.toList_polish, ← e'.toList_polish, heq]
  have hsexp := Sexp.eq_of_chars_eq (h.ofWords hs) (h'.ofWords hs') hchars
  have hread : some (e.recoded .blank) = some (e'.recoded .blank) := by
    rw [← h.expr?_sexp hs, ← h'.expr?_sexp hs', hsexp]
  exact Option.some.inj hread

end Lox
