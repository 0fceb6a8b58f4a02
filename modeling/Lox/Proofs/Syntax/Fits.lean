import Lox.Proofs.Syntax.Proper
import Lox.Proofs.Syntax.Written
import Lox.Syntax.Grammar

/-!
# Trees that stand for what is written

What the grammar asks of a tree beyond its constructors: that no operand is weaker than its place, that the branches of a
statement are no declarations, that an `else` belongs to the nearest `if`, and that lists are not too long.
-/

namespace Lox

/-! ## Precedence -/

/-- The strength of an operator between two operands, if the mark is one. -/
def Mark.rank : Mark → Nat
  | .equalEqual | .bangEqual => 3
  | .greater | .greaterEqual | .less | .lessEqual => 4
  | .plus | .minus => 5
  | .star | .slash | .percent => 6
  | _ => 0

def LogicalOp.rank : LogicalOp → Nat
  | .or => 1
  | .and => 2

namespace Rank

abbrev assignment : Nat := 0

abbrev unary : Nat := 7

abbrev call : Nat := 8

abbrev primary : Nat := 9

end Rank

/-- The weakest operator outside of all parentheses and bodies. -/
def Expr.rank : Expr → Nat
  | .assign .. | .set .. => Rank.assignment
  | .logical op .. => op.rank
  | .binary op .. => op.rank
  | .unary .. => Rank.unary
  | .call .. | .get .. => Rank.call
  | .literal _ | .group _ | .var .. | .lambda .. | .this .. | .super .. => Rank.primary

theorem Mark.rank_lt (op : Mark) : op.rank < Rank.unary := by cases op <;> decide

theorem LogicalOp.rank_lt (op : LogicalOp) : op.rank < Rank.unary := by cases op <;> decide

theorem Expr.rank_le (e : Expr) : e.rank ≤ Rank.primary := by
  cases e with
  | binary op => exact Nat.le_trans (Nat.le_of_lt op.rank_lt) (by decide)
  | logical op => exact Nat.le_trans (Nat.le_of_lt op.rank_lt) (by decide)
  | _ => exact Nat.le_of_ble_eq_true rfl

/-! ## Statements -/

def Stmt.isDeclaration : Stmt → Bool
  | .varDecl .. | .funDecl .. | .classDecl .. => true
  | _ => false

/-- An `else` after the statement would belong to an `if` in it. -/
def Stmt.endsOpen : Stmt → Bool
  | .branch _ _ none => true
  | .branch _ _ (some elseBranch) => elseBranch.endsOpen
  | .loop _ body => body.endsOpen
  | _ => false

section
variable (short : Prop)

mutual

/-- `short` lets lambdas have an expression as their body. -/
def Expr.Fits : Expr → Prop
  | .literal _ => True
  | .unary op _ e => op.isUnary = true ∧ Rank.unary ≤ e.rank ∧ e.Fits
  | .binary op _ left right => 0 < op.rank ∧ op.rank ≤ left.rank ∧ op.rank < right.rank ∧ left.Fits ∧ right.Fits
  | .logical op _ left right => op.rank ≤ left.rank ∧ op.rank < right.rank ∧ left.Fits ∧ right.Fits
  | .group inner => inner.Fits
  | .var _ _ => True
  | .assign _ _ value => value.Fits
  | .call callee _ arguments => Rank.call ≤ callee.rank ∧ arguments.length ≤ maxArity ∧ callee.Fits ∧ FitsExprs arguments
  | .lambda _ routine => routine.Fits short
  | .get object _ => Rank.call ≤ object.rank ∧ object.Fits
  | .set object _ value => Rank.call ≤ object.rank ∧ object.Fits ∧ value.Fits
  | .this _ _ => True
  | .super _ _ _ => True

def FitsExprs : List Expr → Prop
  | [] => True
  | e :: es => e.Fits ∧ FitsExprs es

/-- A return of the form `:` stands for the body of its function, and nowhere else. -/
def Stmt.Fits : Stmt → Prop
  | .expr e => e.Fits
  | .print e => e.Fits
  | .varDecl _ none => True
  | .varDecl _ (some e) => e.Fits
  | .block body => FitsStmts body
  | .branch condition thenBranch none => condition.Fits ∧ thenBranch.isDeclaration = false ∧ thenBranch.Fits
  | .branch condition thenBranch (some elseBranch) =>
    condition.Fits ∧ thenBranch.isDeclaration = false ∧ thenBranch.endsOpen = false ∧ thenBranch.Fits ∧
      elseBranch.isDeclaration = false ∧ elseBranch.Fits
  | .loop condition body => condition.Fits ∧ body.isDeclaration = false ∧ body.Fits
  | .funDecl _ routine => routine.Fits True
  | .returns .keyword _ none => True
  | .returns .keyword _ (some e) => e.Fits
  | .returns .expressionBody _ _ => False
  | .breaks _ => True
  | .classDecl _ _ methods statics => FitsMethods methods ∧ FitsMethods statics

def FitsStmts : List Stmt → Prop
  | [] => True
  | st :: sts => st.Fits ∧ FitsStmts sts

def Routine.Fits : Routine → (shortBody : Prop) → Prop
  | ⟨params, body⟩, shortBody => params.length ≤ maxArity ∧ (FitsStmts body ∨ (shortBody ∧ FitsShort body))

def FitsShort : List Stmt → Prop
  | [.returns .expressionBody _ (some e)] => e.Fits
  | _ => False

def Method.Fits : Method → Prop
  | ⟨_, isGetter, routine⟩ => (isGetter = true → routine.params = []) ∧ routine.Fits True

def FitsMethods : List Method → Prop
  | [] => True
  | m :: ms => m.Fits ∧ FitsMethods ms

end

/-- A body is written so, as a block or, if it may be one, as an expression. -/
def BodySpelled (shortBody : Prop) (closed : Bool) (body : List Stmt) (ks : List Token.Kind) : Prop :=
  (FitsStmts short body ∧ ∃ inner, ks = .mark .leftBrace :: inner ++ [.mark .rightBrace] ∧ WrittenStmts body inner) ∨
    (shortBody ∧ FitsShort short body ∧ WrittenShort body closed ks)

end

theorem FitsShort.cases {short : Prop} : ∀ {body : List Stmt}, FitsShort short body →
    ∃ line e, body = [.returns .expressionBody line (some e)] ∧ e.Fits short
  | [.returns .expressionBody line (some e)], h => ⟨line, e, rfl, h⟩

open Token (Kind)

section
variable {short shortBody : Prop} {params : List Name} {body : List Stmt} {isGetter closed : Bool} {ks rest : List Kind}

/-- A body that fits as a block is written as one, and a body that fits as an expression is written as that. -/
theorem Routine.Fits.body_spelled (hfit : (Routine.mk params body).Fits short shortBody)
    (hk : (Routine.mk params body).Written isGetter closed ks) :
    ∃ kb, ks = parameterKinds isGetter params ++ kb ∧ BodySpelled short shortBody closed body kb := by
  obtain ⟨kb, hks, hk⟩ := hk
  refine ⟨kb, hks, ?_⟩
  rcases hk with ⟨inner, hkb, hk⟩ | hk <;> rcases hfit.2 with h | ⟨hs, h⟩
  · exact .inl ⟨h, inner, hkb, hk⟩
  · obtain ⟨line, e, rfl, -⟩ := h.cases
    obtain ⟨_, _, _, hk, -⟩ := hk
    exact hk.elim
  · obtain ⟨line, e, ke, rfl, -⟩ := hk.cases
    exact h.1.elim
  · exact .inr ⟨hs, h, hk⟩

theorem BodySpelled.routine (h : BodySpelled short shortBody closed body ks) (isGetter : Bool)
    (hlen : params.length ≤ maxArity) :
    (Routine.mk params body).Written isGetter closed (parameterKinds isGetter params ++ ks) ∧
      (Routine.mk params body).Fits short shortBody := by
  rcases h with ⟨hf, inner, rfl, hw⟩ | ⟨hs, hf, hw⟩
  · exact ⟨⟨_, rfl, .inl ⟨inner, rfl, hw⟩⟩, hlen, .inl hf⟩
  · exact ⟨⟨_, rfl, .inr hw⟩, hlen, .inr ⟨hs, hf⟩⟩

theorem BodySpelled.no_parenthesis (h : BodySpelled short shortBody closed body ks) :
    (ks ++ rest).head? ≠ some (.mark .leftParen) := by
  rcases h with ⟨-, inner, rfl, -⟩ | ⟨-, -, hw⟩
  · nofun
  · obtain ⟨_, _, _, rfl, rfl, -⟩ := hw.cases
    nofun

end

/-! ## Writing them -/

theorem Literal.exists_written : ∀ value : Literal, ∃ ks, value.Written ks
  | .nil => ⟨_, rfl⟩
  | .bool true => ⟨_, rfl⟩
  | .bool false => ⟨_, rfl⟩
  | .number _ => ⟨_, "", rfl⟩
  | .string _ => ⟨_, rfl⟩

section
variable {short : Prop}

mutual

/-- A tree that fits can be written out. -/
theorem Expr.Fits.exists_written : ∀ {e : Expr}, e.Fits short → ∃ ks, e.Written ks
  | .literal value, _ => value.exists_written
  | .unary _ _ _, ⟨_, _, h⟩ =>
    have ⟨_, hk⟩ := Expr.Fits.exists_written h
    ⟨_, _, rfl, hk⟩
  | .binary _ _ _ _, ⟨_, _, _, hl, hr⟩ =>
    have ⟨_, hkl⟩ := Expr.Fits.exists_written hl
    have ⟨_, hkr⟩ := Expr.Fits.exists_written hr
    ⟨_, _, _, rfl, hkl, hkr⟩
  | .logical _ _ _ _, ⟨_, _, hl, hr⟩ =>
    have ⟨_, hkl⟩ := Expr.Fits.exists_written hl
    have ⟨_, hkr⟩ := Expr.Fits.exists_written hr
    ⟨_, _, _, rfl, hkl, hkr⟩
  | .group e, h =>
    have ⟨_, hk⟩ := Expr.Fits.exists_written (e := e) h
    ⟨_, _, rfl, hk⟩
  | .var _ _, _ => ⟨_, rfl⟩
  | .assign _ _ e, h =>
    have ⟨_, hk⟩ := Expr.Fits.exists_written (e := e) h
    ⟨_, _, rfl, hk⟩
  | .call _ _ _, ⟨_, _, hc, ha⟩ =>
    have ⟨_, hkc⟩ := Expr.Fits.exists_written hc
    have ⟨_, hka⟩ := FitsExprs.exists_written ha
    ⟨_, _, _, rfl, hkc, hka⟩
  | .lambda _ _, h =>
    have ⟨_, hk⟩ := Routine.Fits.exists_written h false false
    ⟨_, _, rfl, hk⟩
  | .get _ _, ⟨_, h⟩ =>
    have ⟨_, hk⟩ := Expr.Fits.exists_written h
    ⟨_, _, rfl, hk⟩
  | .set _ _ _, ⟨_, ho, hv⟩ =>
    have ⟨_, hko⟩ := Expr.Fits.exists_written ho
    have ⟨_, hkv⟩ := Expr.Fits.exists_written hv
    ⟨_, _, _, rfl, hko, hkv⟩
  | .this _ _, _ => ⟨_, rfl⟩
  | .super _ _ _, _ => ⟨_, rfl⟩

theorem FitsExprs.exists_written : ∀ {es : List Expr}, FitsExprs short es → ∃ ks, WrittenExprs es ks
  | [], _ => ⟨_, rfl⟩
  | [_], ⟨h, _⟩ => Expr.Fits.exists_written h
  | _ :: _ :: _, ⟨h, hs⟩ =>
    have ⟨_, hk⟩ := Expr.Fits.exists_written h
    have ⟨_, hks⟩ := FitsExprs.exists_written hs
    ⟨_, _, _, rfl, hk, hks⟩

theorem Stmt.Fits.exists_written : ∀ {st : Stmt}, st.Fits short → ∃ ks, st.Written ks
  | .expr _, h =>
    have ⟨_, hk⟩ := Expr.Fits.exists_written h
    ⟨_, _, rfl, hk⟩
  | .print _, h =>
    have ⟨_, hk⟩ := Expr.Fits.exists_written h
    ⟨_, _, rfl, hk⟩
  | .varDecl _ none, _ => ⟨_, rfl⟩
  | .varDecl _ (some _), h =>
    have ⟨_, hk⟩ := Expr.Fits.exists_written h
    ⟨_, _, rfl, hk⟩
  | .block _, h =>
    have ⟨_, hk⟩ := FitsStmts.exists_written h
    ⟨_, _, rfl, hk⟩
  | .branch _ _ none, ⟨hc, _, ht⟩ =>
    have ⟨_, hkc⟩ := Expr.Fits.exists_written hc
    have ⟨_, hkt⟩ := Stmt.Fits.exists_written ht
    ⟨_, _, _, rfl, hkc, hkt⟩
  | .branch _ _ (some _), ⟨hc, _, _, ht, _, he⟩ =>
    have ⟨_, hkc⟩ := Expr.Fits.exists_written hc
    have ⟨_, hkt⟩ := Stmt.Fits.exists_written ht
    have ⟨_, hke⟩ := Stmt.Fits.exists_written he
    ⟨_, _, _, _, rfl, hkc, hkt, hke⟩
  | .loop _ _, ⟨hc, _, hb⟩ =>
    have ⟨_, hkc⟩ := Expr.Fits.exists_written hc
    have ⟨_, hkb⟩ := Stmt.Fits.exists_written hb
    ⟨_, _, _, rfl, hkc, hkb⟩
  | .funDecl _ _, h =>
    have ⟨_, hk⟩ := Routine.Fits.exists_written h false true
    ⟨_, _, rfl, hk⟩
  | .returns .keyword _ none, _ => ⟨_, rfl⟩
  | .returns .keyword _ (some _), h =>
    have ⟨_, hk⟩ := Expr.Fits.exists_written h
    ⟨_, _, rfl, hk⟩
  | .breaks _, _ => ⟨_, rfl⟩
  | .classDecl _ _ _ _, ⟨hm, hs⟩ =>
    have ⟨_, hkm⟩ := FitsMethods.exists_written hm
    have ⟨_, hks⟩ := FitsMethods.exists_written hs
    ⟨_, _, _, _, rfl, hkm, hks, .append _ _⟩

theorem FitsStmts.exists_written : ∀ {sts : List Stmt}, FitsStmts short sts → ∃ ks, WrittenStmts sts ks
  | [], _ => ⟨_, rfl⟩
  | _ :: _, ⟨h, hs⟩ =>
    have ⟨_, hk⟩ := Stmt.Fits.exists_written h
    have ⟨_, hks⟩ := FitsStmts.exists_written hs
    ⟨_, _, _, rfl, hk, hks⟩

theorem Routine.Fits.exists_written : ∀ {routine : Routine} {shortBody : Prop}, routine.Fits short shortBody →
    ∀ isGetter closed, ∃ ks, routine.Written isGetter closed ks
  | ⟨_, _⟩, _, ⟨_, .inl h⟩, _, _ =>
    have ⟨_, hk⟩ := FitsStmts.exists_written h
    ⟨_, _, rfl, .inl ⟨_, rfl, hk⟩⟩
  | ⟨_, _⟩, _, ⟨_, .inr ⟨_, h⟩⟩, _, closed =>
    have ⟨_, hk⟩ := FitsShort.exists_written h closed
    ⟨_, _, rfl, .inr hk⟩

theorem FitsShort.exists_written : ∀ {body : List Stmt}, FitsShort short body → ∀ closed, ∃ ks, WrittenShort body closed ks
  | [.returns .expressionBody _ (some _)], h, _ =>
    have ⟨_, hk⟩ := Expr.Fits.exists_written h
    ⟨_, _, rfl, hk⟩

theorem Method.Fits.exists_written : ∀ {m : Method}, m.Fits short → ∃ ks, m.Written ks
  | ⟨_, isGetter, _⟩, ⟨_, h⟩ =>
    have ⟨_, hk⟩ := Routine.Fits.exists_written h isGetter true
    ⟨_, _, rfl, hk⟩

theorem FitsMethods.exists_written : ∀ {ms : List Method}, FitsMethods short ms → ∃ pieces, WrittenMethods ms pieces
  | [], _ => ⟨_, rfl⟩
  | _ :: _, ⟨h, hs⟩ =>
    have ⟨_, hk⟩ := Method.Fits.exists_written h
    have ⟨_, hks⟩ := FitsMethods.exists_written hs
    ⟨_, _, _, rfl, hk, hks⟩

end

end

end Lox
