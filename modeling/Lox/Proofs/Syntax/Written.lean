import Lox.Syntax.Basic

/-!
# Trees written out

The kinds of tokens that a tree is written with: a group in parentheses, a method that is a getter without a parameter
list, and a return of the form `:` as the body of its function. A number may have any digits with its value, and the
static members of a class may stand anywhere among the others.
-/

namespace Lox

open Token (Kind)

/-- The lists in one, each in its order. -/
inductive Interleaves {α : Type} : List α → List α → List α → Prop
  | nil : Interleaves [] [] []
  | left {x xs ys zs} : Interleaves xs ys zs → Interleaves (x :: xs) ys (x :: zs)
  | right {y xs ys zs} : Interleaves xs ys zs → Interleaves xs (y :: ys) (y :: zs)

theorem Interleaves.append {α : Type} : ∀ xs ys : List α, Interleaves xs ys (xs ++ ys)
  | [], [] => .nil
  | [], _ :: ys => .right (append [] ys)
  | _ :: xs, ys => .left (append xs ys)

def Literal.Written : Literal → List Kind → Prop
  | .nil, ks => ks = [.keyword .nil]
  | .bool true, ks => ks = [.keyword .true]
  | .bool false, ks => ks = [.keyword .false]
  | .number x, ks => ∃ digits, ks = [.number digits x]
  | .string s, ks => ks = [.string s]

def LogicalOp.keyword : LogicalOp → Keyword
  | .and => .and
  | .or => .or

/-- Names between commas. -/
def nameKinds : List Name → List Kind
  | [] => []
  | [x] => [.identifier x.text]
  | x :: y :: names => .identifier x.text :: .mark .comma :: nameKinds (y :: names)

/-- The parameter list, which a getter does not have. -/
def parameterKinds (isGetter : Bool) (params : List Name) : List Kind :=
  if isGetter then [] else .mark .leftParen :: nameKinds params ++ [.mark .rightParen]

def superclassKinds : Option Reference → List Kind
  | none => []
  | some ref => [.mark .colon, .identifier ref.name.text]

/-- The end of a body that is an expression. -/
def endKinds (closed : Bool) : List Kind := if closed then [.mark .semicolon] else []

mutual

def Expr.Written : Expr → List Kind → Prop
  | .literal value, ks => value.Written ks
  | .unary op _ e, ks => ∃ ke, ks = .mark op :: ke ∧ e.Written ke
  | .binary op _ left right, ks => ∃ kl kr, ks = kl ++ .mark op :: kr ∧ left.Written kl ∧ right.Written kr
  | .logical op _ left right, ks => ∃ kl kr, ks = kl ++ .keyword op.keyword :: kr ∧ left.Written kl ∧ right.Written kr
  | .group inner, ks => ∃ ke, ks = .mark .leftParen :: ke ++ [.mark .rightParen] ∧ inner.Written ke
  | .var _ name, ks => ks = [.identifier name.text]
  | .assign _ name value, ks => ∃ kv, ks = .identifier name.text :: .mark .equal :: kv ∧ value.Written kv
  | .call callee _ arguments, ks =>
    ∃ kc ka, ks = kc ++ .mark .leftParen :: ka ++ [.mark .rightParen] ∧ callee.Written kc ∧ WrittenExprs arguments ka
  | .lambda _ routine, ks => ∃ kr, ks = .keyword .fun :: kr ∧ routine.Written false false kr
  | .get object name, ks => ∃ ko, ks = ko ++ [.mark .dot, .identifier name.text] ∧ object.Written ko
  | .set object name value, ks =>
    ∃ ko kv, ks = ko ++ .mark .dot :: .identifier name.text :: .mark .equal :: kv ∧ object.Written ko ∧ value.Written kv
  | .this _ _, ks => ks = [.keyword .this]
  | .super _ _ method, ks => ks = [.keyword .super, .mark .dot, .identifier method.text]

/-- Expressions between commas. -/
def WrittenExprs : List Expr → List Kind → Prop
  | [], ks => ks = []
  | [e], ks => e.Written ks
  | e :: e' :: es, ks => ∃ ke kr, ks = ke ++ .mark .comma :: kr ∧ e.Written ke ∧ WrittenExprs (e' :: es) kr

def Stmt.Written : Stmt → List Kind → Prop
  | .expr e, ks => ∃ ke, ks = ke ++ [.mark .semicolon] ∧ e.Written ke
  | .print e, ks => ∃ ke, ks = .keyword .print :: ke ++ [.mark .semicolon] ∧ e.Written ke
  | .varDecl name none, ks => ks = [.keyword .var, .identifier name.text, .mark .semicolon]
  | .varDecl name (some e), ks =>
    ∃ ke, ks = .keyword .var :: .identifier name.text :: .mark .equal :: ke ++ [.mark .semicolon] ∧ e.Written ke
  | .block body, ks => ∃ kb, ks = .mark .leftBrace :: kb ++ [.mark .rightBrace] ∧ WrittenStmts body kb
  | .branch condition thenBranch none, ks =>
    ∃ kc kt, ks = .keyword .if :: .mark .leftParen :: kc ++ .mark .rightParen :: kt ∧ condition.Written kc ∧
      thenBranch.Written kt
  | .branch condition thenBranch (some elseBranch), ks =>
    ∃ kc kt ke, ks = .keyword .if :: .mark .leftParen :: kc ++ .mark .rightParen :: kt ++ .keyword .else :: ke ∧
      condition.Written kc ∧ thenBranch.Written kt ∧ elseBranch.Written ke
  | .loop condition body, ks =>
    ∃ kc kb, ks = .keyword .while :: .mark .leftParen :: kc ++ .mark .rightParen :: kb ∧ condition.Written kc ∧ body.Written kb
  | .funDecl name routine, ks => ∃ kr, ks = .keyword .fun :: .identifier name.text :: kr ∧ routine.Written false true kr
  | .returns .keyword _ none, ks => ks = [.keyword .return, .mark .semicolon]
  | .returns .keyword _ (some e), ks => ∃ ke, ks = .keyword .return :: ke ++ [.mark .semicolon] ∧ e.Written ke
  | .returns .expressionBody _ _, _ => False
  | .breaks _, ks => ks = [.keyword .break, .mark .semicolon]
  | .classDecl name superclass methods statics, ks =>
    ∃ ms ss members, ks = .keyword .klass :: .identifier name.text :: superclassKinds superclass ++
        .mark .leftBrace :: members.flatten ++ [.mark .rightBrace] ∧
      WrittenMethods methods ms ∧ WrittenMethods statics ss ∧ Interleaves ms (ss.map (.keyword .klass :: ·)) members

def WrittenStmts : List Stmt → List Kind → Prop
  | [], ks => ks = []
  | st :: sts, ks => ∃ k kr, ks = k ++ kr ∧ st.Written k ∧ WrittenStmts sts kr

/-- A parameter list and a body. A body that is an expression ends with a semicolon if it is `closed`. -/
def Routine.Written : Routine → (isGetter closed : Bool) → List Kind → Prop
  | ⟨params, body⟩, isGetter, closed, ks =>
    ∃ kb, ks = parameterKinds isGetter params ++ kb ∧
      ((∃ inner, kb = .mark .leftBrace :: inner ++ [.mark .rightBrace] ∧ WrittenStmts body inner) ∨
        WrittenShort body closed kb)

/-- A body that is an expression. -/
def WrittenShort : List Stmt → (closed : Bool) → List Kind → Prop
  | [.returns .expressionBody _ (some e)], closed, ks => ∃ ke, ks = .mark .colon :: ke ++ endKinds closed ∧ e.Written ke
  | _, _, _ => False

def Method.Written : Method → List Kind → Prop
  | ⟨name, isGetter, routine⟩, ks => ∃ kr, ks = .identifier name.text :: kr ∧ routine.Written isGetter true kr

/-- Each of the methods by itself. -/
def WrittenMethods : List Method → List (List Kind) → Prop
  | [], pieces => pieces = []
  | m :: ms, pieces => ∃ k rest, pieces = k :: rest ∧ m.Written k ∧ WrittenMethods ms rest

end

theorem WrittenMethods.of_nil : ∀ {ms : List Method}, WrittenMethods ms [] → ms = []
  | [], _ => rfl

theorem WrittenMethods.of_cons {k : List Kind} {pieces : List (List Kind)} : ∀ {ms : List Method},
    WrittenMethods ms (k :: pieces) → ∃ m ms', ms = m :: ms' ∧ m.Written k ∧ WrittenMethods ms' pieces
  | m :: ms, ⟨_, _, hk, h, hs⟩ => by cases hk; exact ⟨m, ms, rfl, h, hs⟩

theorem Method.Written.begins : ∀ {m : Method} {ks : List Kind}, m.Written ks → ∃ kr, ks = .identifier m.name.text :: kr
  | ⟨_, _, _⟩, _, ⟨kr, hk, _⟩ => ⟨kr, hk⟩

theorem WrittenShort.cases : ∀ {body : List Stmt} {closed : Bool} {ks : List Kind}, WrittenShort body closed ks →
    ∃ line e ke, body = [.returns .expressionBody line (some e)] ∧ ks = .mark .colon :: ke ++ endKinds closed ∧ e.Written ke
  | [.returns .expressionBody line (some e)], _, _, ⟨ke, hk, h⟩ => ⟨line, e, ke, rfl, hk, h⟩

end Lox
