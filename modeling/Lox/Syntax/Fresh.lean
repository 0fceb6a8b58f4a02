import Lox.Syntax.Basic

/-!
# Copies with fresh identities

A copy of a tree whose nodes are numbered from `next` on, and the first number left over. The copy
differs from the tree in its identities only.
-/

namespace Lox

mutual

def Expr.fresh : Expr → (next : NodeId) → Expr × NodeId
  | .literal value, next => (.literal value, next)
  | .unary op line operand, next =>
    let (operand, next) := operand.fresh next
    (.unary op line operand, next)
  | .binary op line left right, next =>
    let (left, next) := left.fresh next
    let (right, next) := right.fresh next
    (.binary op line left right, next)
  | .logical op line left right, next =>
    let (left, next) := left.fresh next
    let (right, next) := right.fresh next
    (.logical op line left right, next)
  | .group inner, next =>
    let (inner, next) := inner.fresh next
    (.group inner, next)
  | .var _ name, next => (.var next name, next + 1)
  | .assign _ name value, next =>
    let (value, next) := value.fresh next
    (.assign next name value, next + 1)
  | .call callee line arguments, next =>
    let (callee, next) := callee.fresh next
    let (arguments, next) := freshExprs arguments next
    (.call callee line arguments, next)
  | .lambda line routine, next =>
    let (routine, next) := routine.fresh next
    (.lambda line routine, next)
  | .get object name, next =>
    let (object, next) := object.fresh next
    (.get object name, next)
  | .set object name value, next =>
    let (object, next) := object.fresh next
    let (value, next) := value.fresh next
    (.set object name value, next)
  | .this _ line, next => (.this next line, next + 1)
  | .super _ line method, next => (.super next line method, next + 1)

def freshExprs : List Expr → (next : NodeId) → List Expr × NodeId
  | [], next => ([], next)
  | e :: es, next =>
    let (e, next) := e.fresh next
    let (es, next) := freshExprs es next
    (e :: es, next)

def Stmt.fresh : Stmt → (next : NodeId) → Stmt × NodeId
  | .expr e, next =>
    let (e, next) := e.fresh next
    (.expr e, next)
  | .print e, next =>
    let (e, next) := e.fresh next
    (.print e, next)
  | .varDecl name none, next => (.varDecl name none, next)
  | .varDecl name (some e), next =>
    let (e, next) := e.fresh next
    (.varDecl name (some e), next)
  | .block body, next =>
    let (body, next) := freshStmts body next
    (.block body, next)
  | .branch condition thenBranch none, next =>
    let (condition, next) := condition.fresh next
    let (thenBranch, next) := thenBranch.fresh next
    (.branch condition thenBranch none, next)
  | .branch condition thenBranch (some elseBranch), next =>
    let (condition, next) := condition.fresh next
    let (thenBranch, next) := thenBranch.fresh next
    let (elseBranch, next) := elseBranch.fresh next
    (.branch condition thenBranch (some elseBranch), next)
  | .loop condition body, next =>
    let (condition, next) := condition.fresh next
    let (body, next) := body.fresh next
    (.loop condition body, next)
  | .funDecl name routine, next =>
    let (routine, next) := routine.fresh next
    (.funDecl name routine, next)
  | .returns form line none, next => (.returns form line none, next)
  | .returns form line (some e), next =>
    let (e, next) := e.fresh next
    (.returns form line (some e), next)
  | .breaks line, next => (.breaks line, next)
  | .classDecl name none methods statics, next =>
    let (methods, next) := freshMethods methods next
    let (statics, next) := freshMethods statics next
    (.classDecl name none methods statics, next)
  | .classDecl name (some superclass) methods statics, next =>
    let (methods, after) := freshMethods methods (next + 1)
    let (statics, after) := freshMethods statics after
    (.classDecl name (some { superclass with id := next }) methods statics, after)

def freshStmts : List Stmt → (next : NodeId) → List Stmt × NodeId
  | [], next => ([], next)
  | st :: sts, next =>
    let (st, next) := st.fresh next
    let (sts, next) := freshStmts sts next
    (st :: sts, next)

def Routine.fresh : Routine → (next : NodeId) → Routine × NodeId
  | ⟨params, body⟩, next =>
    let (body, next) := freshStmts body next
    (⟨params, body⟩, next)

def Method.fresh : Method → (next : NodeId) → Method × NodeId
  | ⟨name, isGetter, routine⟩, next =>
    let (routine, next) := routine.fresh next
    (⟨name, isGetter, routine⟩, next)

def freshMethods : List Method → (next : NodeId) → List Method × NodeId
  | [], next => ([], next)
  | m :: ms, next =>
    let (m, next) := m.fresh next
    let (ms, next) := freshMethods ms next
    (m :: ms, next)

end

end Lox
