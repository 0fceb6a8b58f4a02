import Mathlib.Logic.Basic
import Lox.Syntax.Fresh

/-!
# Code without identities

The tree of a program as far as identities do not matter. The groups in it are kept, or left out as well: they only say
how the operators around them are to be read.
-/

namespace Lox

section
variable (groups : Bool)

def Reference.bare (ref : Reference) : Reference := { ref with id := 0 }

mutual

def Expr.bare : Expr → Expr
  | .literal value => .literal value
  | .unary op line operand => .unary op line operand.bare
  | .binary op line left right => .binary op line left.bare right.bare
  | .logical op line left right => .logical op line left.bare right.bare
  | .group inner => if groups then .group inner.bare else inner.bare
  | .var _ name => .var 0 name
  | .assign _ name value => .assign 0 name value.bare
  | .call callee line arguments => .call callee.bare line (bareExprs arguments)
  | .lambda line routine => .lambda line routine.bare
  | .get object name => .get object.bare name
  | .set object name value => .set object.bare name value.bare
  | .this _ line => .this 0 line
  | .super _ line method => .super 0 line method

def bareExprs : List Expr → List Expr
  | [] => []
  | e :: es => e.bare :: bareExprs es

def Stmt.bare : Stmt → Stmt
  | .expr e => .expr e.bare
  | .print e => .print e.bare
  | .varDecl name none => .varDecl name none
  | .varDecl name (some e) => .varDecl name (some e.bare)
  | .block body => .block (bareStmts body)
  | .branch condition thenBranch none => .branch condition.bare thenBranch.bare none
  | .branch condition thenBranch (some elseBranch) => .branch condition.bare thenBranch.bare (some elseBranch.bare)
  | .loop condition body => .loop condition.bare body.bare
  | .funDecl name routine => .funDecl name routine.bare
  | .returns form line none => .returns form line none
  | .returns form line (some e) => .returns form line (some e.bare)
  | .breaks line => .breaks line
  | .classDecl name superclass methods statics =>
    .classDecl name (superclass.map Reference.bare) (bareMethods methods) (bareMethods statics)

def bareStmts : List Stmt → List Stmt
  | [] => []
  | st :: sts => st.bare :: bareStmts sts

def Routine.bare : Routine → Routine
  | ⟨params, body⟩ => ⟨params, bareStmts body⟩

def Method.bare : Method → Method
  | ⟨name, isGetter, routine⟩ => ⟨name, isGetter, routine.bare⟩

def bareMethods : List Method → List Method
  | [] => []
  | m :: ms => m.bare :: bareMethods ms

end

end

variable (groups : Bool)

theorem bareExprs_length : ∀ es : List Expr, (bareExprs groups es).length = es.length
  | [] => rfl
  | _ :: es => congrArg (· + 1) (bareExprs_length es)

/-! ## Copies -/

mutual

theorem Expr.fresh_bare : ∀ (e : Expr) (next : NodeId), (e.fresh next).1.bare groups = e.bare groups
  | .literal _, _ => rfl
  | .unary _ _ e, _ => congrArg (Expr.unary _ _) (e.fresh_bare _)
  | .binary _ _ l r, _ => congrArg₂ (Expr.binary _ _) (l.fresh_bare _) (r.fresh_bare _)
  | .logical _ _ l r, _ => congrArg₂ (Expr.logical _ _) (l.fresh_bare _) (r.fresh_bare _)
  | .group e, next => by
    rw [Expr.fresh, Expr.bare, Expr.bare, e.fresh_bare]
  | .var _ _, _ => rfl
  | .assign _ _ e, _ => congrArg (Expr.assign _ _) (e.fresh_bare _)
  | .call e _ es, _ => congrArg₂ (Expr.call · _ ·) (e.fresh_bare _) (freshExprs_bare es _)
  | .lambda _ r, _ => congrArg (Expr.lambda _) (r.fresh_bare _)
  | .get e _, _ => congrArg (Expr.get · _) (e.fresh_bare _)
  | .set e _ v, _ => congrArg₂ (Expr.set · _ ·) (e.fresh_bare _) (v.fresh_bare _)
  | .this _ _, _ => rfl
  | .super _ _ _, _ => rfl

theorem freshExprs_bare : ∀ (es : List Expr) (next : NodeId), bareExprs groups (freshExprs es next).1 = bareExprs groups es
  | [], _ => rfl
  | e :: es, _ => congrArg₂ List.cons (e.fresh_bare _) (freshExprs_bare es _)

theorem Stmt.fresh_bare : ∀ (st : Stmt) (next : NodeId), (st.fresh next).1.bare groups = st.bare groups
  | .expr e, _ => congrArg Stmt.expr (e.fresh_bare _)
  | .print e, _ => congrArg Stmt.print (e.fresh_bare _)
  | .varDecl _ none, _ => rfl
  | .varDecl _ (some e), _ => congrArg (fun e => Stmt.varDecl _ (some e)) (e.fresh_bare _)
  | .block sts, _ => congrArg Stmt.block (freshStmts_bare sts _)
  | .branch c st none, _ => congrArg₂ (Stmt.branch · · none) (c.fresh_bare _) (st.fresh_bare _)
  | .branch c st (some st'), next => by
    rw [Stmt.fresh, Stmt.bare, Stmt.bare, c.fresh_bare, st.fresh_bare, st'.fresh_bare]
  | .loop c st, _ => congrArg₂ Stmt.loop (c.fresh_bare _) (st.fresh_bare _)
  | .funDecl _ r, _ => congrArg (Stmt.funDecl _) (r.fresh_bare _)
  | .returns _ _ none, _ => rfl
  | .returns _ _ (some e), _ => congrArg (fun e => Stmt.returns _ _ (some e)) (e.fresh_bare _)
  | .breaks _, _ => rfl
  | .classDecl _ none ms ss, _ => congrArg₂ (Stmt.classDecl _ none · ·) (freshMethods_bare ms _) (freshMethods_bare ss _)
  | .classDecl _ (some _) ms ss, _ => congrArg₂ (Stmt.classDecl _ _ · ·) (freshMethods_bare ms _) (freshMethods_bare ss _)

theorem freshStmts_bare : ∀ (sts : List Stmt) (next : NodeId), bareStmts groups (freshStmts sts next).1 = bareStmts groups sts
  | [], _ => rfl
  | st :: sts, _ => congrArg₂ List.cons (st.fresh_bare _) (freshStmts_bare sts _)

theorem Routine.fresh_bare : ∀ (r : Routine) (next : NodeId), (r.fresh next).1.bare groups = r.bare groups
  | ⟨_, body⟩, _ => congrArg (Routine.mk _) (freshStmts_bare body _)

theorem Method.fresh_bare : ∀ (m : Method) (next : NodeId), (m.fresh next).1.bare groups = m.bare groups
  | ⟨_, _, r⟩, _ => congrArg (Method.mk _ _) (r.fresh_bare _)

theorem freshMethods_bare : ∀ (ms : List Method) (next : NodeId), bareMethods groups (freshMethods ms next).1 = bareMethods groups ms
  | [], _ => rfl
  | m :: ms, _ => congrArg₂ List.cons (m.fresh_bare _) (freshMethods_bare ms _)

end

/-! ## Resembling trees -/

/-- The expression can be assigned to. -/
def Expr.isTarget : Expr → Bool
  | .var _ _ | .get _ _ => true
  | _ => false

/-- The second tree is the first one, but for identities, and can be assigned to if the first one can. -/
structure Expr.Resembles (e e' : Expr) : Prop where
  bare : e'.bare groups = e.bare groups
  target : e.isTarget = true → e'.isTarget = true

end Lox
