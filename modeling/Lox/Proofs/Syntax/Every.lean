import Lox.Scope.Resolve

/-!
# What holds of all statements in a tree

A check looks at one statement and at what surrounds it. A tree passes if all statements in it do, those in
the bodies of its functions, methods and lambdas too, each in its own surroundings.
-/

namespace Lox

variable (P : Context → Stmt → Prop)

/-- What surrounds the body of a loop. -/
def Context.loop (ctx : Context) : Context := { ctx with inLoop := true }

/-- What surrounds the instance methods of a class. -/
def Context.methods (ctx : Context) (superclass : Option Reference) : Context :=
  { ctx with classKind := .ofSuperclass superclass, inStatic := false }

def Context.statics (ctx : Context) (superclass : Option Reference) : Context :=
  { ctx with classKind := .ofSuperclass superclass, inStatic := true }

mutual

def Expr.Every : Expr → Context → Prop
  | .literal _, _ => True
  | .unary _ _ operand, ctx => operand.Every ctx
  | .binary _ _ left right, ctx => left.Every ctx ∧ right.Every ctx
  | .logical _ _ left right, ctx => left.Every ctx ∧ right.Every ctx
  | .group inner, ctx => inner.Every ctx
  | .var _ _, _ => True
  | .assign _ _ value, ctx => value.Every ctx
  | .call callee _ arguments, ctx => callee.Every ctx ∧ EveryExprs arguments ctx
  | .lambda _ routine, ctx => routine.Every (ctx.enter .function)
  | .get object _, ctx => object.Every ctx
  | .set object _ value, ctx => object.Every ctx ∧ value.Every ctx
  | .this _ _, _ => True
  | .super _ _ _, _ => True

def EveryExprs : List Expr → Context → Prop
  | [], _ => True
  | e :: es, ctx => e.Every ctx ∧ EveryExprs es ctx

/-- The statement passes, and all in it. -/
def Stmt.Every : Stmt → Context → Prop
  | .expr e, ctx => P ctx (.expr e) ∧ e.Every ctx
  | .print e, ctx => P ctx (.print e) ∧ e.Every ctx
  | .varDecl name none, ctx => P ctx (.varDecl name none)
  | .varDecl name (some e), ctx => P ctx (.varDecl name (some e)) ∧ e.Every ctx
  | .block body, ctx => P ctx (.block body) ∧ EveryStmts body ctx
  | .branch condition thenBranch none, ctx =>
    P ctx (.branch condition thenBranch none) ∧ condition.Every ctx ∧ thenBranch.Every ctx
  | .branch condition thenBranch (some elseBranch), ctx =>
    P ctx (.branch condition thenBranch (some elseBranch)) ∧ condition.Every ctx ∧ thenBranch.Every ctx ∧ elseBranch.Every ctx
  | .loop condition body, ctx => P ctx (.loop condition body) ∧ condition.Every ctx ∧ body.Every ctx.loop
  | .funDecl name routine, ctx => P ctx (.funDecl name routine) ∧ routine.Every (ctx.enter .function)
  | .returns form line none, ctx => P ctx (.returns form line none)
  | .returns form line (some e), ctx => P ctx (.returns form line (some e)) ∧ e.Every ctx
  | .breaks line, ctx => P ctx (.breaks line)
  | .classDecl name superclass methods statics, ctx =>
    P ctx (.classDecl name superclass methods statics) ∧ EveryMethods methods (ctx.methods superclass) ∧
      EveryStatics statics (ctx.statics superclass)

def EveryStmts : List Stmt → Context → Prop
  | [], _ => True
  | st :: sts, ctx => st.Every ctx ∧ EveryStmts sts ctx

def Routine.Every : Routine → Context → Prop
  | ⟨_, body⟩, ctx => EveryStmts body ctx

def Method.Every : Method → (body : BodyKind) → Context → Prop
  | ⟨_, _, routine⟩, body, ctx => routine.Every (ctx.enter body)

def EveryMethods : List Method → Context → Prop
  | [], _ => True
  | m :: ms, ctx => m.Every m.bodyKind ctx ∧ EveryMethods ms ctx

def EveryStatics : List Method → Context → Prop
  | [], _ => True
  | m :: ms, ctx => m.Every .function ctx ∧ EveryStatics ms ctx

end

variable {P}

/-- The statement itself passes. -/
theorem Stmt.Every.self : ∀ {st : Stmt} {ctx : Context}, st.Every P ctx → P ctx st
  | .expr _, _, h => h.1
  | .print _, _, h => h.1
  | .varDecl _ none, _, h => h
  | .varDecl _ (some _), _, h => h.1
  | .block _, _, h => h.1
  | .branch _ _ none, _, h => h.1
  | .branch _ _ (some _), _, h => h.1
  | .loop _ _, _, h => h.1
  | .funDecl _ _, _, h => h.1
  | .returns _ _ none, _, h => h
  | .returns _ _ (some _), _, h => h.1
  | .breaks _, _, h => h
  | .classDecl _ _ _ _, _, h => h.1

theorem Stmt.Every.condition : ∀ {c : Expr} {st : Stmt} {st' : Option Stmt} {ctx : Context},
    (Stmt.branch c st st').Every P ctx → c.Every P ctx
  | _, _, none, _, h => h.2.1
  | _, _, some _, _, h => h.2.1

theorem Stmt.Every.thenBranch : ∀ {c : Expr} {st : Stmt} {st' : Option Stmt} {ctx : Context},
    (Stmt.branch c st st').Every P ctx → st.Every P ctx
  | _, _, none, _, h => h.2.2
  | _, _, some _, _, h => h.2.2.1

end Lox
