import Lox.Proofs.Scope.Binding
import Lox.Proofs.Syntax.Every

/-!
# Returns and breaks that stay in their bodies

A program without scope errors has each `return` in a function, no value returned from an initializer, and each
`break` in a loop of the same body.
-/

namespace Lox

/-- The statement does not leave what surrounds it, as far as it can tell alone. -/
def Stmt.Confined (ctx : Context) : Stmt → Prop
  | .returns _ _ value => ctx.body ≠ .program ∧ (value.isSome = true → ctx.body ≠ .initializer)
  | .breaks _ => ctx.inLoop = true
  | _ => True

namespace Resolution

variable {r : Resolution} {ctx : Context}

theorem of_readVariable {id : NodeId} {name : Name} (h : (r.readVariable id name).errors = []) : r.errors = [] :=
  (of_reportIf (by simpa [readVariable] using h)).2

theorem of_readSuperclass {className : Name} {superclass : Option Reference}
    (h : (r.readSuperclass className superclass).errors = []) : r.errors = [] := by
  cases superclass with
  | none => exact h
  | some ref => exact (of_reportIf (of_readVariable h)).2

/-- The check of a `return` lets through what is in a function, and no value in an initializer. -/
theorem confined_of_checkReturn {form : ReturnForm} {line : Nat} {hasValue : Bool}
    (h : (r.checkReturn ctx form line hasValue).errors = []) :
    ctx.body ≠ .program ∧ (hasValue = true → ctx.body ≠ .initializer) := by
  obtain ⟨hvalue, h⟩ := of_reportIf h
  exact ⟨by simpa using (of_reportIf h).1, fun hv => by simpa [hv] using hvalue⟩

theorem confined_of_checkBreak {line : Nat} (h : (r.checkBreak ctx line).errors = []) : ctx.inLoop = true := by
  simpa using (of_reportIf h).1

end Resolution

open Resolution

/-- The code was resolved without an error in its surroundings, and so was all before it. -/
structure ResolvedClean (r : Resolution) (every : Prop) : Prop where
  before : r.errors = []
  every : every

mutual

theorem Expr.resolve_confined : ∀ (e : Expr) (ctx : Context) {r : Resolution}, (e.resolve ctx r).errors = [] →
    ResolvedClean r (e.Every Stmt.Confined ctx)
  | .literal _, _, _, h => ⟨h, trivial⟩
  | .unary _ _ operand, ctx, _, h => operand.resolve_confined ctx h
  | .binary _ _ left right, ctx, _, h =>
    have hr := right.resolve_confined ctx h
    have hl := left.resolve_confined ctx hr.before
    ⟨hl.before, hl.every, hr.every⟩
  | .logical _ _ left right, ctx, _, h =>
    have hr := right.resolve_confined ctx h
    have hl := left.resolve_confined ctx hr.before
    ⟨hl.before, hl.every, hr.every⟩
  | .group inner, ctx, _, h => inner.resolve_confined ctx h
  | .var _ _, _, _, h => ⟨of_readVariable h, trivial⟩
  | .assign _ _ value, ctx, _, h => value.resolve_confined ctx (by simpa [Expr.resolve] using h)
  | .call callee _ arguments, ctx, _, h =>
    have ha := resolveExprs_confined arguments ctx h
    have hc := callee.resolve_confined ctx ha.before
    ⟨hc.before, hc.every, ha.every⟩
  | .lambda _ routine, ctx, _, h => routine.resolve_confined (ctx.enter .function) h
  | .get object _, ctx, _, h => object.resolve_confined ctx h
  | .set object _ value, ctx, _, h =>
    have hv := value.resolve_confined ctx h
    have ho := object.resolve_confined ctx hv.before
    ⟨ho.before, ho.every, hv.every⟩
  | .this id line, ctx, r, h => by
    rw [Expr.resolve, (of_readThis h).2.2, use_errors] at h
    exact ⟨h, trivial⟩
  | .super id line _, ctx, r, h => by
    rw [Expr.resolve, (of_readSuper h).2.2, use_errors] at h
    exact ⟨h, trivial⟩

theorem resolveExprs_confined : ∀ (es : List Expr) (ctx : Context) {r : Resolution},
    (resolveExprs es ctx r).errors = [] → ResolvedClean r (EveryExprs Stmt.Confined es ctx)
  | [], _, _, h => ⟨h, trivial⟩
  | e :: es, ctx, _, h =>
    have hes := resolveExprs_confined es ctx h
    have he := e.resolve_confined ctx hes.before
    ⟨he.before, he.every, hes.every⟩

theorem Stmt.resolve_confined : ∀ (st : Stmt) (ctx : Context) {r : Resolution}, (st.resolve ctx r).errors = [] →
    ResolvedClean r (st.Every Stmt.Confined ctx)
  | .expr e, ctx, _, h =>
    have he := e.resolve_confined ctx h
    ⟨he.before, trivial, he.every⟩
  | .print e, ctx, _, h =>
    have he := e.resolve_confined ctx h
    ⟨he.before, trivial, he.every⟩
  | .varDecl _ none, _, _, h => ⟨of_introduce h, trivial⟩
  | .varDecl _ (some e), ctx, _, h =>
    have he := e.resolve_confined ctx (by simpa [Stmt.resolve] using h)
    ⟨of_declare he.before, trivial, he.every⟩
  | .block body, ctx, r, h =>
    have hb := resolveStmts_confined body ctx (r := r.openScope) (by simpa [Stmt.resolve] using h)
    ⟨hb.before, trivial, hb.every⟩
  | .branch condition thenBranch none, ctx, _, h =>
    have ht := thenBranch.resolve_confined ctx h
    have hc := condition.resolve_confined ctx ht.before
    ⟨hc.before, trivial, hc.every, ht.every⟩
  | .branch condition thenBranch (some elseBranch), ctx, _, h =>
    have he := elseBranch.resolve_confined ctx h
    have ht := thenBranch.resolve_confined ctx he.before
    have hc := condition.resolve_confined ctx ht.before
    ⟨hc.before, trivial, hc.every, ht.every, he.every⟩
  | .loop condition body, ctx, _, h =>
    have hb := body.resolve_confined ctx.loop h
    have hc := condition.resolve_confined ctx hb.before
    ⟨hc.before, trivial, hc.every, hb.every⟩
  | .funDecl _ routine, ctx, _, h =>
    have hr := routine.resolve_confined (ctx.enter .function) h
    ⟨of_introduce hr.before, trivial, hr.every⟩
  | .returns _ _ none, _, _, h => ⟨of_checkReturn h, (confined_of_checkReturn h).1, nofun⟩
  | .returns _ _ (some e), ctx, _, h =>
    have he := e.resolve_confined ctx h
    have ⟨hbody, hvalue⟩ := confined_of_checkReturn he.before
    ⟨of_checkReturn he.before, ⟨hbody, fun _ => hvalue rfl⟩, he.every⟩
  | .breaks _, _, _, h => ⟨(of_reportIf h).2, confined_of_checkBreak h⟩
  | .classDecl _ superclass methods statics, ctx, _, h => by
    rw [Stmt.resolve, closeSuperclass_errors, closeScope_errors] at h
    have hm := resolveMethods_confined methods (ctx.methods superclass) h
    have hs := resolveStatics_confined statics (ctx.statics superclass) hm.before
    exact ⟨of_introduce (of_readSuperclass hs.before), trivial, hm.every, hs.every⟩

theorem resolveStmts_confined : ∀ (sts : List Stmt) (ctx : Context) {r : Resolution},
    (resolveStmts sts ctx r).errors = [] → ResolvedClean r (EveryStmts Stmt.Confined sts ctx)
  | [], _, _, h => ⟨h, trivial⟩
  | st :: sts, ctx, _, h =>
    have hsts := resolveStmts_confined sts ctx h
    have hst := st.resolve_confined ctx hsts.before
    ⟨hst.before, hst.every, hsts.every⟩

theorem Routine.resolve_confined : ∀ (routine : Routine) (ctx : Context) {r : Resolution},
    (routine.resolve ctx r).errors = [] → ResolvedClean r (routine.Every Stmt.Confined ctx)
  | ⟨_, body⟩, ctx, _, h =>
    have hb := resolveStmts_confined body ctx (by rwa [Routine.resolve, closeScope_errors] at h)
    ⟨of_introduceAll (r := Resolution.openScope _) hb.before, hb.every⟩

theorem Method.resolve_confined : ∀ (m : Method) (body : BodyKind) (ctx : Context) {r : Resolution},
    (m.resolve body ctx r).errors = [] → ResolvedClean r (m.Every Stmt.Confined body ctx)
  | ⟨_, _, routine⟩, body, ctx, _, h => routine.resolve_confined (ctx.enter body) h

theorem resolveMethods_confined : ∀ (ms : List Method) (ctx : Context) {r : Resolution},
    (resolveMethods ms ctx r).errors = [] → ResolvedClean r (EveryMethods Stmt.Confined ms ctx)
  | [], _, _, h => ⟨h, trivial⟩
  | m :: ms, ctx, _, h =>
    have hms := resolveMethods_confined ms ctx h
    have hm := m.resolve_confined m.bodyKind ctx hms.before
    ⟨hm.before, hm.every, hms.every⟩

theorem resolveStatics_confined : ∀ (ms : List Method) (ctx : Context) {r : Resolution},
    (resolveStatics ms ctx r).errors = [] → ResolvedClean r (EveryStatics Stmt.Confined ms ctx)
  | [], _, _, h => ⟨h, trivial⟩
  | m :: ms, ctx, _, h =>
    have hms := resolveStatics_confined ms ctx h
    have hm := m.resolve_confined .function ctx hms.before
    ⟨hm.before, hm.every, hms.every⟩

end

end Lox
