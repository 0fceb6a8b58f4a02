import Lox.Syntax.Fresh
import Lox.Proofs.Syntax.Every

/-!
# Trees without loops

No statement in the tree is a loop, and so it is with its copies.
-/

namespace Lox

def Stmt.NoLoop (_ : Context) (st : Stmt) : Prop := ∀ condition body, st ≠ .loop condition body

def Expr.LoopFree (e : Expr) : Prop := ∀ ctx, e.Every Stmt.NoLoop ctx

def Stmt.LoopFree (st : Stmt) : Prop := ∀ ctx, st.Every Stmt.NoLoop ctx

def LoopFreeStmts (sts : List Stmt) : Prop := ∀ ctx, EveryStmts Stmt.NoLoop sts ctx

/-! ## Lists -/

theorem everyExprs_of_forall {es : List Expr} (h : ∀ e ∈ es, e.LoopFree) (ctx : Context) : EveryExprs Stmt.NoLoop es ctx := by
  induction es with
  | nil => trivial
  | cons e es ih =>
    obtain ⟨he, hes⟩ := List.forall_mem_cons.mp h
    exact ⟨he ctx, ih hes⟩

theorem LoopFreeStmts.cons {st : Stmt} {sts : List Stmt} (h : st.LoopFree) (h' : LoopFreeStmts sts) :
    LoopFreeStmts (st :: sts) := fun ctx => ⟨h ctx, h' ctx⟩

theorem everyMethods_of_forall {ms : List Method} (h : ∀ m ∈ ms, LoopFreeStmts m.routine.body) (ctx : Context) :
    EveryMethods Stmt.NoLoop ms ctx := by
  induction ms with
  | nil => trivial
  | cons m ms ih =>
    obtain ⟨hm, hms⟩ := List.forall_mem_cons.mp h
    obtain ⟨_, _, _, _⟩ := m
    exact ⟨hm _, ih hms⟩

theorem everyStatics_of_forall {ms : List Method} (h : ∀ m ∈ ms, LoopFreeStmts m.routine.body) (ctx : Context) :
    EveryStatics Stmt.NoLoop ms ctx := by
  induction ms with
  | nil => trivial
  | cons m ms ih =>
    obtain ⟨hm, hms⟩ := List.forall_mem_cons.mp h
    obtain ⟨_, _, _, _⟩ := m
    exact ⟨hm _, ih hms⟩

theorem LoopFreeStmts.single {st : Stmt} (h : st.LoopFree) : LoopFreeStmts [st] := .cons h fun _ => trivial

/-! ## Statements -/

namespace Stmt.LoopFree

variable {e : Expr} {st : Stmt} {sts : List Stmt}

theorem expr (h : e.LoopFree) : (Stmt.expr e).LoopFree := fun ctx => ⟨nofun, h ctx⟩

theorem print (h : e.LoopFree) : (Stmt.print e).LoopFree := fun ctx => ⟨nofun, h ctx⟩

theorem varDecl (name : Name) : ∀ {init : Option Expr}, (∀ e ∈ init, e.LoopFree) → (Stmt.varDecl name init).LoopFree
  | none, _ => fun _ => nofun
  | some e, h => fun ctx => ⟨nofun, h e rfl ctx⟩

theorem block (h : LoopFreeStmts sts) : (Stmt.block sts).LoopFree := fun ctx => ⟨nofun, h ctx⟩

theorem branch (he : e.LoopFree) (h : st.LoopFree) : ∀ {st' : Option Stmt}, (∀ st ∈ st', st.LoopFree) →
    (Stmt.branch e st st').LoopFree
  | none, _ => fun ctx => ⟨nofun, he ctx, h ctx⟩
  | some st', h' => fun ctx => ⟨nofun, he ctx, h ctx, h' st' rfl ctx⟩

theorem funDecl (name : Name) (params : List Name) (h : LoopFreeStmts sts) : (Stmt.funDecl name ⟨params, sts⟩).LoopFree :=
  fun ctx => ⟨nofun, h (ctx.enter .function)⟩

theorem returns (form : ReturnForm) (line : Nat) : ∀ {value : Option Expr}, (∀ e ∈ value, e.LoopFree) →
    (Stmt.returns form line value).LoopFree
  | none, _ => fun _ => nofun
  | some e, h => fun ctx => ⟨nofun, h e rfl ctx⟩

theorem breaks (line : Nat) : (Stmt.breaks line).LoopFree := fun _ => nofun

theorem classDecl (name : Name) (superclass : Option Reference) {ms ss : List Method}
    (hm : ∀ m ∈ ms, LoopFreeStmts m.routine.body) (hs : ∀ m ∈ ss, LoopFreeStmts m.routine.body) :
    (Stmt.classDecl name superclass ms ss).LoopFree :=
  fun _ => ⟨nofun, everyMethods_of_forall hm _, everyStatics_of_forall hs _⟩

end Stmt.LoopFree

/-! ## Copies -/

mutual

theorem Expr.Every.fresh : ∀ {e : Expr} {ctx : Context}, e.Every Stmt.NoLoop ctx → ∀ next : NodeId,
    (e.fresh next).1.Every Stmt.NoLoop ctx
  | .literal _, _, _, _ => trivial
  | .unary _ _ e, _, h, next => Expr.Every.fresh (e := e) h next
  | .binary _ _ _ _, _, h, next => ⟨Expr.Every.fresh h.1 next, Expr.Every.fresh h.2 _⟩
  | .logical _ _ _ _, _, h, next => ⟨Expr.Every.fresh h.1 next, Expr.Every.fresh h.2 _⟩
  | .group inner, _, h, next => Expr.Every.fresh (e := inner) h next
  | .var _ _, _, _, _ => trivial
  | .assign _ _ value, _, h, next => Expr.Every.fresh (e := value) h next
  | .call _ _ _, _, h, next => ⟨Expr.Every.fresh h.1 next, EveryExprs.fresh h.2 _⟩
  | .lambda _ routine, _, h, next => Routine.Every.fresh (r := routine) h next
  | .get object _, _, h, next => Expr.Every.fresh (e := object) h next
  | .set _ _ _, _, h, next => ⟨Expr.Every.fresh h.1 next, Expr.Every.fresh h.2 _⟩
  | .this _ _, _, _, _ => trivial
  | .super _ _ _, _, _, _ => trivial

theorem EveryExprs.fresh : ∀ {es : List Expr} {ctx : Context}, EveryExprs Stmt.NoLoop es ctx → ∀ next : NodeId,
    EveryExprs Stmt.NoLoop (freshExprs es next).1 ctx
  | [], _, _, _ => trivial
  | _ :: _, _, h, next => ⟨Expr.Every.fresh h.1 next, EveryExprs.fresh h.2 _⟩

theorem Stmt.Every.fresh : ∀ {st : Stmt} {ctx : Context}, st.Every Stmt.NoLoop ctx → ∀ next : NodeId,
    (st.fresh next).1.Every Stmt.NoLoop ctx
  | .expr _, _, h, next => ⟨nofun, Expr.Every.fresh h.2 next⟩
  | .print _, _, h, next => ⟨nofun, Expr.Every.fresh h.2 next⟩
  | .varDecl _ none, _, _, _ => nofun
  | .varDecl _ (some _), _, h, next => ⟨nofun, Expr.Every.fresh h.2 next⟩
  | .block _, _, h, next => ⟨nofun, EveryStmts.fresh h.2 next⟩
  | .branch _ _ none, _, h, next => ⟨nofun, Expr.Every.fresh h.2.1 next, Stmt.Every.fresh h.2.2 _⟩
  | .branch _ _ (some _), _, h, next =>
    ⟨nofun, Expr.Every.fresh h.2.1 next, Stmt.Every.fresh h.2.2.1 _, Stmt.Every.fresh h.2.2.2 _⟩
  | .loop c body, _, h, _ => absurd rfl (h.1 c body)
  | .funDecl _ _, _, h, next => ⟨nofun, Routine.Every.fresh h.2 next⟩
  | .returns _ _ none, _, _, _ => nofun
  | .returns _ _ (some _), _, h, next => ⟨nofun, Expr.Every.fresh h.2 next⟩
  | .breaks _, _, _, _ => nofun
  | .classDecl _ none _ _, _, h, _ => ⟨nofun, EveryMethods.fresh h.2.1 _, EveryStatics.fresh h.2.2 _⟩
  | .classDecl _ (some _) _ _, _, h, _ => ⟨nofun, EveryMethods.fresh h.2.1 _, EveryStatics.fresh h.2.2 _⟩

theorem EveryStmts.fresh : ∀ {sts : List Stmt} {ctx : Context}, EveryStmts Stmt.NoLoop sts ctx → ∀ next : NodeId,
    EveryStmts Stmt.NoLoop (freshStmts sts next).1 ctx
  | [], _, _, _ => trivial
  | _ :: _, _, h, next => ⟨Stmt.Every.fresh h.1 next, EveryStmts.fresh h.2 _⟩

theorem Routine.Every.fresh : ∀ {r : Routine} {ctx : Context}, r.Every Stmt.NoLoop ctx → ∀ next : NodeId,
    (r.fresh next).1.Every Stmt.NoLoop ctx
  | ⟨_, body⟩, ctx, h, next => EveryStmts.fresh (show EveryStmts Stmt.NoLoop body ctx from h) next

theorem Method.Every.fresh : ∀ {m : Method} {body : BodyKind} {ctx : Context}, m.Every Stmt.NoLoop body ctx → ∀ next : NodeId,
    (m.fresh next).1.Every Stmt.NoLoop body ctx
  | ⟨_, _, ⟨_, sts⟩⟩, body, ctx, h, next => EveryStmts.fresh (show EveryStmts Stmt.NoLoop sts (ctx.enter body) from h) next

theorem EveryMethods.fresh : ∀ {ms : List Method} {ctx : Context}, EveryMethods Stmt.NoLoop ms ctx → ∀ next : NodeId,
    EveryMethods Stmt.NoLoop (freshMethods ms next).1 ctx
  | [], _, _, _ => trivial
  | ⟨_, _, ⟨_, _⟩⟩ :: _, _, h, next => ⟨EveryStmts.fresh h.1 next, EveryMethods.fresh h.2 _⟩

theorem EveryStatics.fresh : ∀ {ms : List Method} {ctx : Context}, EveryStatics Stmt.NoLoop ms ctx → ∀ next : NodeId,
    EveryStatics Stmt.NoLoop (freshMethods ms next).1 ctx
  | [], _, _, _ => trivial
  | ⟨_, _, ⟨_, _⟩⟩ :: _, _, h, next => ⟨EveryStmts.fresh h.1 next, EveryStatics.fresh h.2 _⟩

end

theorem Expr.LoopFree.fresh {e : Expr} (h : e.LoopFree) (next : NodeId) : (e.fresh next).1.LoopFree :=
  fun ctx => Expr.Every.fresh (h ctx) next

end Lox
