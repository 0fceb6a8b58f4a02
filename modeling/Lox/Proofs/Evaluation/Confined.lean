import Lox.Evaluate
import Lox.Proofs.Scope.Confined

/-!
# Flows that stay in their bodies

Statements that are confined to their body do not leave it: they return only from functions, return nothing from
initializers, and break out of nothing but a loop around them.
-/

namespace Lox

/-- The flow does not leave what surrounds the statement. -/
def Flow.Stays (ctx : Context) : Flow → Prop
  | .completed => True
  | .returned v => ctx.body ≠ .program ∧ (ctx.body = .initializer → v = .nil)
  | .broke => ctx.inLoop = true

/-- The flow of a loop stays outside of it as well, as the loop takes each `break` of its body. -/
theorem Flow.Stays.of_loop {ctx : Context} : ∀ {flow : Flow}, flow.Stays ctx.loop → flow ≠ .broke → flow.Stays ctx
  | .completed, _, _ => trivial
  | .returned _, h, _ => h
  | .broke, _, h => absurd rfl h

namespace Eval

/-- Whatever the run gives is as stated. -/
def Gives {α : Type} (Q : α → Prop) (body : Eval α) : Prop := ∀ ⦃m a m'⦄, body m = .done a m' → Q a

namespace Gives

variable {α β : Type} {Q : α → Prop} {R : β → Prop} {body : Eval α}

theorem pure {a : α} (h : Q a) : Gives Q (Pure.pure a : Eval α) := fun _ _ _ ha => by cases ha; exact h

theorem bind {next : α → Eval β} (h : Gives Q body) (hn : ∀ a, Q a → Gives R (next a)) : Gives R (body >>= next) := by
  intro m b m' hb
  obtain ⟨a, m₁, ha, hb⟩ := Run.of_bind_done hb
  exact hn a (h ha) hb

theorem exhausted : Gives Q (Run.exhausted : Eval α) := nofun

/-- What comes first does not matter. -/
theorem last {next : α → Eval β} (hn : ∀ a, Gives R (next a)) : Gives R (body >>= next) :=
  bind (Q := fun _ => True) (fun _ _ _ _ => trivial) fun a _ => hn a

theorem within {env : Env} (h : Gives Q body) : Gives Q (Eval.within env body) := by
  intro m a m' ha
  unfold Eval.within at ha
  cases hb : body { m with env } with
  | done b m₁ => rw [hb] at ha; cases ha; exact h hb
  | failed e m₁ => rw [hb] at ha; cases ha
  | exhausted => rw [hb] at ha; cases ha

end Gives

/-- With this fuel confined statements do not leave what surrounds them. -/
structure StaysWith (n : Nat) : Prop where
  stmt : ∀ {st : Stmt} {ctx : Context}, st.Every Stmt.Confined ctx → Gives (Flow.Stays ctx) (execute n st)
  stmts : ∀ {sts : List Stmt} {ctx : Context}, EveryStmts Stmt.Confined sts ctx → Gives (Flow.Stays ctx) (executeAll n sts)
  loop : ∀ {st : Stmt} {ctx : Context} (c : Expr), st.Every Stmt.Confined ctx.loop →
    Gives (fun flow => flow.Stays ctx ∧ flow ≠ .broke) (repeatWhile n c st)

namespace StaysWith

theorem zero : StaysWith 0 where
  stmt _ := .exhausted
  stmts _ := .exhausted
  loop _ _ := .exhausted

variable {n : Nat} (ih : StaysWith n)
include ih

theorem stmt_succ {st : Stmt} {ctx : Context} (h : st.Every Stmt.Confined ctx) :
    Gives (Flow.Stays ctx) (execute (n + 1) st) := by
  cases st with
  | expr e =>
    rw [Eval.execute]
    exact .last fun _ => .pure trivial
  | print e =>
    rw [Eval.execute]
    exact .last fun _ => .last fun _ => .pure trivial
  | varDecl name init =>
    cases init with
    | none =>
      rw [Eval.execute]
      exact .last fun _ => .pure trivial
    | some e =>
      rw [Eval.execute]
      exact .last fun _ => .last fun _ => .pure trivial
  | block sts =>
    rw [Eval.execute]
    exact .last fun _ => .last fun _ => .within (ih.stmts h.2)
  | branch c st st' =>
    cases st' with
    | none =>
      rw [Eval.execute]
      refine .last fun v => ?_
      split
      · exact ih.stmt h.thenBranch
      · exact .pure trivial
    | some st' =>
      rw [Eval.execute]
      refine .last fun v => ?_
      split
      · exact ih.stmt h.thenBranch
      · exact ih.stmt h.2.2.2
  | loop c st =>
    rw [Eval.execute]
    exact fun _ _ _ hf => (ih.loop c h.2.2 hf).1
  | funDecl name r =>
    rw [Eval.execute]
    exact .last fun _ => .last fun _ => .last fun _ => .pure trivial
  | returns form line value =>
    have hself : Stmt.Confined ctx (.returns form line value) := h.self
    cases value with
    | none =>
      rw [Eval.execute]
      exact .pure ⟨hself.1, fun _ => rfl⟩
    | some e =>
      rw [Eval.execute]
      exact .last fun v => .pure ⟨hself.1, fun hi => absurd hi (hself.2 rfl)⟩
  | breaks line =>
    rw [Eval.execute]
    exact .pure h.self
  | classDecl name ref ms ss =>
    rw [Eval.execute]
    exact .last fun _ => .last fun _ => .last fun _ => .last fun _ => .pure trivial

theorem stmts_succ {sts : List Stmt} {ctx : Context} (h : EveryStmts Stmt.Confined sts ctx) :
    Gives (Flow.Stays ctx) (executeAll (n + 1) sts) := by
  cases sts with
  | nil =>
    rw [Eval.executeAll]
    exact .pure trivial
  | cons st sts =>
    rw [Eval.executeAll]
    refine .bind (ih.stmt h.1) fun flow hflow => ?_
    cases flow with
    | completed => exact ih.stmts h.2
    | returned v => exact .pure hflow
    | broke => exact .pure hflow

theorem loop_succ {st : Stmt} {ctx : Context} (c : Expr) (h : st.Every Stmt.Confined ctx.loop) :
    Gives (fun flow => flow.Stays ctx ∧ flow ≠ .broke) (repeatWhile (n + 1) c st) := by
  rw [Eval.repeatWhile]
  refine .last fun v => ?_
  split
  · refine .bind (ih.stmt h) fun flow hflow => ?_
    cases flow with
    | completed => exact ih.loop c h
    | returned v => exact .pure ⟨hflow.of_loop nofun, nofun⟩
    | broke => exact .pure ⟨trivial, nofun⟩
  · exact .pure ⟨trivial, nofun⟩

end StaysWith

/-- Confined statements stay where they are, for as long as they may run. -/
theorem stays : ∀ n, StaysWith n
  | 0 => .zero
  | n + 1 => ⟨(stays n).stmt_succ, (stays n).stmts_succ, (stays n).loop_succ⟩

end Eval

end Lox
