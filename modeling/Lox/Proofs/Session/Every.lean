import Lox.Proofs.Session.Invariant
import Lox.Proofs.Evaluation.Preserved

/-!
# Sessions whose code passes a check

If the statements of all programs that a session has run pass a check, so do those of all functions that it holds or
has given out, and all that a further request turns to.
-/

namespace Lox

variable {P : Context → Stmt → Prop} {h : History} {r : Request}

/-- The program that the request runs passes, if it runs one. -/
def Request.Passes (P : Context → Stmt → Prop) (s : Session) : Request → Prop
  | .run _ source => ∀ c, (analyze source s.nextId).checked = some c → EveryStmts P c.program {}
  | .call .. => True

/-- All code of the session passes, and that of the values that calls have given. -/
structure History.Every (P : Context → Stmt → Prop) (h : History) : Prop where
  machine : h.session.machine.Every P
  given : ∀ v ∈ h.given, v.Every P

namespace Eval.Preserves

theorem executeEach {fuel : Nat} : ∀ {sts : List Stmt} {ctx : Context}, EveryStmts P sts ctx →
    Preserves P (fun _ => True) (executeEach fuel sts)
  | [], _, _ => pure trivial
  | st :: _, ctx, h => bind (preserves P fuel (.stmt st) ⟨ctx, h.1⟩) fun _ _ => executeEach h.2

theorem flushing {α : Type} {Q : α → Prop} {body : Eval α} (h : Preserves P Q body) : Preserves P Q (flushing body) :=
  of_leaves fun m => (h.leaves m).flushing

end Eval.Preserves

theorem EveryStmts.append : ∀ {before after : List Stmt} {ctx : Context}, EveryStmts P (before ++ after) ctx →
    EveryStmts P before ctx ∧ EveryStmts P after ctx
  | [], _, _, h => ⟨trivial, h⟩
  | _ :: _, _, _, h =>
    have ⟨hb, ha⟩ := EveryStmts.append h.2
    ⟨⟨h.1, hb⟩, ha⟩

namespace History.Every

theorem start (input : Input) (output : Sink) (clock : Nat) : (History.start input output clock).Every P where
  machine := by
    refine ⟨fun f x v hv => ?_, fun i x v hv => ?_⟩
    · have hv : (Store.empty.extend initialGlobals []).2.var? f x = some v := hv
      rw [Store.var?_extend] at hv
      split at hv
      · obtain ⟨fn, rfl⟩ := History.Ready.initialGlobals_get? hv
        trivial
      · simp [Store.var?, Store.frame?, Store.empty] at hv
    · simp [Store.field?, History.start, Session.start, Machine.start, Store.extend, Store.empty] at hv
  given := nofun

theorem offers (h' : h.Every P) {v : Value} (hv : h.Offers v) : v.Every P := by
  induction hv with
  | nil => trivial
  | bool => trivial
  | number => trivial
  | string => trivial
  | native => trivial
  | given hv => exact h'.given _ hv
  | var hv => exact h'.machine.vars _ _ _ hv
  | field hv => exact h'.machine.fields _ _ _ hv
  | cls _ ih => exact ih
  | superclass _ hc ih =>
    have ih : Class.Every P _ := ih
    exact fun layer hl => ih layer (.tail _ (by rw [hc]; exact hl))
  | static _ hf ih => exact Class.Every.static ih hf
  | receiver _ ih => exact ih.1

theorem begun (h' : h.Every P) (r : Request) : (r.machine h.session).Every P := by
  unfold Machine.Every
  rw [Request.machine_store]
  exact h'.machine

/-- Every moment of a request passes. -/
theorem meets (h' : h.Every P) (hr : r.Passes P h.session) (ha : h.Allows r) {x : Moment} (hx : r.Meets h.session x) :
    x.Every P := by
  obtain ⟨y, hb, hreach⟩ := hx
  refine Moment.Every.reaches ?_ hreach
  cases hb with
  | call => exact ⟨⟨h'.offers ha.1, fun v hv => h'.offers (ha.2 v hv)⟩, h'.machine⟩
  | @statement fuel source c before st after m hc hprog hm =>
    have hall := hr c hc
    rw [hprog] at hall
    obtain ⟨hbefore, hst, -⟩ := EveryStmts.append hall
    exact ⟨⟨_, hst⟩, ((Eval.Preserves.executeEach hbefore).of_done (h'.begun (.run fuel source)) hm).1⟩

/-- A request leaves code that passes. -/
theorem answer (h' : h.Every P) (hr : r.Passes P h.session) (ha : h.Allows r) {a : Answer}
    (hans : h.session.answer? r = some a) : (h.after r a).Every P := by
  cases r with
  | call fuel callee arguments line =>
    have hb := Eval.preserves P fuel (.call callee arguments line) ⟨h'.offers ha.1, fun v hv => h'.offers (ha.2 v hv)⟩ _ h'.machine
    have heq : Activity.run fuel (.call callee arguments line) h.session.machine =
        Eval.call fuel callee arguments line h.session.machine := rfl
    rw [heq] at hb
    simp only [Session.answer?, Session.call] at hans
    cases ho : Eval.call fuel callee arguments line h.session.machine with
    | exhausted => rw [ho] at hans; cases hans
    | failed e m => rw [ho] at hans hb; cases hans; exact ⟨hb, h'.given⟩
    | done v m =>
      rw [ho] at hans hb
      cases hans
      exact ⟨hb.1, List.forall_mem_cons.mpr ⟨hb.2, h'.given⟩⟩
  | run fuel source =>
    cases hc : (analyze source h.session.nextId).checked with
    | none =>
      simp only [Session.answer?, Session.run, hc] at hans
      cases hans
      exact ⟨h'.machine, h'.given⟩
    | some c =>
      have hbody : Eval.Preserves P (fun _ => True) (Eval.executeEach fuel c.program) := .executeEach (hr c hc)
      have hb := hbody.flushing _ (h'.begun (.run fuel source))
      have heq : Eval.interpret fuel c.program c.table h.session.machine =
          Eval.flushing (Eval.executeEach fuel c.program) ((Request.run fuel source).machine h.session) := by
        simp only [Request.machine, hc]
        rfl
      simp only [Session.answer?, Session.run, hc, heq] at hans
      cases ho : Eval.flushing (Eval.executeEach fuel c.program) ((Request.run fuel source).machine h.session) with
      | exhausted => rw [ho] at hans; cases hans
      | failed e m => rw [ho] at hans hb; cases hans; exact ⟨hb, h'.given⟩
      | done v m => rw [ho] at hans hb; cases hans; exact ⟨hb.1, h'.given⟩

end History.Every

/-- Where all programs so far pass, all code does. -/
theorem History.Possible.every (hp : h.Possible) (hpast : ∀ p ∈ h.past, p.2.Passes P p.1) : h.Every P := by
  induction hp with
  | start => exact .start _ _ _
  | next _ ha hans ih =>
    obtain ⟨hr, hpast⟩ := List.forall_mem_cons.mp hpast
    exact (ih hpast).answer hr ha hans
  | between _ _ _ _ ih => exact ⟨(ih hpast).machine, (ih hpast).given⟩

end Lox
