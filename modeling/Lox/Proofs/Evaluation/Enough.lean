import Mathlib.Order.Filter.AtTopBot.Basic
import Lox.Proofs.Evaluation.Ordered
import Lox.Proofs.Evaluation.Shown

/-!
# What work comes to

Work that has come to an end does not depend on its fuel. With more and more fuel all work therefore comes to one outcome, where
work that is never done comes to `exhausted`.
-/

namespace Lox

open Filter

/-! ## More fuel -/

theorem Site.relined_id (site : Site) : site.relined id = site := by cases site <;> rfl

theorem Error.relined_id (e : Error) : e.relined id = e := by
  cases e <;> simp only [Error.relined, Site.relined_id, id]

section
variable {α β : Type} {m m' : Machine} {o : Outcome Machine Error α} {o' : Outcome Machine Error β}

theorem View.outcome_of_fuel (spare : Nat) (o : Outcome Machine Error α) : (View.mk .same id spare).outcome id o = o := by
  cases o with
  | done a m => exact congrArg (Outcome.done a) m.recoded_same
  | failed e m => exact congrArg₂ Outcome.failed e.relined_id m.recoded_same
  | exhausted => rfl

theorem Flow.recoded_same : Flow.recoded .same = id := by
  funext flow
  cases flow with
  | completed => rfl
  | returned v => exact congrArg Flow.returned (congrFun Value.recoded_same v)
  | broke => rfl

/-- What has no result ends the work that it is a part of. -/
inductive Outcome.Stops : Outcome Machine Error α → Outcome Machine Error β → Prop where
  | failed (e : Error) (m : Machine) : Stops (.failed e m) (.failed e m)
  | exhausted : Stops .exhausted .exhausted

theorem Outcome.Stops.trans {γ : Type} {o'' : Outcome Machine Error γ} (h : o.Stops o') (h' : o'.Stops o'') : o.Stops o'' := by
  cases h <;> cases h'
  · exact .failed _ _
  · exact .exhausted

theorem Outcome.done_or_stops (o : Outcome Machine Error α) : (∃ a m, o = .done a m) ∨ ∃ o' : Outcome Machine Error β, o.Stops o' := by
  cases o with
  | done a m => exact .inl ⟨a, m, rfl⟩
  | failed e m => exact .inr ⟨_, .failed e m⟩
  | exhausted => exact .inr ⟨_, .exhausted⟩

namespace Eval

/-- More fuel does not change how the work ends. -/
def Steady (body : Nat → Eval α) : Prop := ∀ n m, body n m ≠ .exhausted → ∀ k, body (n + k) m = body n m

theorem steady_of_shows {body : Nat → Eval α} {f : α → α} (hf : f = id)
    (h : ∀ n k m, (View.mk .same id k).Shows f (body n) (body (n + k)) m) : Steady body := by
  intro n m hne k
  have heq := (h n k m).eq_of_ne (.inr hne)
  rwa [hf, View.outcome_of_fuel, View.machine, Machine.recoded_same] at heq

theorem steady_evaluate (e : Expr) : Steady fun n => evaluate n e :=
  steady_of_shows Value.recoded_same fun n k m => by
    have h := ((View.mk .same id k).faithful n).expr e m (View.suits_of_tables (fun _ _ => rfl) _)
    rwa [Expr.recoded_same] at h

theorem steady_execute (st : Stmt) : Steady fun n => execute n st :=
  steady_of_shows Flow.recoded_same fun n k m => by
    have h := ((View.mk .same id k).faithful n).stmt st m (View.suits_of_tables (fun _ _ => rfl) _)
    rwa [Stmt.recoded_same] at h

/-- With enough fuel the work ends so. -/
def ComesTo (body : Nat → Eval α) (m : Machine) (o : Outcome Machine Error α) : Prop := ∀ᶠ n in atTop, body n m = o

theorem Steady.comesTo {body : Nat → Eval α} (h : Steady body) (m : Machine) : ∃ o, ComesTo body m o := by
  by_cases hends : ∃ n, body n m ≠ .exhausted
  · obtain ⟨n, hn⟩ := hends
    refine ⟨body n m, eventually_atTop.mpr ⟨n, fun k hk => ?_⟩⟩
    rw [← Nat.add_sub_cancel' hk]
    exact h n m hn _
  · push Not at hends
    exact ⟨.exhausted, .of_forall hends⟩

namespace ComesTo

variable {body : Nat → Eval α}

theorem unique {o' : Outcome Machine Error α} (h : ComesTo body m o) (h' : ComesTo body m o') : o = o' := by
  obtain ⟨n, hn, hn'⟩ := (h.and h').exists
  exact hn.symm.trans hn'

/-- With less fuel the work ends so, or it does not end. -/
theorem eq_or_exhausted (h : ComesTo body m o) (hs : Steady body) (n : Nat) : body n m = o ∨ body n m = .exhausted := by
  by_cases hn : body n m = .exhausted
  · exact .inr hn
  · obtain ⟨k, hk, hle⟩ := (h.and (eventually_ge_atTop n)).exists
    rw [← Nat.add_sub_cancel' hle, hs n m hn] at hk
    exact .inl hk

theorem pure (a : α) : ComesTo (fun _ => (Pure.pure a : Eval α)) m (.done a m) := .of_forall fun _ => rfl

theorem of_succ (h : ComesTo (fun n => body (n + 1)) m o) : ComesTo body m o := by
  rw [ComesTo, ← map_add_atTop_eq_nat 1]
  exact eventually_map.mpr h

theorem bind {next : Nat → α → Eval β} {a : α} (h : ComesTo body m (.done a m')) (hn : ComesTo (fun n => next n a) m' o') :
    ComesTo (fun n => body n >>= next n) m o' :=
  h.mp (hn.mono fun _ hn h => (Run.bind_of_done h).trans hn)

theorem stops {next : Nat → α → Eval β} (h : ComesTo body m o) (hs : o.Stops o') :
    ComesTo (fun n => body n >>= next n) m o' := by
  refine h.mono fun n hn => ?_
  change (body n >>= next n) m = o'
  rw [Run.bind_apply, hn]
  cases hs <;> rfl

end ComesTo

end Eval

end

end Lox
