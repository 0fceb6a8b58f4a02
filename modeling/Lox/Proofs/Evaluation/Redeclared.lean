import Lox.Proofs.Evaluation.Judgement
import Lox.Proofs.Evaluation.Receivers
import Lox.Proofs.Evaluation.Vacant

/-!
# Where redeclarations fail

The error of a variable that is there already comes from a declaration that the evaluation turns to and that cannot enter its
variable. It leaves the machine as it is then. No declaration that finds its name free fails in this way.
-/

namespace Lox

open Eval

/-- A variable of that name is there already. -/
def Error.redeclared (line : Nat) (x : String) : Error := .runtime line (.naming (.alreadyDefined x))

/-- What fails because a variable is there already fails in the moment itself, or in one that it calls. -/
def Moment.traced (x : Moment) : Judgement := fun _ m body => ∀ line text, (body m).Fails (.redeclared line text) →
  (∃ m', (∃ v, x.Defines ⟨text, line⟩ v m') ∧ m'.store.freeSlot? m'.env text = none) ∨
    ∃ y, x.Calls y ∧ y.outcome.Fails (.redeclared line text)

namespace Moment.traced

variable {x : Moment} {α β : Type} {m : Machine}

theorem never {body : Eval α} (h : ∀ line text m', body m ≠ .failed (.redeclared line text) m') : x.traced α m body :=
  fun line text ⟨m', hf⟩ => absurd hf (h line text m')

theorem bind {body : Eval α} {next : α → Eval β} (h : x.traced α m body)
    (hn : ∀ a m', body m = .done a m' → x.traced β m' (next a)) : x.traced β m (body >>= next) := by
  rintro line text ⟨m', hf⟩
  rw [Run.bind_apply] at hf
  cases hb : body m with
  | exhausted => rw [hb] at hf; cases hf
  | failed e m₁ => rw [hb] at hf; cases hf; exact h line text ⟨_, hb⟩
  | done a m₁ => rw [hb] at hf; exact hn a m₁ hb line text ⟨m', hf⟩

theorem other (name : Name) : (Eval.undefined name).IsOther := fun _ h => by cases h

theorem setSlot {name : Name} {fault : RuntimeFault} (hf : fault.IsOther) (v : Value) (slot : Machine → Option FrameId) :
    x.traced Unit m (Run.read slot >>= fun found => match found with
      | some frame => Eval.setVar frame name.text v
      | none => Eval.fail name.line fault) := by
  refine bind (never nofun) fun found m' _ => ?_
  cases found with
  | none => exact never fun line text m'' he => by cases he; exact hf text rfl
  | some f => exact never nofun

theorem closed (x : Moment) : Judgement.Closed x.traced where
  pure _ _ := never nofun
  fail _ _ _ h := never fun line text m' he => by cases he; exact h text rfl
  bind h hn := h.bind hn
  within {_ m env body} h := by
    rintro line text ⟨m', hf⟩
    unfold Eval.within at hf
    cases hb : body { m with env } with
    | failed e m₁ => rw [hb] at hf; cases hf; exact h line text ⟨_, hb⟩
    | _ => rw [hb] at hf; cases hf
  asCall {_ m _ body} h := by
    rintro line text ⟨m', hf⟩
    unfold Eval.asCall at hf
    split at hf
    · cases hf
    · rename_i hd
      dsimp only at hf
      cases hb : body { m with depth := m.depth + 1 } with
      | failed e m₁ => rw [hb] at hf; cases hf; exact h hd line text ⟨_, hb⟩
      | _ => rw [hb] at hf; cases hf
  here _ := never nofun
  lookUp _ _ _ := never fun _ _ _ => by
    unfold Eval.lookUp
    dsimp only
    split <;> exact nofun
  assign _ name v _ := setSlot (other name) v _
  overwrite name v _ := setSlot (other name) v _
  newFrame _ _ _ := never nofun
  freshSerial _ := never nofun
  newInstance _ _ := never nofun
  field? _ _ _ := never nofun
  setField _ _ _ _ := never nofun
  superClass _ _ _ := never fun _ _ _ => by
    unfold Eval.superClass
    split <;> exact nofun
  superReceiver _ _ _ := never fun _ _ _ => by
    unfold Eval.superReceiver
    dsimp only
    split <;> exact nofun
  receiverOf _ _ := never fun _ _ _ => by
    unfold Eval.receiverOf
    split <;> exact nofun
  writeLine _ _ := never fun _ _ _ => by
    unfold Eval.writeLine
    split <;> exact nofun
  callNative fn args _ _ := by
    unfold Eval.callNative
    split
    · exact never nofun
    · refine never fun _ _ _ => ?_
      unfold Eval.readLine
      dsimp only
      split <;> exact nofun
    · refine bind (never fun _ _ _ => ?_) fun _ _ _ => never nofun
      unfold Eval.writeLine
      split <;> exact nofun
    · exact never nofun
    · exact never nofun

end Moment.traced

namespace Moment

variable {x y : Moment} {m : Machine} {line : Nat} {text : String}

theorem redeclared_cases : ∀ {x : Moment}, x.outcome.Fails (.redeclared line text) →
    (∃ m', (∃ v, x.Defines ⟨text, line⟩ v m') ∧ m'.store.freeSlot? m'.env text = none) ∨
      ∃ y, x.Calls y ∧ y.outcome.Fails (.redeclared line text)
  | ⟨0, a, m⟩, ⟨m', hf⟩ => by rw [outcome, Activity.run_zero] at hf; cases hf
  | ⟨n + 1, a, m⟩, hf => by
    refine (traced.closed ⟨n + 1, a, m⟩).step (fun b m' hc l t hb => .inr ⟨_, hc, hb⟩) (fun name v m' hd l t hb => ?_) line text hf
    obtain ⟨m₁, hb⟩ := hb
    rw [Eval.define, Run.bind_apply, Run.read_apply] at hb
    dsimp only at hb
    cases hs : m'.store.freeSlot? m'.env name.text with
    | some f => rw [hs] at hb; cases hb
    | none => rw [hs] at hb; cases hb; exact .inl ⟨m', ⟨v, hd⟩, hs⟩

/-- Of a declaration the variable is not in the frame yet, if its name has been free before. -/
theorem Vacant.defines (h : x.Vacant) {name : Name} {v : Value} (hd : x.Defines name v m) : m.store.freeSlot? m.env name.text ≠ none := by
  have hm : m.store.Vacant m.env [name.text] := by
    cases hd with
    | declared => exact h trivial
    | initialized hv => exact (h trivial).after (a := .expr _) (fun _ _ => List.not_mem_nil) hv
    | function hc hf =>
      cases hc
      cases hf
      exact ⟨(h trivial).nodup, (h trivial).frame⟩
    | cls hp => exact (h trivial).after (a := .superclass name _) (fun _ _ => List.not_mem_nil) hp
  obtain ⟨f, hf, -, hnone⟩ := hm.frame
  simp [Store.freeSlot?, hf, hnone name.text (.head _)]

theorem Vacant.not_redeclared (h : x.Vacant) (hd : x.Distinct) : ¬ x.outcome.Fails (.redeclared line text) := by
  -- every moment that is called has less fuel
  obtain ⟨n, a, m⟩ := x
  induction n generalizing a m with
  | zero =>
    rintro ⟨m', hf⟩
    rw [outcome, Activity.run_zero] at hf
    cases hf
  | succ n ih =>
    intro hf
    rcases redeclared_cases hf with ⟨m', ⟨v, hdef⟩, hnone⟩ | ⟨⟨k, b, m'⟩, hc, hfb⟩
    · exact h.defines hdef hnone
    · obtain rfl : k = n := by cases hc <;> rfl
      exact ih b m' (h.calls hd hc) (hd.calls hc) hfb

/-- The machine on which a declaration enters its variable: what it evaluates before has been evaluated. -/
inductive Initialized : (fuel : Nat) → Stmt → Machine → Machine → Prop where
  | initializer {n name e m v m'} : Eval.evaluate n e m = .done v m' → Initialized (n + 1) (.varDecl name (some e)) m m'
  | other {n decl m} : (∀ name e, decl ≠ .varDecl name (some e)) → Initialized n decl m m

/-- Nothing but an initializer changes a frame before. -/
theorem Defines.enters {n : Nat} {decl : Stmt} {m m' : Machine} {name : Name} {v : Value}
    (hd : Defines ⟨n, .stmt decl, m⟩ name v m') : ∃ m₀, Initialized n decl m m₀ ∧ m'.store.frames = m₀.store.frames ∧ m'.env = m.env := by
  cases hd with
  | declared => exact ⟨m, .other (by simp), rfl, rfl⟩
  | initialized hv => exact ⟨m', .initializer hv, rfl, (orderly ⟨_, .expr _, m⟩).env m' (by rw [Moment.outcome, Activity.run, hv]; rfl)⟩
  | function hc hf => cases hc; cases hf; exact ⟨m, .other (by simp), rfl, rfl⟩
  | @cls n m name ref ms ss parent m' hp =>
    obtain rfl := evaluateSuperclass_same hp
    exact ⟨m', .other (by simp), rfl, rfl⟩

/-- A declaration that cannot enter its variable leaves the machine as it is then. -/
theorem Defines.outcome {name : Name} {v : Value} (hd : x.Defines name v m) (hnone : m.store.freeSlot? m.env name.text = none) :
    x.outcome.EndsIn m := by
  have hdef : Eval.define name v m = .failed (.redeclared name.line name.text) m := by
    rw [Eval.define, Run.bind_apply, Run.read_apply]
    dsimp only
    rw [hnone]
    rfl
  cases hd with
  | declared => simp only [Moment.outcome, Activity.run, Eval.execute, Run.bind_apply, hdef]; rfl
  | initialized hv => simp only [Moment.outcome, Activity.run, Eval.execute, Run.bind_apply, hv, hdef]; rfl
  | function hc hf => simp only [Moment.outcome, Activity.run, Eval.execute, Run.bind_apply, hc, hf, hdef]; rfl
  | cls hp => simp only [Moment.outcome, Activity.run, Eval.execute, Run.bind_apply, hp, hdef]; rfl

end Moment

end Lox
