import Lox.Proofs.Evaluation.Order

/-!
# Evaluations are orderly

There is one lemma for each kind of work: if what it nests in itself is orderly, so is all of it. From them, by induction on
the fuel, every evaluation is.
-/

namespace Lox

open Eval

/-! ## What operations do not do -/

namespace Eval

theorem superClass_same {id : NodeId} {line : Nat} {m m' : Machine} {c : Class} (h : superClass id line m = .done c m') :
    m' = m := by
  unfold superClass at h
  split at h <;> cases h
  rfl

theorem superReceiver_same {id : NodeId} {line : Nat} {m m' : Machine} {i : Instance}
    (h : superReceiver id line m = .done i m') : m' = m := by
  unfold superReceiver at h
  dsimp only at h
  split at h <;> cases h
  rfl

end Eval

theorem Mark.applyUnary_ne (op : Mark) (v : Value) : op.applyUnary v ≠ .error .stackOverflow := by
  unfold applyUnary
  split <;> nofun

theorem Mark.onNumbers_ne (op : Mark) (x y : Float) : op.onNumbers x y ≠ .error .stackOverflow := by
  unfold onNumbers
  split
  case h_4 | h_5 => split <;> nofun
  all_goals nofun

theorem Mark.applyBinary_ne (op : Mark) (v w : Value) : op.applyBinary v w ≠ .error .stackOverflow := by
  unfold applyBinary
  split
  case h_4 => exact onNumbers_ne _ _ _
  all_goals nofun

section
open Orderly

variable {n : Nat} (ih : ∀ a m, Moment.Orderly ⟨n, a, m⟩)
include ih

/-! ## Expressions -/

theorem orderly_expr (e : Expr) (m : Machine) : Moment.Orderly ⟨n + 1, .expr e, m⟩ := by
  cases e with
  | literal v => exact .step (.own (.pure _)) fun _ hc => by cases hc
  | unary op line e =>
    refine .step (.bind (.call ih .unary rfl) fun v _ _ => .own (.ofExcept (op.applyUnary_ne v))) fun _ hc => ?_
    cases hc with
    | unary => exact .inl rfl
  | binary op line l r =>
    refine .step (.bind (.call ih .binaryLeft rfl) fun v _ hv => .bind (.call ih (.binaryRight hv) rfl)
      fun u _ _ => .own (.ofExcept (op.applyBinary_ne v u))) fun _ hc => ?_
    cases hc with
    | binaryLeft => exact .inl rfl
    | binaryRight hv => exact .inr ⟨_, _, hv, .inl rfl⟩
  | logical op line l r =>
    refine .step (.bind (.call ih .logicalLeft rfl) fun _ _ hv => .ite (fun _ => .own (.pure _))
      fun hs => .call ih (.logicalRight hv (by simpa using hs)) rfl) fun _ hc => ?_
    cases hc with
    | logicalLeft => exact .inl rfl
    | logicalRight hv hs => exact .inr ⟨_, _, hv, .inr ⟨by simp [hs], rfl⟩⟩
  | group e =>
    refine .step (.call ih .group rfl) fun _ hc => ?_
    cases hc with
    | group => rfl
  | var id name => exact .step (.own (.lookUp id name)) fun _ hc => by cases hc
  | assign id name e =>
    refine .step (.bind (.call ih .assigned rfl) fun _ _ _ => .own (.bind (.assign id _ fun hp => hp.writes (.head _))
      fun _ _ _ => .pure _)) fun _ hc => ?_
    cases hc with
    | assigned => exact .inl rfl
  | call f line args =>
    refine .step (.bind (.call ih .callee rfl) fun _ _ hv => .bind (.call ih (.arguments hv) rfl)
      fun _ _ hvs => .call ih (.call hv hvs) rfl) fun _ hc => ?_
    cases hc with
    | callee => exact .inl rfl
    | arguments hv => exact .inr ⟨_, _, hv, .inl rfl⟩
    | call hv hvs => exact .inr ⟨_, _, hv, .inr ⟨_, _, hvs, rfl⟩⟩
  | lambda line r =>
    exact .step (.own (.bind (.read _) fun _ _ _ => .bind (.newFunction _) fun _ _ _ => .pure _)) fun _ hc => by cases hc
  | get e name =>
    refine .step (.bind (.call ih .getObject rfl) fun _ _ hv => .call ih (.get hv) rfl) fun _ hc => ?_
    cases hc with
    | getObject => exact .inl rfl
    | get hv => exact .inr ⟨_, _, hv, rfl⟩
  | set e name value =>
    refine .step (.bind (.call ih .setObject rfl) fun _ _ hv => .call ih (.set hv) rfl) fun _ hc => ?_
    cases hc with
    | setObject => exact .inl rfl
    | set hv => exact .inr ⟨_, _, hv, rfl⟩
  | this id line => exact .step (.own (.lookUp id _)) fun _ hc => by cases hc
  | super id line method =>
    refine .step (.call ih .super rfl) fun _ hc => ?_
    cases hc with
    | super => rfl

theorem orderly_exprs (es : List Expr) (m : Machine) : Moment.Orderly ⟨n + 1, .exprs es, m⟩ := by
  cases es with
  | nil => exact .step (.own (.pure _)) fun _ hc => by cases hc
  | cons e es =>
    refine .step (.bind (.call ih .head rfl) fun _ _ hv => .bind (.call ih (.tail hv) rfl) fun _ _ _ => .own (.pure _))
      fun _ hc => ?_
    cases hc with
    | head => exact .inl rfl
    | tail hv => exact .inr ⟨_, _, hv, .inl rfl⟩

/-! ## Properties -/

theorem orderly_setProperty (object : Value) (name : Name) (e : Expr) (m : Machine) :
    Moment.Orderly ⟨n + 1, .setProperty object name e, m⟩ := by
  cases object with
  | object i =>
    refine .step (.bind (.call ih .fieldValue rfl) fun _ _ _ => .own (.bind (.setField _ _ _) fun _ _ _ => .pure _))
      fun _ hc => ?_
    cases hc with
    | fieldValue => exact .inl rfl
  | _ => exact .step (.own (.fail nofun)) fun _ hc => by cases hc

theorem orderly_property (object : Value) (name : Name) (m : Machine) : Moment.Orderly ⟨n + 1, .property object name, m⟩ := by
  cases object with
  | object i =>
    refine .step (.bind (.own (.read _)) fun found m' hfound => .ofOption (fun hv => .ofOption (fun _ => .own (.fail nofun))
      fun f hf => .call ih (by cases hfound; exact .method hv hf) rfl) fun v _ => .own (.pure v)) fun _ hc => ?_
    cases hc with
    | method hv hf => exact .inr ⟨_, _, rfl, .inl ⟨hv, .inr ⟨_, hf, rfl⟩⟩⟩
  | klass c =>
    refine .step (.ofOption (fun _ => .own (.fail nofun)) fun f hf => .ite (fun hg => .call ih (.staticGetter hf hg) rfl)
      fun _ => .own (.pure _)) fun _ hc => ?_
    cases hc with
    | staticGetter hf hg => exact .inr ⟨_, hf, .inl ⟨hg, rfl⟩⟩
  | _ => exact .step (.own (.fail nofun)) fun _ hc => by cases hc

theorem orderly_superProperty (id : NodeId) (line : Nat) (method : Name) (m : Machine) :
    Moment.Orderly ⟨n + 1, .superProperty id line method, m⟩ := by
  refine .step (.bind (.own (.superClass id line)) fun c m₁ hc => .bind (.own (.superReceiver id line)) fun i m₂ hi =>
    .ofOption (fun _ => .own (.fail nofun)) fun f hf => .call ih ?_ rfl) fun _ hc => ?_
  · obtain rfl := superClass_same hc
    obtain rfl := superReceiver_same hi
    exact .superMethod hc hi hf
  · cases hc with
    | superMethod hc hi hf => exact .inr ⟨_, _, hc, .inr ⟨_, _, hi, .inr ⟨_, hf, rfl⟩⟩⟩

theorem orderly_methodOf (c : Closure) (i : Instance) (line : Nat) (m : Machine) :
    Moment.Orderly ⟨n + 1, .methodOf c i line, m⟩ := by
  refine .step (.bind (.own (.bindThis c i)) fun bound _ hbound => .ite (fun hg => .call ih (.getter hbound hg) rfl)
    fun _ => .own (.bind .freshSerial fun _ _ _ => .pure _)) fun _ hc => ?_
  cases hc with
  | getter hbound hg => exact .inr ⟨_, _, hbound, .inl ⟨hg, rfl⟩⟩

/-! ## Calls -/

theorem orderly_call (v : Value) (args : List Value) (line : Nat) (m : Machine) :
    Moment.Orderly ⟨n + 1, .call v args line, m⟩ := by
  refine .step (.ofOption (fun _ => .own (.fail nofun)) fun f hf => .ite (fun hl => .call ih (.apply hf hl) rfl)
    fun _ => .own (.fail nofun)) fun _ hc => ?_
  cases hc with
  | apply hf hl => exact .inr ⟨_, hf, .inl ⟨hl, rfl⟩⟩

theorem orderly_apply (f : Callee) (args : List Value) (line : Nat) (m : Machine) :
    Moment.Orderly ⟨n + 1, .apply f args line, m⟩ := by
  cases f with
  | native fn => exact .step (.own (.callNative fn args line)) fun _ hc => by cases hc
  | closure c =>
    refine .step (.call ih .closure rfl) fun _ hc => ?_
    cases hc with
    | closure => rfl
  | construct c =>
    refine .step (.bind (.own (.newInstance c)) fun i _ hi => .ofOption (fun _ => .own (.pure _)) fun f hf =>
      .bind (.own (.bindThis f.closure i)) fun bound _ hbound => .bind (.call ih (.initializer hi hf hbound) rfl)
        fun _ _ _ => .own (.pure _)) fun _ hc => ?_
    cases hc with
    | initializer hi hf hbound => exact .inr ⟨_, _, hi, .inr ⟨_, hf, .inr ⟨_, _, hbound, .inl rfl⟩⟩⟩

/-- The one place where the depth changes, and where the overflow is raised. -/
theorem orderly_enter (c : Closure) (args : List Value) (line : Nat) (m : Machine) :
    Moment.Orderly ⟨n + 1, .enter c args line, m⟩ :=
  .step (.asCall (ih (.runBody c args) _)) fun _ hc => by
    cases hc with
    | enter hd => exact ⟨hd, rfl⟩

theorem orderly_runBody (c : Closure) (args : List Value) (m : Machine) : Moment.Orderly ⟨n + 1, .runBody c args, m⟩ := by
  refine .step (.bind (.own (.newFrame _ _)) fun env m' hframe => .bind (.within (.call ih (.body hframe) rfl))
    fun _ _ _ => .ite (fun _ => .own (.receiverOf c)) fun _ => .own (.pure _)) fun _ hc => ?_
  cases hc with
  | body hframe => exact .inr ⟨_, _, hframe, .inl rfl⟩

/-! ## Statements -/

theorem orderly_stmt (st : Stmt) (m : Machine) : Moment.Orderly ⟨n + 1, .stmt st, m⟩ := by
  cases st with
  | expr e =>
    refine .step (.bind (.call ih .statement rfl) fun _ _ _ => .own (.pure _)) fun _ hc => ?_
    cases hc with
    | statement => exact .inl rfl
  | print e =>
    refine .step (.bind (.call ih .print rfl) fun _ _ _ => .own (.bind (.writeLine _ nofun) fun _ _ _ => .pure _))
      fun _ hc => ?_
    cases hc with
    | print => exact .inl rfl
  | varDecl name init =>
    cases init with
    | none =>
      exact .step (.own (.bind (.define _ fun hp => hp.writes (.head _)) fun _ _ _ => .pure _)) fun _ hc => by cases hc
    | some e =>
      refine .step (.bind (.call ih .varDecl rfl) fun _ _ _ => .own (.bind (.define _ fun hp => hp.writes (.head _))
        fun _ _ _ => .pure _)) fun _ hc => ?_
      cases hc with
      | varDecl => exact .inl rfl
  | block body =>
    refine .step (.bind (.own (.read _)) fun here m₁ hhere => .bind (.own (.newFrame _ _)) fun env m' hframe =>
      .within (.call ih (by cases hhere; exact .block hframe) rfl)) fun _ hc => ?_
    cases hc with
    | block hframe => exact .inr ⟨_, _, rfl, .inr ⟨_, _, hframe, rfl⟩⟩
  | branch c st st' =>
    cases st' with
    | none =>
      refine .step (.bind (.call ih .condition rfl) fun _ _ hv => .ite (fun ht => .call ih (.thenBranch hv ht) rfl)
        fun _ => .own (.pure _)) fun _ hc => ?_
      cases hc with
      | condition => exact .inl rfl
      | thenBranch hv ht => exact .inr ⟨_, _, hv, .inl ⟨ht, rfl⟩⟩
    | some st' =>
      refine .step (.bind (.call ih .condition rfl) fun _ _ hv => .ite (fun ht => .call ih (.thenBranch hv ht) rfl)
        fun hf => .call ih (.elseBranch hv (by simpa using hf)) rfl) fun _ hc => ?_
      cases hc with
      | condition => exact .inl rfl
      | thenBranch hv ht => exact .inr ⟨_, _, hv, .inl ⟨ht, rfl⟩⟩
      | elseBranch hv hf => exact .inr ⟨_, _, hv, .inr ⟨by simp [hf], rfl⟩⟩
  | loop c body =>
    refine .step (.call ih .loop rfl) fun _ hc => ?_
    cases hc with
    | loop => rfl
  | funDecl name r =>
    exact .step (.own (.bind (.read _) fun _ _ _ => .bind (.newFunction _) fun _ _ _ =>
      .bind (.define _ fun hp => hp.writes (.head _)) fun _ _ _ => .pure _)) fun _ hc => by cases hc
  | returns form line e =>
    cases e with
    | none => exact .step (.own (.pure _)) fun _ hc => by cases hc
    | some e =>
      refine .step (.bind (.call ih .returns rfl) fun _ _ _ => .own (.pure _)) fun _ hc => ?_
      cases hc with
      | returns => exact .inl rfl
  | breaks line => exact .step (.own (.pure _)) fun _ hc => by cases hc
  | classDecl name ref ms ss =>
    refine .step (.bind (.call ih .superclass rfl) fun parent _ _ => .own (.bind (.define _ fun hp => hp.writes (.head _))
      fun _ _ _ => .bind (.newClass name parent ms ss) fun _ _ _ => .bind (.overwrite _ fun hp => hp.writes (.head _))
        fun _ _ _ => .pure _)) fun _ hc => ?_
    cases hc with
    | superclass => exact .inl rfl

omit ih in
theorem orderly_superclass (cls : Name) (ref : Option Reference) (m : Machine) :
    Moment.Orderly ⟨n + 1, .superclass cls ref, m⟩ := by
  cases ref with
  | none => exact .step (.own (.pure _)) fun _ hc => by cases hc
  | some ref =>
    refine .step (.own (.bind (.lookUp ref.id ref.name) fun v _ _ => ?_)) fun _ hc => by cases hc
    cases v with
    | klass c => exact .pure _
    | _ => exact .fail nofun

theorem orderly_stmts (sts : List Stmt) (m : Machine) : Moment.Orderly ⟨n + 1, .stmts sts, m⟩ := by
  cases sts with
  | nil => exact .step (.own (.pure _)) fun _ hc => by cases hc
  | cons st sts =>
    have rest : ∀ flow m', execute n st m = .done flow m' → Orderly (Moment.work ⟨n + 1, .stmts (st :: sts), m⟩) m'
        (fun z => flow = .completed ∧ z = ⟨n, .stmts sts, m'⟩) (Access.goOn (fun a => a.run n) sts flow m') := by
      intro flow m' hflow
      cases flow with
      | completed => exact (call ih (.rest hflow) rfl).congr fun z => by simp
      | _ => exact (own (.pure _)).congr fun z => by simp
    refine .step (.bind (.call ih .first rfl) rest) fun _ hc => ?_
    cases hc with
    | first => exact .inl rfl
    | rest hflow => exact .inr ⟨_, _, hflow, rfl, rfl⟩

theorem orderly_loop (c : Expr) (body : Stmt) (m : Machine) : Moment.Orderly ⟨n + 1, .loop c body, m⟩ := by
  have again : ∀ v m' flow m'', evaluate n c m = .done v m' → v.isTruthy = true → execute n body m' = .done flow m'' →
      Orderly (Moment.work ⟨n + 1, .loop c body, m⟩) m'' (fun z => flow = .completed ∧ z = ⟨n, .loop c body, m''⟩)
        (Access.turnAround (fun a => a.run n) c body flow m'') := by
    intro v m' flow m'' hv ht hflow
    cases flow with
    | completed => exact (call ih (.again hv ht hflow) rfl).congr fun z => by simp
    | _ => exact (own (.pure _)).congr fun z => by simp
  refine .step (.bind (.call ih .loopCondition rfl) fun v m' hv => .ite (fun ht => .bind (.call ih (.loopBody hv ht) rfl)
    fun flow m'' hflow => again v m' flow m'' hv ht hflow) fun _ => .own (.pure _)) fun _ hc => ?_
  cases hc with
  | loopCondition => exact .inl rfl
  | loopBody hv ht => exact .inr ⟨_, _, hv, .inl ⟨ht, .inl rfl⟩⟩
  | again hv ht hflow => exact .inr ⟨_, _, hv, .inl ⟨ht, .inr ⟨_, _, hflow, rfl, rfl⟩⟩⟩

end

theorem Moment.all_orderly : ∀ n a m, Moment.Orderly ⟨n, a, m⟩
  | 0, a, m => by
    have h : Lox.Orderly (Moment.work ⟨0, a, m⟩) m (fun _ => False) (Moment.outcome ⟨0, a, m⟩) := by
      have ho : Moment.outcome ⟨0, a, m⟩ = .exhausted := a.run_zero m
      rw [ho]
      exact .own ⟨nofun, nofun, nofun, nofun⟩
    exact h.congr fun z => ⟨fun hc => (nomatch hc), False.elim⟩
  | n + 1, a, m => by
    -- whatever the moment calls has less fuel
    have ih := Moment.all_orderly n
    cases a with
    | expr e => exact orderly_expr ih e m
    | exprs es => exact orderly_exprs ih es m
    | setProperty object name e => exact orderly_setProperty ih object name e m
    | property object name => exact orderly_property ih object name m
    | superProperty id line method => exact orderly_superProperty ih id line method m
    | methodOf c i line => exact orderly_methodOf ih c i line m
    | call v args line => exact orderly_call ih v args line m
    | apply f args line => exact orderly_apply ih f args line m
    | enter c args line => exact orderly_enter ih c args line m
    | runBody c args => exact orderly_runBody ih c args m
    | stmt st => exact orderly_stmt ih st m
    | superclass cls ref => exact orderly_superclass cls ref m
    | stmts sts => exact orderly_stmts ih sts m
    | loop c body => exact orderly_loop ih c body m

namespace Moment

variable {x y : Moment}

/-- Whatever an evaluation comes to, it is orderly. -/
theorem orderly (x : Moment) : x.Orderly := all_orderly x.fuel x.activity x.machine

/-- Work ends in the environment where it has begun. -/
theorem env_of_done {a : Activity} {n : Nat} {m m' : Machine} {r : a.Result} (h : a.run n m = .done r m') : m'.env = m.env := by
  refine (orderly ⟨n, a, m⟩).env m' ?_
  change (a.run n m).EndsIn m'
  rw [h]
  rfl

/-! ## Errors -/

theorem Calls.fuel (hc : x.Calls y) : x.fuel = y.fuel + 1 := by cases hc <;> rfl

/-- An error ends all work around the one that has raised it. -/
theorem Reaches.stops (h : x.Reaches y) {e : Error} (hf : y.outcome.Fails e) : x.outcome.Fails e := by
  induction h with
  | refl => exact hf
  | step hc _ ih => exact (orderly _).stops _ hc e (ih hf)

theorem Overflows.fails {line : Nat} (h : x.Overflows line) : x.outcome.Fails (.runtime line .stackOverflow) := by
  obtain ⟨hd⟩ := h
  exact ⟨_, if_pos hd⟩

theorem overflows_of_fails : ∀ n a m {line : Nat}, (outcome ⟨n, a, m⟩).Fails (.runtime line .stackOverflow) →
    ∃ y, Reaches ⟨n, a, m⟩ y ∧ y.Overflows line
  | 0, a, m, line, ⟨_, hf⟩ => by
    rw [outcome, Activity.run_zero] at hf
    cases hf
  | n + 1, a, m, line, hf => by
    rcases (orderly ⟨n + 1, a, m⟩).raised line hf with h | ⟨⟨k, b, m'⟩, hc, hf⟩
    · exact ⟨_, .refl, h⟩
    · obtain rfl : n = k := Nat.succ.inj hc.fuel
      obtain ⟨y, hr, hy⟩ := overflows_of_fails n b m' hf
      exact ⟨y, .step hc hr, hy⟩

/-- The overflow is raised exactly where a call is attempted that may not be. -/
theorem fails_iff_overflows {line : Nat} :
    x.outcome.Fails (.runtime line .stackOverflow) ↔ ∃ y, x.Reaches y ∧ y.Overflows line :=
  ⟨overflows_of_fails x.fuel x.activity x.machine, fun ⟨_, hr, hy⟩ => hr.stops hy.fails⟩

end Moment

end Lox
