import Lox.Proofs.Scope.Lawful
import Lox.Proofs.Syntax.Fits
import Lox.Proofs.Session.Owned
import Lox.Proofs.Evaluation.Redeclared

/-!
# Redeclarations in a session

A program that runs declares no name twice in a local scope, and so do the functions that a session holds. So only in the
global scope, to which programs add one after the other, can a declaration find a variable of its name.
-/

namespace Lox

variable {h : History} {r : Request}

/-! ## All code declares different names in each scope -/

theorem Checked.distinct {source : String} {nextId : NodeId} {c : Checked} (hc : (analyze source nextId).checked = some c) :
    TwinStmts .distinct c.program c.program := by
  obtain ⟨hprog, he, -⟩ := of_analyze hc
  have hf : Follows {} {} := ⟨.nil, fun x => by simp [Resolution.inOwnInitializer, Position.Initializes]⟩
  have hallowed := ((resolveStmts_enacts c.program hf Position.settled_global).errors.mp he).2.2
  exact twinStmts_self c.program ⟨fun _ _ => rfl, fun n hn => (hallowed n hn).distinct⟩

/-- So it is with all code of the session, and with that of the values that calls have given. -/
structure History.Distinct (h : History) : Prop where
  machine : ∃ m', h.session.machine.Twin .distinct m'
  given : ∀ v ∈ h.given, ∃ v', v.Twin .distinct v'

/-- Nodes are tied to nodes with the same identity, so all tables may be merged with another one. -/
theorem Machine.Twin.merge {m m' : Machine} (hm : m.Twin .distinct m') (table : BindingTable) :
    Machine.Twin .distinct { m with bindings := m.bindings.merge table } { m' with bindings := m'.bindings.merge table } where
  store := hm.store
  env := hm.env
  depth := hm.depth
  bindings := by
    rintro id _ rfl
    rw [BindingTable.get?_merge, BindingTable.get?_merge, hm.bindings id id rfl]
  input := hm.input
  output := hm.output
  clock := hm.clock

namespace History.Distinct

theorem start (input : Input) (output : Sink) (clock : Nat) : (History.start input output clock).Distinct where
  machine := by
    refine ⟨_, Store.twin_self ⟨fun f x v hv => ?_, fun i x v hv => ?_⟩, rfl, rfl, ?_, rfl, rfl, rfl⟩
    · have hv : (Store.empty.extend initialGlobals []).2.var? f x = some v := hv
      rw [Store.var?_extend] at hv
      split at hv
      · obtain ⟨fn, rfl⟩ := History.Ready.initialGlobals_get? hv
        exact .native fn
      · simp [Store.var?, Store.frame?, Store.empty] at hv
    · simp [Store.field?, History.start, Session.start, Machine.start, Store.extend, Store.empty] at hv
    · rintro id _ rfl
      rfl
  given := nofun

theorem offers (hd : h.Distinct) {v : Value} (hv : h.Offers v) : ∃ v', v.Twin .distinct v' := by
  obtain ⟨m', hm⟩ := hd.machine
  induction hv with
  | nil => exact ⟨_, .nil⟩
  | bool => exact ⟨_, .bool _⟩
  | number => exact ⟨_, .number _⟩
  | string => exact ⟨_, .string _⟩
  | native => exact ⟨_, .native _⟩
  | given hv => exact hd.given _ hv
  | @var f x v hv => exact rel_of_some (hv ▸ hm.store.vars f x)
  | @field i x v hv =>
    have hv : h.session.machine.store.fields[i.id]?.bind (·.get? x) = some v := hv
    exact rel_of_some (hv ▸ hm.store.fields i.id x)
  | cls _ ih =>
    obtain ⟨_, ih⟩ := ih
    cases ih with
    | object hi => exact ⟨_, .klass hi.cls⟩
  | @superclass c layer rest _ hc ih =>
    obtain ⟨_, ih⟩ := ih
    cases ih with
    | @klass _ c' hcc =>
      have hanc := hcc.ancestors
      rw [hc] at hanc
      generalize c'.ancestors = ancestors at hanc
      cases hanc with
      | cons hl hrest => exact ⟨.klass ⟨_, _⟩, .klass ⟨hl, hrest⟩⟩
  | static _ hf ih =>
    obtain ⟨_, ih⟩ := ih
    cases ih with
    | klass hc =>
      obtain ⟨_, hff⟩ := rel_of_some (hf ▸ hc.static? _)
      exact ⟨_, .function hff⟩
  | receiver _ ih =>
    obtain ⟨_, ih⟩ := ih
    cases ih with
    | bound hb => exact ⟨_, .object hb.receiver⟩

theorem offers_all (hd : h.Distinct) : ∀ {vs : List Value}, (∀ v ∈ vs, h.Offers v) → ∃ vs', List.Forall₂ (Value.Twin .distinct) vs vs'
  | [], _ => ⟨[], .nil⟩
  | v :: vs, hvs => by
    obtain ⟨v', hv⟩ := hd.offers (hvs v (.head _))
    obtain ⟨vs', hvs⟩ := offers_all hd fun v hv => hvs v (.tail _ hv)
    exact ⟨v' :: vs', .cons hv hvs⟩

theorem begun (hd : h.Distinct) (r : Request) : ∃ m', (r.machine h.session).Twin .distinct m' := by
  obtain ⟨m', hm⟩ := hd.machine
  cases r with
  | call => exact ⟨m', hm⟩
  | run fuel source =>
    simp only [Request.machine]
    cases (analyze source h.session.nextId).checked with
    | none => exact ⟨m', hm⟩
    | some c => exact ⟨_, hm.merge c.table⟩

/-- All moments that a request begins with have a twin. -/
theorem begins (hd : h.Distinct) (ha : h.Allows r) {x : Moment} (hb : r.Begins h.session x) : x.HasTwin .distinct := by
  cases hb with
  | call =>
    obtain ⟨m', hm⟩ := hd.machine
    obtain ⟨v', hv⟩ := hd.offers ha.1
    obtain ⟨vs', hvs⟩ := hd.offers_all ha.2
    exact .of (.call hv hvs) hm
  | @statement fuel source c before st after m hc hprog hm =>
    obtain ⟨m', hm'⟩ := hd.begun (.run fuel source)
    have hall := Checked.distinct hc
    rw [hprog] at hall
    obtain ⟨_, _, hbefore, hafter⟩ := hall.of_append
    cases hafter with
    | cons hst _ =>
      obtain ⟨_, _, -, hm⟩ := (Eval.Follows.executeEach hbefore).of_done hm' hm
      exact .of (.stmt hst) hm

/-- A request leaves code that declares different names in each scope. -/
theorem answer (hd : h.Distinct) (ha : h.Allows r) {a : Answer} (hans : h.session.answer? r = some a) : (h.after r a).Distinct := by
  obtain ⟨m', hm⟩ := hd.begun r
  cases r with
  | call fuel callee arguments line =>
    obtain ⟨v', hv⟩ := hd.offers ha.1
    obtain ⟨vs', hvs⟩ := hd.offers_all ha.2
    have hcall := (Eval.followed .distinct fuel).call line hv hvs
    simp only [Session.answer?, Session.call] at hans
    cases ho : Eval.call fuel callee arguments line h.session.machine with
    | exhausted => rw [ho] at hans; cases hans
    | failed e m =>
      rw [ho] at hans
      cases hans
      exact ⟨hcall.of_ends hm (ho ▸ rfl), hd.given⟩
    | done v m =>
      rw [ho] at hans
      cases hans
      obtain ⟨v', m', hv, hm⟩ := hcall.of_done hm ho
      exact ⟨⟨m', hm⟩, List.forall_mem_cons.mpr ⟨⟨v', hv⟩, hd.given⟩⟩
  | run fuel source =>
    cases hc : (analyze source h.session.nextId).checked with
    | none =>
      simp only [Session.answer?, Session.run, hc] at hans
      cases hans
      exact ⟨hd.machine, hd.given⟩
    | some c =>
      have hrun := (Eval.Follows.executeEach (n := fuel) (Checked.distinct hc)).flushing
      simp only [Session.answer?, Session.run, hc, Request.interpret_eq hc] at hans
      cases ho : Eval.flushing (Eval.executeEach fuel c.program) ((Request.run fuel source).machine h.session) with
      | exhausted => rw [ho] at hans; cases hans
      | failed e m => rw [ho] at hans; cases hans; exact ⟨hrun.of_ends hm (ho ▸ rfl), hd.given⟩
      | done v m => rw [ho] at hans; cases hans; exact ⟨hrun.of_ends hm (ho ▸ rfl), hd.given⟩

end History.Distinct

theorem History.Possible.distinct (hp : h.Possible) : h.Distinct := by
  induction hp with
  | start => exact .start _ _ _
  | next _ ha hans ih => exact ih.answer ha hans
  | between input output clock _ ih =>
    obtain ⟨m', hm⟩ := ih.machine
    exact ⟨⟨{ m' with input, output, clock }, { hm with input := rfl, output := rfl, clock := rfl }⟩, ih.given⟩

/-! ## Declarations that fail -/

variable {x : Moment} {m m' : Machine}

theorem History.Possible.distinct_meets (hp : h.Possible) (ha : h.Allows r) (hx : r.Meets h.session x) : x.Distinct := by
  have hready := hp.ready
  obtain ⟨y, hb, hreach⟩ := hx
  refine ⟨(hp.distinct.begins ha hb).reaches hreach, fun z c st hz hloop => ?_⟩
  obtain ⟨-, Γ, hr⟩ := hready.meets ha ⟨y, hb, hreach.trans hz⟩
  rw [hloop] at hr
  exact hr.2.2.2.2

/-- Declarations find their names free, but for those in the global scope. -/
theorem History.Possible.vacant_or_global (hp : h.Possible) (ha : h.Allows r) (hx : r.Meets h.session x) :
    x.Vacant ∨ x.machine.env = globalEnv := by
  obtain ⟨y, hb, hreach⟩ := hx
  refine Moment.vacant_or_outside ?_ (hp.distinct_meets ha ⟨y, hb, .refl⟩) hreach
  cases hb with
  | call => exact .inl False.elim
  | @statement fuel source c before st after m hc hprog hm =>
    obtain ⟨hcont, -⟩ := (hp.ready.prefix_ends fuel hc hprog).of_done hm
    exact .inr (hcont.env.trans ((Request.machine_env _ _).trans hp.ready.at_global.1))

/-- A declaration fails on account of a variable that is there already in the global scope only. The variable is there then, and
all variables stay as the initializer has left them, if there is one, and as they have been otherwise. -/
theorem redeclaration_is_global (hp : h.Possible) (ha : h.Allows r) {n : Nat} {decl : Stmt} (hdecl : decl.isDeclaration = true)
    (hx : r.Meets h.session ⟨n, .stmt decl, m⟩) {line : Nat} {fault : RuntimeFault} {text : String}
    (hmessage : fault.message = "Variable '" ++ text ++ "' is already defined in this scope.")
    (hf : Eval.execute n decl m = .failed (.runtime line fault) m') :
    m.env = globalEnv ∧ ∃ m₀, Moment.Initialized n decl m m₀ ∧ (m₀.global? text).isSome ∧ m'.store.frames = m₀.store.frames := by
  obtain rfl : fault = .naming (.alreadyDefined text) := RuntimeFault.message_injective hmessage
  have hdistinct := hp.distinct_meets ha hx
  have hfails : (Moment.mk n (.stmt decl) m).outcome.Fails (.redeclared line text) := ⟨m', hf⟩
  have henv : m.env = globalEnv := (hp.vacant_or_global ha hx).resolve_left fun hv => hv.not_redeclared hdistinct hfails
  refine ⟨henv, ?_⟩
  rcases Moment.redeclared_cases hfails with ⟨m₁, ⟨v, hd⟩, hnone⟩ | ⟨y, hc, hy⟩
  · obtain ⟨m₀, hinit, hframes, henv₁⟩ := hd.enters
    obtain rfl : m' = m₁ := by
      have he : (Eval.execute n decl m).EndsIn m₁ := hd.outcome hnone
      rw [hf] at he
      exact he.symm
    refine ⟨m₀, hinit, ?_, hframes⟩
    rw [henv₁, henv] at hnone
    have hvar : (m'.store.var? 0 text).isSome := by
      simpa [Store.freeSlot?, globalEnv, Option.isSome_iff_ne_none] using hnone
    simpa [Machine.global?, Store.readAt, Store.ancestor?, globalEnv, Store.var?, Store.frame?, hframes] using hvar
  · -- what a declaration evaluates before is no statement, so that it fails for other reasons only
    have hv : y.Vacant := fun hs => by cases hc <;> first | exact hs.elim | cases hdecl
    exact absurd hy (hv.not_redeclared (hdistinct.calls hc))

/-- The program declares the variable again, and assigns to it in the initializer. -/
def reassigning : Request := .run 20 "var a; var a = (a = true);"

theorem reassigning_fails : ∃ decl m m', reassigning.Meets (History.start (.ofBytes []) .unlimited 0).session ⟨20, .stmt decl, m⟩ ∧
    decl.isDeclaration = true ∧ Eval.execute 20 decl m = .failed (.redeclared 1 "a") m' ∧
    (m.global? "a").map Value.text = some "nil" ∧ (m'.global? "a").map Value.text = some "true" := by
  let name : Name := ⟨"a", 1⟩
  let first : Stmt := .varDecl name none
  let decl : Stmt := .varDecl name (some (.group (.assign 1 name (.literal (.bool true)))))
  obtain ⟨c, hc, hprog⟩ : ∃ c, (analyze "var a; var a = (a = true);" 0).checked = some c ∧ c.program = [first] ++ decl :: [] :=
    ⟨_, rfl, rfl⟩
  obtain ⟨m, m', hfirst, hf, hbefore, hafter⟩ : ∃ m m',
      Eval.executeEach 20 [first] (reassigning.machine (History.start (.ofBytes []) .unlimited 0).session) = .done () m ∧
      Eval.execute 20 decl m = .failed (.redeclared 1 "a") m' ∧
      (m.global? "a").map Value.text = some "nil" ∧ (m'.global? "a").map Value.text = some "true" := ⟨_, _, rfl, rfl, rfl, rfl⟩
  exact ⟨decl, m, m', ⟨_, .statement hc hprog hfirst, .refl⟩, rfl, hf, hbefore, hafter⟩

theorem redeclaration_of_reassigned :
    ∃ decl m m', reassigning.Meets (History.start (.ofBytes []) .unlimited 0).session ⟨20, .stmt decl, m⟩ ∧
      Eval.execute 20 decl m = .failed (.redeclared 1 "a") m' ∧
      m.env = globalEnv ∧ ∃ m₀, Moment.Initialized 20 decl m m₀ ∧ (m₀.global? "a").isSome ∧ m'.store.frames = m₀.store.frames := by
  obtain ⟨decl, m, m', hx, hdecl, hf, -, -⟩ := reassigning_fails
  have ha : (History.start (.ofBytes []) .unlimited 0).Allows reassigning := trivial
  exact ⟨decl, m, m', hx, hf, redeclaration_is_global .start ha hdecl hx rfl hf⟩

/-- The initializer may have changed the variable before the declaration fails. -/
theorem redeclaration_after_assignment :
    ∃ decl m m', reassigning.Meets (History.start (.ofBytes []) .unlimited 0).session ⟨20, .stmt decl, m⟩ ∧
      decl.isDeclaration = true ∧ Eval.execute 20 decl m = .failed (.redeclared 1 "a") m' ∧ m'.global? "a" ≠ m.global? "a" := by
  obtain ⟨decl, m, m', hx, hdecl, hf, hbefore, hafter⟩ := reassigning_fails
  refine ⟨decl, m, m', hx, hdecl, hf, fun he => ?_⟩
  rw [he, hbefore] at hafter
  exact absurd hafter (by decide)

end Lox
