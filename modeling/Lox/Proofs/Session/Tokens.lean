import Lox.Proofs.Evaluation.Followed
import Lox.Proofs.Scope.Twin
import Lox.Proofs.Session.Joined

/-!
# Running tokens

A session can run tokens as well as a source text. Two sequences of tokens that are read as the same program, but for groups and
identities, are accepted or rejected together, and their runs come to the same end.
-/

namespace Lox

/-- What the static phases make of tokens. -/
def analyzeTokens (tokens : List Token) (nextId : NodeId) : Analysis :=
  let parsed := parseProgram tokens nextId
  let nextId := parsed.nextId
  if parsed.errors.isEmpty then
    let r := resolveProgram parsed.tree
    if r.errors.isEmpty then
      { checked := some { program := parsed.tree, table := r.table }, errors := [], warnings := r.warnings, nextId }
    else { checked := none, errors := r.errors, warnings := r.warnings, nextId }
  else { checked := none, errors := parsed.errors, warnings := [], nextId }

theorem analyze_eq_tokens {source : String} (h : errorsOf (Item.ofSource source) = []) (nextId : NodeId) :
    analyze source nextId = analyzeTokens (tokensOf (Item.ofSource source)) nextId := by
  simp only [analyze, analyzeTokens, h, List.nil_append]

namespace Session

/-- Runs tokens. -/
def runTokens (fuel : Nat) (tokens : List Token) (s : Session) : Option (Report × Session) :=
  let a := analyzeTokens tokens s.nextId
  match a.checked with
  | none => some ({ status := .staticError, errors := a.errors, warnings := a.warnings }, { s with nextId := a.nextId })
  | some c => ended a.warnings a.nextId (Eval.interpret fuel c.program c.table s.machine)

/-- A source text is run as its tokens are. -/
theorem run_eq_runTokens {source : String} (h : errorsOf (Item.ofSource source) = []) (fuel : Nat) (s : Session) :
    s.run fuel source = s.runTokens fuel (tokensOf (Item.ofSource source)) := by
  unfold runTokens
  rw [← analyze_eq_tokens h]
  dsimp only
  cases hc : (analyze source s.nextId).checked with
  | none => exact run_of_unchecked hc fuel
  | some c => exact run_of_checked hc fuel

/-- The runs report the same, and leave machines on which all is the same but the groups and identities in the code. -/
structure SameEnd (a a' : Report × Session) : Prop where
  report : a'.1 = a.1
  machine : ∃ T, a.2.machine.Twin T a'.2.machine

/-- Where the run of the first tokens ends, so does that of the others, if it has fuel enough. -/
def Follows (s : Session) (tokens tokens' : List Token) : Prop :=
  ∀ fuel a, s.runTokens fuel tokens = some a → ∃ a' enough, SameEnd a a' ∧ ∀ fuel' ≥ enough, s.runTokens fuel' tokens' = some a'

end Session

/-! ## Machines are their own twins -/

section
variable {R : NodeId → NodeId → Prop}

theorem Routine.twin_on {r : Routine} (h : ∀ i ∈ r.ids, R i i) : r.Twin (.on R) r :=
  r.twin_self (⟨h, fun _ _ _ _ => trivial⟩ : (Ties.on R).Suit r.ids (r.nodes {}))

namespace World

variable {w : World} (hw : ∀ o, w.known o → R o.id o.id) {s : Store}
include hw

theorem SeesRoutine.twin {r : Routine} {Γ : Scopes} (h : w.SeesRoutine r Γ) : r.Twin (.on R) r := by
  refine Routine.twin_on fun i hi => ?_
  rw [← r.map_id_occurrences Γ] at hi
  obtain ⟨o, ho, rfl⟩ := List.mem_map.mp hi
  exact hw o (h.known o ho)

theorem Callable.twin {c : Closure} (h : w.Callable s c) : c.Twin (.on R) c := by
  obtain ⟨Γ, h⟩ := h
  exact ⟨rfl, h.sees.twin hw, rfl, rfl, rfl⟩

theorem Bindable.twin {c : Closure} (h : w.Bindable s c) : c.Twin (.on R) c := by
  obtain ⟨Γ, decl, h⟩ := h
  exact ⟨rfl, h.sees.twin hw, rfl, rfl, rfl⟩

theorem LayerReady.twin {layer : ClassLayer} (h : w.LayerReady s layer) : layer.Twin (.on R) layer where
  serial := rfl
  name := rfl
  methods x := by
    cases hf : layer.methods.get? x with
    | none => exact .none
    | some f => exact .some ⟨rfl, (h.methods x f hf).twin hw⟩
  statics x := by
    cases hf : layer.statics.get? x with
    | none => exact .none
    | some f => exact .some ⟨rfl, (h.statics x f hf).twin hw⟩

theorem ClassReady.twin {c : Class} (h : w.ClassReady s c) : c.Twin (.on R) c where
  layer := (h _ (.head _)).twin hw
  ancestors := List.forall₂_same.mpr fun layer hl => (h layer (.tail _ hl)).twin hw

theorem ValueReady.twin : ∀ {v : Value}, w.ValueReady s v → v.Twin (.on R) v
  | .nil, _ => .nil
  | .bool b, _ => .bool b
  | .number x, _ => .number x
  | .string text, _ => .string text
  | .native fn, _ => .native fn
  | .function _, h => .function ⟨rfl, Callable.twin hw h⟩
  | .klass _, h => .klass (ClassReady.twin hw h)
  | .bound _, h => .bound ⟨rfl, ⟨rfl, ClassReady.twin hw h.1⟩, Callable.twin hw h.2⟩
  | .object _, h => .object ⟨rfl, ClassReady.twin hw h⟩

theorem StoreReady.twin (h : w.StoreReady s) : s.Twin (.on R) s :=
  Store.twin_self ⟨fun f x v hv => (h.vars f x v hv).twin hw, fun i x v hv => (h.fields i x v hv).twin hw⟩

end World

end

/-! ## Programs that are read alike -/

theorem parseProgram_spans (tokens : List Token) (nextId : NodeId) :
    Spans nextId (parseProgram tokens nextId).nextId (idsStmts (parseProgram tokens nextId).tree) :=
  (parseProgram_read (P := fun _ => True) (fun _ _ _ _ => trivial) nextId).1

theorem resolveProgram_old {program : List Stmt} {nextId after : NodeId} (hspan : Spans nextId after (idsStmts program))
    (h : (resolveProgram program).errors = []) {j : NodeId} (hj : j < nextId) : (resolveProgram program).table.get? j = none := by
  rw [resolveProgram_table h]
  refine BindingTable.get?_enterAll_of_not_mem _ fun hm => ?_
  rw [programOccurrences, map_id_occurrencesStmts] at hm
  exact Nat.not_lt.mpr (hspan.mem hm).1 hj

namespace Session

variable {s : Session} {tokens : List Token}

theorem runTokens_accepted (he : (parseProgram tokens s.nextId).errors = [])
    (hr : (resolveProgram (parseProgram tokens s.nextId).tree).errors = []) (fuel : Nat) :
    s.runTokens fuel tokens =
      ended (resolveProgram (parseProgram tokens s.nextId).tree).warnings (parseProgram tokens s.nextId).nextId
        (Eval.interpret fuel (parseProgram tokens s.nextId).tree (resolveProgram (parseProgram tokens s.nextId).tree).table s.machine) := by
  simp only [runTokens, analyzeTokens, he, hr, List.isEmpty_nil, if_true]

theorem runTokens_rejected (he : (parseProgram tokens s.nextId).errors = [])
    (hr : (resolveProgram (parseProgram tokens s.nextId).tree).errors ≠ []) (fuel : Nat) :
    s.runTokens fuel tokens = some (⟨.staticError, (resolveProgram (parseProgram tokens s.nextId).tree).errors,
      (resolveProgram (parseProgram tokens s.nextId).tree).warnings⟩, { s with nextId := (parseProgram tokens s.nextId).nextId }) := by
  simp only [runTokens, analyzeTokens, he, List.isEmpty_nil, if_true, if_neg (mt List.isEmpty_iff.mp hr)]

end Session

/-- Machines with the bindings of two programs: nodes are tied that are bound alike. -/
theorem History.Ready.twin {h : History} (hr : h.Ready) {table table' : BindingTable}
    (hold : ∀ j < h.session.nextId, table.get? j = none) (hold' : ∀ j < h.session.nextId, table'.get? j = none) :
    let m := { h.session.machine with bindings := h.session.machine.bindings.merge table }
    let m' := { h.session.machine with bindings := h.session.machine.bindings.merge table' }
    m.Twin (.on fun i j => m'.bindings.get? j = m.bindings.get? i) m' where
  store := by
    refine hr.machine.store.twin fun o ho => ?_
    rw [BindingTable.get?_merge, BindingTable.get?_merge, hold _ (hr.old o ho), hold' _ (hr.old o ho)]
  env := rfl
  depth := rfl
  bindings _ _ := id
  input := rfl
  output := rfl
  clock := rfl

/-- Identities of two programs in the same places have the same binding, in a session that has none for them. -/
theorem History.Ready.pairs {h : History} (hr : h.Ready) {sts sts' : List Stmt} {after after' : NodeId}
    (hspan : Spans h.session.nextId after (idsStmts sts)) (hspan' : Spans h.session.nextId after' (idsStmts sts'))
    {r r' : Resolution} (hres : r.Twin (.between sts sts') r') :
    Pairs (fun i j => (h.session.machine.bindings.merge r'.table).get? j = (h.session.machine.bindings.merge r.table).get? i)
      (idsStmts sts) (idsStmts sts') := by
  rintro ⟨i, j⟩ hij
  obtain ⟨hi, hj⟩ := List.of_mem_zip hij
  dsimp only
  rw [BindingTable.get?_merge, BindingTable.get?_merge, hres.table i j hij, hr.free i (hspan.mem hi).1, hr.free j (hspan'.mem hj).1]

theorem Outcome.Twin.ended {T : Ties} {o o' : Outcome Machine Error Unit} (h : Outcome.Twin T Eq o o') {warnings : List Warning}
    {nextId nextId' : NodeId} {a : Report × Session} (ha : Session.ended warnings nextId o = some a) :
    ∃ a', Session.ended warnings nextId' o' = some a' ∧ Session.SameEnd a a' := by
  cases h with
  | done _ hm => cases ha; exact ⟨_, rfl, rfl, T, hm⟩
  | failed hm => cases ha; exact ⟨_, rfl, rfl, T, hm⟩

variable {h : History} {tokens tokens' : List Token}

/-- Programs that are read alike run alike. -/
theorem History.Ready.follows (hr : h.Ready) (he : (parseProgram tokens h.session.nextId).errors = [])
    (he' : (parseProgram tokens' h.session.nextId).errors = [])
    (hb : bareStmts false (parseProgram tokens h.session.nextId).tree = bareStmts false (parseProgram tokens' h.session.nextId).tree) :
    h.session.Follows tokens tokens' := by
  intro fuel a ha
  have hspan := parseProgram_spans tokens h.session.nextId
  have hspan' := parseProgram_spans tokens' h.session.nextId
  have hres := resolveProgram_bare hb hspan.nodup hspan'.nodup
  by_cases herrors : (resolveProgram (parseProgram tokens h.session.nextId).tree).errors = []
  · have herrors' := hres.errors.trans herrors
    have hold : ∀ j < h.session.nextId, _ := fun j hj => resolveProgram_old hspan herrors hj
    have hold' : ∀ j < h.session.nextId, _ := fun j hj => resolveProgram_old hspan' herrors' hj
    have hts := twinStmts_of_bare _ _ hb (hr.pairs hspan hspan' hres)
    rw [Session.runTokens_accepted he herrors, Eval.interpret_apply] at ha
    rcases (Eval.Follows.executeEach hts).flushing _ _ (hr.twin hold hold') with hex | ⟨o, least, ho, hleast⟩
    · rw [hex] at ha
      cases ha
    · obtain ⟨a', ha', hsame⟩ := ho.ended ha
      refine ⟨a', least, hsame, fun fuel' hfuel => ?_⟩
      have hrun : Eval.interpret fuel' (parseProgram tokens' h.session.nextId).tree
          (resolveProgram (parseProgram tokens' h.session.nextId).tree).table h.session.machine = o := hleast fuel' hfuel
      rw [Session.runTokens_accepted he' herrors', hrun, hres.warnings]
      exact ha'
  · rw [Session.runTokens_rejected he herrors] at ha
    cases ha
    have herrors' : (resolveProgram (parseProgram tokens' h.session.nextId).tree).errors ≠ [] := by
      rw [hres.errors]
      exact herrors
    refine ⟨_, 0, ⟨?_, ?_⟩, fun fuel' _ => Session.runTokens_rejected he' herrors' fuel'⟩
    · rw [hres.errors, hres.warnings]
    · refine ⟨.on Eq, hr.machine.store.twin fun _ _ => rfl, rfl, rfl, ?_, rfl, rfl, rfl⟩
      rintro i _ rfl
      rfl

end Lox
