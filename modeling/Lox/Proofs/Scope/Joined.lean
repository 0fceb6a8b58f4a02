import Mathlib.Data.List.Forall2
import Lox.Proofs.Scope.Table
import Lox.Proofs.Syntax.Relined

/-!
# Resolving below another program

A program that stands below another one is resolved as it is on its own. What was found above stays
before it: the bindings, and the warnings, which are on other lines.
-/

namespace Lox

/-! ## Tables in one -/

namespace BindingTable

theorem ext_get? {t t' : BindingTable} (hs : t.depths.size = t'.depths.size) (h : ∀ id, t.get? id = t'.get? id) :
    t = t' := by
  obtain ⟨ds⟩ := t
  obtain ⟨ds'⟩ := t'
  congr 1
  refine Array.ext hs fun i hi hi' => ?_
  simpa [get?, Array.getElem?_eq_getElem hi, Array.getElem?_eq_getElem hi'] using h i

@[simp] theorem size_merge (t later : BindingTable) :
    (t.merge later).depths.size = max t.depths.size later.depths.size := Array.size_ofFn

theorem size_insert (t : BindingTable) (id depth : Nat) :
    (t.insert id depth).depths.size = max t.depths.size (id + 1) := by
  unfold insert
  split
  · rename_i h
    rw [Array.size_set]
    exact (Nat.max_eq_left h).symm
  · rename_i h
    have hle : t.depths.size ≤ id := Nat.le_of_not_lt h
    rw [Array.size_push, Array.size_append, Array.size_replicate, Nat.add_sub_cancel' hle]
    exact (Nat.max_eq_right (Nat.le_succ_of_le hle)).symm

theorem merge_insert (t later : BindingTable) (id depth : Nat) :
    t.merge (later.insert id depth) = (t.merge later).insert id depth := by
  refine ext_get? ?_ fun j => ?_
  · rw [size_merge, size_insert, size_insert, size_merge, Nat.max_assoc]
  · rw [get?_merge, get?_insert, get?_insert, get?_merge]
    split <;> rfl

theorem merge_assoc (t₁ t₂ t₃ : BindingTable) : (t₁.merge t₂).merge t₃ = t₁.merge (t₂.merge t₃) := by
  refine ext_get? (by simp [Nat.max_assoc]) fun j => ?_
  simp only [get?_merge, Option.or_assoc]

theorem merge_empty (t : BindingTable) : t.merge .empty = t := by
  refine ext_get? (by simp [empty]) fun j => ?_
  rw [get?_merge, get?_empty, Option.none_or]

end BindingTable

/-! ## Lines that differ -/

section
variable {f : Nat → Nat}

theorem Site.relined_injective (hf : f.Injective) : (Site.relined f).Injective := by
  intro site site' h
  cases site <;> cases site' <;> simp only [Site.relined, Site.lexeme.injEq, Site.endOfInput.injEq, reduceCtorEq] at h
  · rw [h.1, hf h.2]
  · rw [hf h]

theorem Error.relined_injective (hf : f.Injective) : (Error.relined f).Injective := by
  intro e e' h
  cases e <;> cases e' <;> simp only [Error.relined, Error.lexical.injEq, Error.syntactic.injEq, Error.scoping.injEq,
    Error.runtime.injEq, Error.output.injEq, reduceCtorEq] at h
  · rw [hf h.1, h.2]
  · rw [Site.relined_injective hf h.1, h.2]
  · rw [Site.relined_injective hf h.1, h.2]
  · rw [hf h.1, h.2]
  · rw [h]

theorem Warning.relined_injective (hf : f.Injective) : (Warning.relined f).Injective := by
  rintro ⟨line, name⟩ ⟨line', name'⟩ h
  simp only [Warning.relined, Warning.mk.injEq] at h
  rw [hf h.1, h.2]

theorem Warning.le_relined (hf : StrictMono f) (v w : Warning) : (v.relined f).le (w.relined f) = v.le w :=
  congrArg₂ or (decide_eq_decide.mpr hf.lt_iff_lt) (congrArg (and · _) (decide_eq_decide.mpr hf.injective.eq_iff))

theorem Warning.insertSorted_relined (hf : StrictMono f) (w : Warning) (ws : List Warning) :
    (w.relined f).insertSorted (ws.map (Warning.relined f)) = (w.insertSorted ws).map (Warning.relined f) := by
  induction ws with
  | nil => rfl
  | cons v vs ih =>
    rw [List.map_cons, Warning.insertSorted, Warning.insertSorted, Warning.le_relined hf, ih]
    split <;> rfl

theorem Warning.mem_insertSorted {v w : Warning} {ws : List Warning} (h : v ∈ w.insertSorted ws) : v = w ∨ v ∈ ws := by
  induction ws with
  | nil => exact .inl (List.mem_singleton.mp h)
  | cons u us ih =>
    rw [Warning.insertSorted] at h
    split at h
    · exact List.mem_cons.mp h
    · rcases List.mem_cons.mp h with rfl | h
      · exact .inr List.mem_cons_self
      · exact (ih h).imp_right (List.mem_cons_of_mem _)

end

/-- What was resolved above a program, and where that stands: its lines are among `lines`. No
warning from above is on one of its lines. -/
structure Prelude where
  lineOf : Nat → Nat
  lines : Nat → Prop
  table : BindingTable
  warnings : List Warning
  mono : StrictMono lineOf
  apart : ∀ w ∈ warnings, ∀ line, lines line → w.line ≠ lineOf line

section
variable (s : Prelude)

/-- The same variable below. A variable that may still be warned of is on a line of the program. -/
structure Local.Tracks (e e' : Local) : Prop where
  isDefined : e'.isDefined = e.isDefined
  isUsed : e'.isUsed = e.isUsed
  line : e.isUsed = false → s.lines e.line ∧ e'.line = s.lineOf e.line

inductive Scope.Tracks : Scope → Scope → Prop
  | nil : Scope.Tracks [] []
  | cons (name : String) {e e' : Local} {rest rest' : List (String × Local)} : Local.Tracks s e e' →
    Scope.Tracks rest rest' → Scope.Tracks ((name, e) :: rest) ((name, e') :: rest')

/-- The second resolution has found what the first one has, below what was found above. -/
structure Resolution.Tracks (r r' : Resolution) : Prop where
  scopes : List.Forall₂ (Scope.Tracks s) r.scopes r'.scopes
  table : r'.table = s.table.merge r.table
  errors : r'.errors = r.errors.map (Error.relined s.lineOf)
  warnings : r'.warnings = s.warnings ++ r.warnings.map (Warning.relined s.lineOf)
  lines : ∀ w ∈ r.warnings, s.lines w.line

end

variable {s : Prelude}

/-! ## Scopes -/

namespace Scope.Tracks

variable {scope scope' : Scope}

theorem get? (h : Scope.Tracks s scope scope') (name : String) :
    Option.Rel (Local.Tracks s) (scope.get? name) (scope'.get? name) := by
  induction h with
  | nil => exact .none
  | cons n he _ ih =>
    simp only [Dict.get?]
    split
    · exact .some he
    · exact ih

theorem contains (h : Scope.Tracks s scope scope') (name : String) : scope'.contains name = scope.contains name := by
  have hg := h.get? name
  unfold Dict.contains
  generalize scope.get? name = found at hg ⊢
  generalize scope'.get? name = found' at hg ⊢
  cases hg <;> rfl

theorem insert (h : Scope.Tracks s scope scope') (name : String) {e e' : Local} (he : Local.Tracks s e e') :
    Scope.Tracks s (scope.insert name e) (scope'.insert name e') := by
  induction h with
  | nil => exact .cons name he .nil
  | cons n hn hrest ih =>
    by_cases hname : n = name
    · simp only [Dict.insert, hname]
      exact .cons name he hrest
    · simp only [Dict.insert, hname]
      exact .cons n hn ih

theorem unused (h : Scope.Tracks s scope scope') :
    scope'.unused = scope.unused.map (Warning.relined s.lineOf) ∧ ∀ w ∈ scope.unused, s.lines w.line := by
  induction h with
  | nil => exact ⟨rfl, nofun⟩
  | @cons n e e' rest rest' he _ ih =>
    cases hu : e.isUsed with
    | true =>
      have hu' : e'.isUsed = true := he.isUsed.trans hu
      simpa only [Scope.unused, Dict.entries, List.filter_cons, hu, hu', Bool.not_true, Bool.false_eq_true, if_false] using ih
    | false =>
      have hu' : e'.isUsed = false := he.isUsed.trans hu
      obtain ⟨hl, hl'⟩ := he.line hu
      simp only [Scope.unused, Dict.entries, List.filter_cons, hu, hu', Bool.not_false, if_true, List.foldr_cons] at ih ⊢
      rw [ih.1, hl']
      refine ⟨Warning.insertSorted_relined s.mono ⟨e.line, n⟩ _, fun w hw => ?_⟩
      rcases Warning.mem_insertSorted hw with rfl | hw
      · exact hl
      · exact ih.2 w hw

end Scope.Tracks

/-! ## Steps of the resolution -/

namespace Resolution.Tracks

variable {r r' : Resolution} (h : Tracks s r r')
include h

theorem report (site : Site) (fault : ScopeFault) : Tracks s (r.report site fault) (r'.report (site.relined s.lineOf) fault) := by
  have hm : Error.scoping (site.relined s.lineOf) fault ∈ r'.errors ↔ Error.scoping site fault ∈ r.errors := by
    rw [h.errors]
    exact List.mem_map_of_injective (Error.relined_injective s.mono.injective) (a := .scoping site fault)
  unfold Resolution.report
  by_cases he : Error.scoping site fault ∈ r.errors
  · rw [if_pos he, if_pos (hm.mpr he)]
    exact h
  · rw [if_neg he, if_neg (mt hm.mp he)]
    exact { h with errors := by simp [h.errors, Error.relined] }

theorem reportIf (found : Bool) (site : Site) (fault : ScopeFault) :
    Tracks s (r.reportIf found site fault) (r'.reportIf found (site.relined s.lineOf) fault) := by
  cases found with
  | false => exact h
  | true => exact h.report site fault

theorem warn {w : Warning} (hw : s.lines w.line) : Tracks s (r.warn w) (r'.warn (w.relined s.lineOf)) := by
  have hm : w.relined s.lineOf ∈ r'.warnings ↔ w ∈ r.warnings := by
    rw [h.warnings, List.mem_append, List.mem_map_of_injective (Warning.relined_injective s.mono.injective)]
    exact or_iff_right fun hv => s.apart _ hv w.line hw rfl
  unfold Resolution.warn
  by_cases he : w ∈ r.warnings
  · rw [if_pos he, if_pos (hm.mpr he)]
    exact h
  · rw [if_neg he, if_neg (mt hm.mp he)]
    refine { h with warnings := by simp [h.warnings], lines := fun v hv => ?_ }
    rcases List.mem_append.mp hv with hv | hv
    · exact h.lines v hv
    · exact List.mem_singleton.mp hv ▸ hw

end Resolution.Tracks

theorem Resolution.Tracks.warnAll : ∀ (ws : List Warning) {r r' : Resolution}, Tracks s r r' → (∀ w ∈ ws, s.lines w.line) →
    Tracks s (ws.foldl Resolution.warn r) ((ws.map (Warning.relined s.lineOf)).foldl Resolution.warn r')
  | [], _, _, h, _ => h
  | _ :: ws, _, _, h, hw =>
    warnAll ws (h.warn (hw _ List.mem_cons_self)) fun v hv => hw v (List.mem_cons_of_mem _ hv)

namespace Resolution.Tracks

section
variable {r r' : Resolution} (h : Tracks s r r')
include h

theorem openScope : Tracks s r.openScope r'.openScope := { h with scopes := .cons .nil h.scopes }

theorem openImplicit (name : String) : Tracks s (r.openImplicit name) (r'.openImplicit name) :=
  { h with scopes := .cons (.cons name ⟨rfl, rfl, nofun⟩ .nil) h.scopes }

theorem closeScope : Tracks s r.closeScope r'.closeScope := by
  have hs := h.scopes
  unfold Resolution.closeScope
  cases hr : r.scopes with
  | nil => rw [hr] at hs; rw [List.forall₂_nil_left_iff.mp hs]; exact h
  | cons scope outer =>
    rw [hr] at hs
    obtain ⟨scope', outer', hscope, houter, hr'⟩ := List.forall₂_cons_left_iff.mp hs
    rw [hr']
    dsimp only
    rw [hscope.unused.1]
    exact warnAll _ { h with scopes := houter } hscope.unused.2

theorem closeSuperclass (superclass : Option Reference) :
    Tracks s (r.closeSuperclass superclass) (r'.closeSuperclass (superclass.map (Reference.relined s.lineOf))) := by
  cases superclass with
  | none => exact h
  | some ref => exact h.closeScope

theorem declare {name : Name} (hn : s.lines name.line) :
    Tracks s (r.declare name) (r'.declare (name.relined s.lineOf)) := by
  have hs := h.scopes
  unfold Resolution.declare
  cases hr : r.scopes with
  | nil => rw [hr] at hs; rw [List.forall₂_nil_left_iff.mp hs]; exact h
  | cons scope outer =>
    rw [hr] at hs
    obtain ⟨scope', outer', hscope, houter, hr'⟩ := List.forall₂_cons_left_iff.mp hs
    have hagain := hscope.contains name.text
    rw [hr']
    simp only [Name.relined, hagain]
    have hentry : Local.Tracks s ⟨false, scope.contains name.text, name.line⟩
        ⟨false, scope.contains name.text, s.lineOf name.line⟩ := ⟨rfl, rfl, fun _ => ⟨hn, rfl⟩⟩
    have hentered : Tracks s { r with scopes := Dict.insert scope name.text _ :: outer }
        { r' with scopes := Dict.insert scope' name.text _ :: outer' } :=
      { h with scopes := .cons (hscope.insert _ hentry) houter }
    exact hentered.reportIf _ name.site _

theorem define (name : Name) : Tracks s (r.define name) (r'.define (name.relined s.lineOf)) := by
  have hs := h.scopes
  unfold Resolution.define
  cases hr : r.scopes with
  | nil => rw [hr] at hs; rw [List.forall₂_nil_left_iff.mp hs]; exact h
  | cons scope outer =>
    rw [hr] at hs
    obtain ⟨scope', outer', hscope, houter, hr'⟩ := List.forall₂_cons_left_iff.mp hs
    have hg := hscope.get? name.text
    rw [hr']
    simp only [Name.relined]
    generalize scope.get? name.text = found at hg ⊢
    generalize scope'.get? name.text = found' at hg ⊢
    cases hg with
    | none => exact h
    | some he => exact { h with scopes := .cons (hscope.insert _ ⟨rfl, he.isUsed, he.line⟩) houter }

theorem introduce {name : Name} (hn : s.lines name.line) :
    Tracks s (r.introduce name) (r'.introduce (name.relined s.lineOf)) :=
  (h.declare hn).define name

end

theorem introduceAll : ∀ (params : List Name) {r r' : Resolution}, Tracks s r r' → (∀ p ∈ params, s.lines p.line) →
    Tracks s (params.foldl Resolution.introduce r) ((params.map (Name.relined s.lineOf)).foldl Resolution.introduce r')
  | [], _, _, h, _ => h
  | _ :: params, _, _, h, hp =>
    introduceAll params (h.introduce (hp _ List.mem_cons_self)) fun q hq => hp q (List.mem_cons_of_mem _ hq)

/-! ## Occurrences -/

theorem useIn (name : String) {scopes scopes' : List Scope} (h : List.Forall₂ (Scope.Tracks s) scopes scopes') :
    Option.Rel (fun p p' => p'.1 = p.1 ∧ List.Forall₂ (Scope.Tracks s) p.2 p'.2) (Resolution.useIn name scopes)
      (Resolution.useIn name scopes') := by
  induction h with
  | nil => exact .none
  | @cons scope scope' outer outer' hscope houter ih =>
    have hg := hscope.get? name
    unfold Resolution.useIn
    generalize scope.get? name = found at hg ⊢
    generalize scope'.get? name = found' at hg ⊢
    cases hg with
    | some he => exact .some ⟨rfl, .cons (hscope.insert name ⟨he.isDefined, rfl, Bool.noConfusion⟩) houter⟩
    | none =>
      dsimp only
      generalize Resolution.useIn name outer = found at ih ⊢
      generalize Resolution.useIn name outer' = found' at ih ⊢
      cases ih with
      | none => exact .none
      | some hp => exact .some ⟨congrArg (· + 1) hp.1, .cons hscope hp.2⟩

section
variable {r r' : Resolution} (h : Tracks s r r')
include h

theorem use (id : NodeId) (name : String) : Tracks s (r.use id name) (r'.use id name) := by
  have hu := useIn name h.scopes
  unfold Resolution.use
  generalize Resolution.useIn name r.scopes = found at hu ⊢
  generalize Resolution.useIn name r'.scopes = found' at hu ⊢
  cases hu with
  | none => exact h
  | @some p p' hp =>
    obtain ⟨depth, scopes⟩ := p
    obtain ⟨_, scopes'⟩ := p'
    obtain ⟨rfl, hs⟩ := hp
    exact { h with scopes := hs, table := by rw [BindingTable.merge_insert, ← h.table] }

theorem inOwnInitializer (name : String) : r'.inOwnInitializer name = r.inOwnInitializer name := by
  have hs := h.scopes
  unfold Resolution.inOwnInitializer
  cases hr : r.scopes with
  | nil => rw [hr] at hs; rw [List.forall₂_nil_left_iff.mp hs]
  | cons scope outer =>
    rw [hr] at hs
    obtain ⟨scope', outer', hscope, houter, hr'⟩ := List.forall₂_cons_left_iff.mp hs
    have hg := hscope.get? name
    rw [hr']
    dsimp only
    generalize scope.get? name = found at hg ⊢
    generalize Dict.get? scope' name = found' at hg ⊢
    cases hg with
    | none => rfl
    | some he => simp [he.isDefined]

theorem readVariable (id : NodeId) (name : Name) :
    Tracks s (r.readVariable id name) (r'.readVariable id (name.relined s.lineOf)) := by
  unfold Resolution.readVariable
  rw [show (name.relined s.lineOf).text = name.text from rfl, h.inOwnInitializer]
  exact (h.reportIf _ name.site _).use id name.text

theorem readThis (ctx : Context) (id : NodeId) (line : Nat) :
    Tracks s (r.readThis ctx id line) (r'.readThis ctx id (s.lineOf line)) := by
  unfold Resolution.readThis
  split
  · exact h.report _ _
  · split
    · exact h.report _ _
    · exact h.use id "this"

theorem readSuper (ctx : Context) (id : NodeId) (line : Nat) :
    Tracks s (r.readSuper ctx id line) (r'.readSuper ctx id (s.lineOf line)) := by
  unfold Resolution.readSuper
  split
  · exact h.report _ _
  · exact h.report _ _
  · split
    · exact h.report _ _
    · exact h.use id "super"

theorem checkReturn (ctx : Context) (form : ReturnForm) (line : Nat) (hasValue : Bool) :
    Tracks s (r.checkReturn ctx form line hasValue) (r'.checkReturn ctx form (s.lineOf line) hasValue) :=
  (h.reportIf _ _ _).reportIf _ _ _

theorem checkBreak (ctx : Context) (line : Nat) :
    Tracks s (r.checkBreak ctx line) (r'.checkBreak ctx (s.lineOf line)) := h.reportIf _ _ _

theorem readSuperclass (className : Name) (superclass : Option Reference) :
    Tracks s (r.readSuperclass className superclass)
      (r'.readSuperclass (className.relined s.lineOf) (superclass.map (Reference.relined s.lineOf))) := by
  cases superclass with
  | none => exact h
  | some ref => exact ((h.reportIf _ ref.name.site _).readVariable ref.id ref.name).openImplicit "super"

end

end Resolution.Tracks

/-! ## The whole walk -/

/-- The names of variables are on lines of the program. -/
abbrev Prelude.Holds (s : Prelude) (name : Name) : Prop := s.lines name.line

mutual

theorem Expr.resolve_tracks : ∀ (e : Expr) (ctx : Context) {r r' : Resolution}, e.Proper s.Holds ⊤ →
    Resolution.Tracks s r r' → Resolution.Tracks s (e.resolve ctx r) ((e.relined s.lineOf).resolve ctx r')
  | .literal _, _, _, _, _, h => h
  | .unary _ _ operand, ctx, _, _, hp, h => operand.resolve_tracks ctx hp.2 h
  | .binary _ _ left right, ctx, _, _, hp, h => right.resolve_tracks ctx hp.2.2 (left.resolve_tracks ctx hp.2.1 h)
  | .logical _ _ left right, ctx, _, _, hp, h => right.resolve_tracks ctx hp.2 (left.resolve_tracks ctx hp.1 h)
  | .group inner, ctx, _, _, hp, h => inner.resolve_tracks ctx hp h
  | .var id name, _, _, _, _, h => h.readVariable id name
  | .assign id name value, ctx, _, _, hp, h => (value.resolve_tracks ctx hp.2 h).use id name.text
  | .call callee _ arguments, ctx, _, _, hp, h => resolveExprs_tracks arguments ctx hp.2 (callee.resolve_tracks ctx hp.1 h)
  | .lambda _ routine, ctx, _, _, hp, h => routine.resolve_tracks (ctx.enter .function) hp h
  | .get object _, ctx, _, _, hp, h => object.resolve_tracks ctx hp h
  | .set object _ value, ctx, _, _, hp, h => value.resolve_tracks ctx hp.2 (object.resolve_tracks ctx hp.1 h)
  | .this id line, ctx, _, _, _, h => h.readThis ctx id line
  | .super id line _, ctx, _, _, _, h => h.readSuper ctx id line

theorem resolveExprs_tracks : ∀ (es : List Expr) (ctx : Context) {r r' : Resolution}, ProperExprs s.Holds ⊤ es →
    Resolution.Tracks s r r' → Resolution.Tracks s (resolveExprs es ctx r) (resolveExprs (relinedExprs s.lineOf es) ctx r')
  | [], _, _, _, _, h => h
  | e :: es, ctx, _, _, hp, h => resolveExprs_tracks es ctx hp.2 (e.resolve_tracks ctx hp.1 h)

theorem Stmt.resolve_tracks : ∀ (st : Stmt) (ctx : Context) {r r' : Resolution}, st.Proper s.Holds ⊤ →
    Resolution.Tracks s r r' → Resolution.Tracks s (st.resolve ctx r) ((st.relined s.lineOf).resolve ctx r')
  | .expr e, ctx, _, _, hp, h => e.resolve_tracks ctx hp h
  | .print e, ctx, _, _, hp, h => e.resolve_tracks ctx hp h
  | .varDecl _ none, _, _, _, hp, h => h.introduce hp
  | .varDecl name (some e), ctx, _, _, hp, h => (e.resolve_tracks ctx hp.2 (h.declare hp.1)).define name
  | .block body, ctx, _, _, hp, h => (resolveStmts_tracks body ctx hp h.openScope).closeScope
  | .branch condition thenBranch none, ctx, _, _, hp, h =>
    thenBranch.resolve_tracks ctx hp.2.1 (condition.resolve_tracks ctx hp.1 h)
  | .branch condition thenBranch (some elseBranch), ctx, _, _, hp, h =>
    elseBranch.resolve_tracks ctx hp.2.2.1 (thenBranch.resolve_tracks ctx hp.2.1.1 (condition.resolve_tracks ctx hp.1 h))
  | .loop condition body, ctx, _, _, hp, h => body.resolve_tracks _ hp.2.1 (condition.resolve_tracks ctx hp.1 h)
  | .funDecl _ routine, ctx, _, _, hp, h => routine.resolve_tracks (ctx.enter .function) hp.2 (h.introduce hp.1)
  | .returns form line none, ctx, _, _, _, h => h.checkReturn ctx form line false
  | .returns form line (some e), ctx, _, _, hp, h => e.resolve_tracks ctx hp (h.checkReturn ctx form line true)
  | .breaks line, ctx, _, _, _, h => h.checkBreak ctx line
  | .classDecl name superclass methods statics, ctx, r, r', hp, h => by
    have hk : ClassKind.ofSuperclass (superclass.map (Reference.relined s.lineOf)) = ClassKind.ofSuperclass superclass := by
      cases superclass <;> rfl
    simp only [Stmt.relined, Stmt.resolve, hk]
    have hs := resolveStatics_tracks statics { ctx with classKind := .ofSuperclass superclass, inStatic := true } hp.2.2.2
      ((h.introduce hp.1).readSuperclass name superclass)
    have hm := resolveMethods_tracks methods { ctx with classKind := .ofSuperclass superclass, inStatic := false } hp.2.2.1
      (hs.openImplicit "this")
    exact hm.closeScope.closeSuperclass superclass

theorem resolveStmts_tracks : ∀ (sts : List Stmt) (ctx : Context) {r r' : Resolution}, ProperStmts s.Holds ⊤ sts →
    Resolution.Tracks s r r' → Resolution.Tracks s (resolveStmts sts ctx r) (resolveStmts (relinedStmts s.lineOf sts) ctx r')
  | [], _, _, _, _, h => h
  | st :: sts, ctx, _, _, hp, h => resolveStmts_tracks sts ctx hp.2 (st.resolve_tracks ctx hp.1 h)

theorem Routine.resolve_tracks : ∀ (routine : Routine) (ctx : Context) {r r' : Resolution}, routine.Proper s.Holds ⊤ →
    Resolution.Tracks s r r' → Resolution.Tracks s (routine.resolve ctx r) ((routine.relined s.lineOf).resolve ctx r')
  | ⟨params, body⟩, ctx, _, _, hp, h =>
    (resolveStmts_tracks body ctx hp.2 (Resolution.Tracks.introduceAll params h.openScope hp.1)).closeScope

theorem Method.resolve_tracks : ∀ (m : Method) (body : BodyKind) (ctx : Context) {r r' : Resolution},
    m.Proper s.Holds ⊤ → Resolution.Tracks s r r' →
    Resolution.Tracks s (m.resolve body ctx r) ((m.relined s.lineOf).resolve body ctx r')
  | ⟨_, _, routine⟩, body, ctx, _, _, hp, h => routine.resolve_tracks (ctx.enter body) hp.2 h

theorem resolveMethods_tracks : ∀ (ms : List Method) (ctx : Context) {r r' : Resolution}, ProperMethods s.Holds ⊤ ms →
    Resolution.Tracks s r r' →
    Resolution.Tracks s (resolveMethods ms ctx r) (resolveMethods (relinedMethods s.lineOf ms) ctx r')
  | [], _, _, _, _, h => h
  | m :: ms, ctx, _, _, hp, h => by
    have hb : (m.relined s.lineOf).bodyKind = m.bodyKind := by cases m; rfl
    rw [relinedMethods, resolveMethods, resolveMethods, hb]
    exact resolveMethods_tracks ms ctx hp.2 (m.resolve_tracks m.bodyKind ctx hp.1 h)

theorem resolveStatics_tracks : ∀ (ms : List Method) (ctx : Context) {r r' : Resolution}, ProperMethods s.Holds ⊤ ms →
    Resolution.Tracks s r r' →
    Resolution.Tracks s (resolveStatics ms ctx r) (resolveStatics (relinedMethods s.lineOf ms) ctx r')
  | [], _, _, _, _, h => h
  | m :: ms, ctx, _, _, hp, h => resolveStatics_tracks ms ctx hp.2 (m.resolve_tracks .function ctx hp.1 h)

end

/-! ## Two programs -/

theorem resolveStmts_append : ∀ (sts more : List Stmt) (ctx : Context) (r : Resolution),
    resolveStmts (sts ++ more) ctx r = resolveStmts more ctx (resolveStmts sts ctx r)
  | [], _, _, _ => rfl
  | st :: sts, more, ctx, r => resolveStmts_append sts more ctx (st.resolve ctx r)

theorem resolveProgram_scopes (program : List Stmt) : (resolveProgram program).scopes = [] := by
  have h : Mirrors (Resolution.scopes {}) [] := .nil
  exact List.forall₂_nil_right_iff.mp (resolveStmts_mirrors program {} h)

theorem resolveProgram_lines (lines : Nat → Prop) {program : List Stmt}
    (hp : ProperStmts (fun name => lines name.line) ⊤ program) : ∀ w ∈ (resolveProgram program).warnings, lines w.line := by
  let own : Prelude := ⟨id, lines, .empty, [], strictMono_id, nofun⟩
  have h : Resolution.Tracks own {} {} := ⟨.nil, rfl, rfl, rfl, nofun⟩
  exact (resolveStmts_tracks (s := own) program {} hp h).lines

/-- Two programs in one text are resolved as each of them alone. -/
theorem resolveProgram_two_programs {first second : List Stmt} {height height' : Nat}
    (hp : ProperStmts (fun name => 1 ≤ name.line ∧ name.line ≤ height) ⊤ first)
    (hq : ProperStmts (fun name => 1 ≤ name.line ∧ name.line ≤ height') ⊤ second)
    (he : (resolveProgram first).errors = []) :
    (resolveProgram (first ++ relinedStmts (· + height) second)).table =
        (resolveProgram first).table.merge (resolveProgram second).table ∧
      (resolveProgram (first ++ relinedStmts (· + height) second)).errors =
        (resolveProgram second).errors.map (Error.relined (· + height)) ∧
      (resolveProgram (first ++ relinedStmts (· + height) second)).warnings =
        (resolveProgram first).warnings ++ (resolveProgram second).warnings.map (Warning.relined (· + height)) := by
  have hlines := resolveProgram_lines (fun line => 1 ≤ line ∧ line ≤ height) hp
  let above : Prelude := {
    lineOf := (· + height)
    lines := fun line => 1 ≤ line ∧ line ≤ height'
    table := (resolveProgram first).table
    warnings := (resolveProgram first).warnings
    mono := fun _ _ h => Nat.add_lt_add_right h height
    apart := fun w hw line hl hn => by have := hlines w hw; omega }
  have h : Resolution.Tracks above {} (resolveProgram first) :=
    ⟨by rw [resolveProgram_scopes]; exact .nil, (BindingTable.merge_empty _).symm, he, (List.append_nil _).symm, nofun⟩
  have hall := resolveStmts_tracks (s := above) second {} hq h
  rw [resolveProgram, resolveStmts_append]
  exact ⟨hall.table, hall.errors, hall.warnings⟩

end Lox
