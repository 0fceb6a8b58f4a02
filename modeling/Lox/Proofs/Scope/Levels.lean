import Lox.Proofs.Scope.Nodes
import Lox.Proofs.Scope.Placement

/-!
# Uses of variables, level by level

What the steps of the resolution do to the entries of the open scopes. A scope is known by its level, which is
the number of the scopes around it: it stays the same while further scopes are opened and closed inside.
-/

namespace Lox

/-! ## Entries -/

namespace Dict

variable {α : Type}

theorem names_insert (d : Dict α) (name : String) (a : α) :
    (d.insert name a).names = if name ∈ d.names then d.names else d.names ++ [name] := by
  induction d with
  | nil => rfl
  | cons e rest ih =>
    change names (insert _ name a) = if name ∈ e.1 :: names rest then e.1 :: names rest else e.1 :: (names rest ++ [name])
    by_cases h : e.1 = name
    · rw [if_pos (List.mem_cons.mpr (.inl h.symm)), insert]
      simp only [h, ↓reduceIte]
      rfl
    · have hc : names (insert (e :: rest : Dict α) name a) = e.1 :: names (insert rest name a) := by
        rw [insert]
        simp only [h, ↓reduceIte]
        rfl
      rw [hc, ih]
      simp only [List.mem_cons, Ne.symm h, false_or]
      split <;> rfl

theorem nodup_insert {d : Dict α} (h : d.names.Nodup) (name : String) (a : α) : (d.insert name a).names.Nodup := by
  rw [names_insert]
  split
  · exact h
  · rename_i hn
    exact List.nodup_append.mpr ⟨h, List.nodup_singleton name, by simpa using fun x hx (e : x = name) => hn (e ▸ hx)⟩

theorem mem_entries_iff {d : Dict α} (h : d.names.Nodup) (x : String) (a : α) : (x, a) ∈ d.entries ↔ d.get? x = some a := by
  induction d with
  | nil => simp [entries, get?]
  | cons e rest ih =>
    obtain ⟨he, hrest⟩ := List.nodup_cons.mp h
    simp only [entries] at ih ⊢
    rw [List.mem_cons, ih hrest]
    by_cases hx : e.1 = x
    · have hn : (x, a) ∉ rest := fun hm => he (hx ▸ List.mem_map_of_mem (f := Prod.fst) hm)
      rw [← ih hrest]
      simp [get?, hx, hn, Prod.ext_iff, eq_comm]
    · have hn : (x, a) ≠ e := fun hm => hx (hm ▸ rfl)
      simp [get?, hx, hn]

end Dict

theorem Warning.insertSorted_perm (w : Warning) (ws : List Warning) : (w.insertSorted ws).Perm (w :: ws) := by
  induction ws with
  | nil => rfl
  | cons v vs ih =>
    rw [Warning.insertSorted]
    split
    · rfl
    · exact (ih.cons v).trans (.swap w v vs)

/-- The unused variables are the entries that nothing has used. -/
theorem Scope.mem_unused {scope : Scope} {w : Warning} :
    w ∈ scope.unused ↔ ∃ e ∈ scope.entries, e.2.isUsed = false ∧ w = ⟨e.2.line, e.1⟩ := by
  have hmem : ∀ es : List (String × Local), w ∈ es.foldr (fun e => Warning.insertSorted ⟨e.2.line, e.1⟩) [] ↔
      ∃ e ∈ es, w = ⟨e.2.line, e.1⟩ := by
    intro es
    induction es with
    | nil => simp
    | cons e es ih => simp [(Warning.insertSorted_perm ..).mem_iff, ih]
  rw [Scope.unused, hmem]
  simp only [List.mem_filter, Bool.not_eq_true', and_assoc]

theorem Scope.mem_unused_iff {scope : Scope} (h : scope.names.Nodup) (w : Warning) :
    w ∈ scope.unused ↔ ∃ e, scope.get? w.name = some e ∧ e.isUsed = false ∧ e.line = w.line := by
  simp only [Scope.mem_unused, Prod.exists, ← Dict.mem_entries_iff h]
  constructor
  · rintro ⟨x, e, hm, hu, rfl⟩
    exact ⟨e, hm, hu, rfl⟩
  · rintro ⟨e, hm, hu, hl⟩
    exact ⟨w.name, e, hm, hu, by rw [hl]⟩

/-! ## Levels -/

/-- The entry of a name in the scope at a level. -/
def entryAt : List Scope → (level : Nat) → (x : String) → Option Local
  | [], _, _ => none
  | scope :: outer, level, x => if level = outer.length then scope.get? x else entryAt outer level x

theorem entryAt_top (scope : Scope) (outer : List Scope) (x : String) :
    entryAt (scope :: outer) outer.length x = scope.get? x := if_pos rfl

theorem entryAt_below (scope : Scope) {outer : List Scope} {level : Nat} (h : level < outer.length) (x : String) :
    entryAt (scope :: outer) level x = entryAt outer level x := if_neg (Nat.ne_of_lt h)

theorem entryAt_insert (scope : Scope) (outer : List Scope) (name : String) (entry : Local) (level : Nat) (x : String) :
    entryAt (scope.insert name entry :: outer) level x =
      if level = outer.length ∧ x = name then some entry else entryAt (scope :: outer) level x := by
  unfold entryAt
  rw [Dict.get?_insert]
  by_cases hl : level = outer.length <;> simp [hl]

/-- The occurrence means the variable of that name in the scope at the level. -/
def Occurrence.BoundTo (o : Occurrence) (level : Nat) (x : String) : Prop :=
  o.name = x ∧ ∃ d, o.depth? = some d ∧ d + level + 1 = o.scopes.length

/-- The warning is of a variable that the region declares, and no occurrence means it. -/
structure Region.Unused (s : Region) (w : Warning) : Prop where
  declared : ∃ name ∈ s.declared, name.text = w.name ∧ name.line = w.line
  unbound : ∀ o ∈ s.occurrences, ¬ o.BoundTo s.level w.name

namespace Resolution

def IsUsed (r : Resolution) (level : Nat) (x : String) : Prop := ∃ e, entryAt r.scopes level x = some e ∧ e.isUsed = true

def DeclaredOn (r : Resolution) (level : Nat) (x : String) (line : Nat) : Prop :=
  ∃ e, entryAt r.scopes level x = some e ∧ e.line = line

/-- Each name has one entry in its scope, and no warning is given twice. -/
structure Tidy (r : Resolution) : Prop where
  scopes : ∀ scope ∈ r.scopes, scope.names.Nodup
  warnings : r.warnings.Nodup

end Resolution

/-- From the first resolution on, without an error: these names were declared in the innermost scope, these
occurrences met, and these nodes passed. -/
structure Walked (r r' : Resolution) (names : List Name) (os : List Occurrence) (nodes : List (Node × Position)) : Prop where
  errors : r.errors = []
  length : r'.scopes.length = r.scopes.length
  used : ∀ level < r.scopes.length, ∀ x, r'.IsUsed level x ↔ r.IsUsed level x ∨ ∃ o ∈ os, o.BoundTo level x
  declared : ∀ level < r.scopes.length, ∀ x line, r'.DeclaredOn level x line ↔
    r.DeclaredOn level x line ∨ level + 1 = r.scopes.length ∧ ∃ name ∈ names, name.text = x ∧ name.line = line
  warned : r.Tidy → ∀ w, w ∈ r'.warnings ↔ w ∈ r.warnings ∨ ∃ n ∈ nodes, ∃ s ∈ n.1.region? n.2, s.Unused w
  inside : ∀ n ∈ nodes, ∀ s ∈ n.1.region? n.2, s.occurrences ⊆ os
  tidy : r.Tidy → r'.Tidy

namespace Walked

variable {r r₁ r₂ : Resolution} {xs ys : List Name} {os ps : List Occurrence} {ms ns : List (Node × Position)}

theorem refl (h : r.errors = []) : Walked r r [] [] [] where
  errors := h
  length := rfl
  used := by simp
  declared := by simp
  warned := by simp
  inside := nofun
  tidy := id

theorem trans (h : Walked r r₁ xs os ms) (h' : Walked r₁ r₂ ys ps ns) : Walked r r₂ (xs ++ ys) (os ++ ps) (ms ++ ns) where
  errors := h.errors
  length := h'.length.trans h.length
  used level hl x := by
    rw [h'.used level (h.length ▸ hl), h.used level hl, or_assoc, ← exists_or]
    simp only [List.mem_append, or_and_right]
  declared level hl x line := by
    rw [h'.declared level (h.length ▸ hl), h.declared level hl, or_assoc, h.length, ← and_or_left, ← exists_or]
    simp only [List.mem_append, or_and_right]
  warned ht w := by
    rw [h'.warned (h.tidy ht), h.warned ht, or_assoc, ← exists_or]
    simp only [List.mem_append, or_and_right]
  inside n hn s hs := by
    rcases List.mem_append.mp hn with hn | hn
    · exact fun o ho => List.mem_append_left _ (h.inside n hn s hs ho)
    · exact fun o ho => List.mem_append_right _ (h'.inside n hn s hs ho)
  tidy := h'.tidy ∘ h.tidy

/-- Most nodes open no scope. -/
theorem cons (h : Walked r r₁ xs os ns) {node : Node} {pos : Position} (hn : node.region? pos = none) :
    Walked r r₁ xs os ((node, pos) :: ns) where
  errors := h.errors
  length := h.length
  used := h.used
  declared := h.declared
  warned ht w := by
    rw [h.warned ht]
    simp [hn]
  inside := by simpa [hn] using h.inside
  tidy := h.tidy

/-- A step that finds nothing and leaves the scopes as they are. -/
theorem of_scopes (he : r.errors = []) (hs : r₁.scopes = r.scopes) (hw : r₁.warnings = r.warnings) : Walked r r₁ [] [] [] where
  errors := he
  length := by rw [hs]
  used level _ x := by simp [Resolution.IsUsed, hs]
  declared level _ x line := by simp [Resolution.DeclaredOn, hs]
  warned _ w := by simp [hw]
  inside := nofun
  tidy h := ⟨hs ▸ h.scopes, hw ▸ h.warnings⟩

end Walked

/-! ## Steps -/

namespace Resolution

variable {r : Resolution} {scopes : Scopes}

/-- The entry that an occurrence uses is the one of its name at the level to which it is bound. -/
theorem entryAt_useIn (name : String) : ∀ scopes : List Scope, ∀ p ∈ useIn name scopes,
    p.2.length = scopes.length ∧ ∀ level x,
      (p.1 + level + 1 = scopes.length → ∃ e, entryAt scopes level name = some e) ∧ entryAt p.2 level x =
        if x = name ∧ p.1 + level + 1 = scopes.length then (entryAt scopes level x).map ({ · with isUsed := true })
        else entryAt scopes level x
  | [], _, hp => nomatch hp
  | scope :: outer, p, hp => by
    unfold useIn at hp
    cases hg : scope.get? name with
    | some entry =>
      rw [hg] at hp
      cases hp
      -- of all levels only the innermost one changes
      refine ⟨rfl, fun level x => ?_⟩
      simp only [entryAt, List.length_cons, Nat.zero_add, Nat.add_right_cancel_iff, Dict.get?_insert]
      by_cases hl : level = outer.length
      · by_cases hx : x = name
        · simp [hl, hx, hg]
        · simp [hl, hx, hg]
      · simp [hl]
    | none =>
      rw [hg] at hp
      obtain ⟨q, hq, rfl⟩ := Option.map_eq_some_iff.mp hp
      obtain ⟨hlen, hat⟩ := entryAt_useIn name outer q hq
      refine ⟨congrArg (· + 1) hlen, fun level x => ?_⟩
      have hcond : q.1 + 1 + level + 1 = outer.length + 1 ↔ q.1 + level + 1 = outer.length := by omega
      simp only [entryAt, List.length_cons, hlen, hat, hcond]
      by_cases hl : level = outer.length
      · have hne : ¬ q.1 + outer.length + 1 = outer.length := by omega
        simp [hl, hne]
      · simpa [hl] using (hat level x).1

theorem Tidy.of_eq {r' : Resolution} (h : r.Tidy) (hs : r'.scopes = r.scopes) (hw : r'.warnings = r.warnings) : r'.Tidy :=
  ⟨hs ▸ h.scopes, hw ▸ h.warnings⟩

theorem tidy_useIn (name : String) : ∀ {scopes : List Scope}, (∀ scope ∈ scopes, scope.names.Nodup) →
    ∀ p ∈ useIn name scopes, ∀ scope ∈ p.2, scope.names.Nodup
  | [], _, _, hp => nomatch hp
  | scope :: outer, h, p, hp => by
    unfold useIn at hp
    obtain ⟨hscope, houter⟩ := List.forall_mem_cons.mp h
    cases hg : scope.get? name with
    | some entry =>
      rw [hg] at hp
      cases hp
      exact List.forall_mem_cons.mpr ⟨Dict.nodup_insert hscope _ _, houter⟩
    | none =>
      rw [hg] at hp
      obtain ⟨q, hq, rfl⟩ := Option.map_eq_some_iff.mp hp
      exact List.forall_mem_cons.mpr ⟨hscope, tidy_useIn name houter q hq⟩

@[simp] theorem use_warnings (r : Resolution) (id : NodeId) (name : String) : (r.use id name).warnings = r.warnings := by
  unfold use; split <;> rfl

@[simp] theorem report_warnings (r : Resolution) (site : Site) (fault : ScopeFault) :
    (r.report site fault).warnings = r.warnings := by
  unfold report; split <;> rfl

@[simp] theorem reportIf_warnings (r : Resolution) (found : Bool) (site : Site) (fault : ScopeFault) :
    (r.reportIf found site fault).warnings = r.warnings := by
  cases found <;> simp [reportIf]

/-- An occurrence is a use of the variable to which it is bound. -/
theorem use_walked (h : Mirrors r.scopes scopes) (he : r.errors = []) (id : NodeId) (name : String) :
    Walked r (r.use id name) [] [⟨id, name, scopes⟩] [] := by
  have hm := useIn_mirrors name h
  have hlen : r.scopes.length = scopes.length := h.length_eq
  cases hu : useIn name r.scopes with
  | none =>
    rw [hu] at hm
    have hr : r.use id name = r := by simp [use, hu]
    have hn : ∀ level x, ¬ Occurrence.BoundTo ⟨id, name, scopes⟩ level x := by
      rintro level x ⟨-, d, hd, -⟩
      exact nomatch hm.symm.trans hd
    rw [hr]
    exact { Walked.refl he with used := by simp [hn], inside := nofun }
  | some p =>
    rw [hu] at hm
    obtain ⟨hl, hat⟩ := entryAt_useIn name r.scopes p hu
    have hs : (r.use id name).scopes = p.2 := by simp [use, hu]
    have hb : ∀ level x, Occurrence.BoundTo ⟨id, name, scopes⟩ level x ↔ x = name ∧ p.1 + level + 1 = r.scopes.length := by
      intro level x
      have hd : Occurrence.depth? ⟨id, name, scopes⟩ = some p.1 := hm.1
      simp [Occurrence.BoundTo, hd, hlen, eq_comm]
    refine { Walked.refl he with length := by rw [hs, hl], used := fun level _ x => ?_, declared := fun level _ x line => ?_,
                                 warned := by simp, inside := nofun, tidy := fun ht => ⟨?_, by simpa using ht.warnings⟩ }
    · obtain ⟨hsome, heq⟩ := hat level x
      simp only [IsUsed, hs, heq, List.mem_singleton, exists_eq_left, hb]
      split
      · rename_i hc
        obtain ⟨e, hee⟩ := hsome hc.2
        simp [hc.1, hee, hc.2]
      · rename_i hc
        simp [hc]
    · simp only [DeclaredOn, hs, (hat level x).2]
      split
      · simp
      · simp
    · rw [hs]
      exact tidy_useIn name ht.scopes p hu

theorem reportIf_walked {found : Bool} {site : Site} {fault : ScopeFault} (he : (r.reportIf found site fault).errors = []) :
    Walked r (r.reportIf found site fault) [] [] [] :=
  .of_scopes (of_reportIf he).2 (by simp) (by simp)

theorem readVariable_walked (h : Mirrors r.scopes scopes) {id : NodeId} {name : Name}
    (he : (r.readVariable id name).errors = []) :
    Walked r (r.readVariable id name) [] [⟨id, name.text, scopes⟩] [] := by
  have he' : (r.reportIf (r.inOwnInitializer name.text) name.site .readInOwnInitializer).errors = [] := by
    simpa [readVariable] using he
  exact (reportIf_walked he').trans (use_walked (by simpa using h) he' id name.text)

theorem readThis_walked (h : Mirrors r.scopes scopes) {ctx : Context} {id : NodeId} {line : Nat}
    (he : (r.readThis ctx id line).errors = []) : Walked r (r.readThis ctx id line) [] [⟨id, "this", scopes⟩] [] := by
  have hu := (of_readThis he).2.2
  rw [hu] at he ⊢
  exact use_walked h (by simpa using he) id "this"

theorem readSuper_walked (h : Mirrors r.scopes scopes) {ctx : Context} {id : NodeId} {line : Nat}
    (he : (r.readSuper ctx id line).errors = []) : Walked r (r.readSuper ctx id line) [] [⟨id, "super", scopes⟩] [] := by
  have hu := (of_readSuper he).2.2
  rw [hu] at he ⊢
  exact use_walked h (by simpa using he) id "super"

theorem Tidy.insert {scope : Scope} {outer : List Scope} (h : r.Tidy) (hr : r.scopes = scope :: outer) (name : String)
    (entry : Local) : Tidy { r with scopes := scope.insert name entry :: outer } := by
  have hs := h.scopes
  rw [hr] at hs
  obtain ⟨hscope, houter⟩ := List.forall_mem_cons.mp hs
  exact ⟨List.forall_mem_cons.mpr ⟨Dict.nodup_insert hscope _ _, houter⟩, h.warnings⟩

theorem declare_walked {name : Name} (he : (r.declare name).errors = []) : Walked r (r.declare name) [name] [] [] := by
  unfold declare at he ⊢
  cases hr : r.scopes with
  | nil => exact { Walked.refl (by simpa [hr] using he) with declared := by simp [hr] }
  | cons scope outer =>
    rw [hr] at he
    obtain ⟨hagain, he⟩ := of_reportIf he
    have hg : entryAt (scope :: outer) outer.length name.text = none := by
      simpa [entryAt_top, Dict.contains] using hagain
    simp only [hagain, reportIf, Bool.false_eq_true, if_false]
    refine { Walked.refl he with length := by simp [hr], used := fun level _ x => ?_, declared := fun level _ x line => ?_,
                                 warned := by simp, tidy := fun ht => ht.insert hr .. }
    · simp only [IsUsed, hr, entryAt_insert]
      split
      · rename_i hc
        simp [hc.1, hc.2, hg]
      · simp
    · simp only [DeclaredOn, hr, entryAt_insert]
      split
      · rename_i hc
        simp [hc.1, hc.2, hg]
      · rename_i hc
        have hn : ¬ (level + 1 = (scope :: outer).length ∧ ∃ n ∈ [name], n.text = x ∧ n.line = line) := by
          rintro ⟨hl, n, hm, hx, -⟩
          exact hc ⟨Nat.succ.inj hl, List.mem_singleton.mp hm ▸ hx.symm⟩
        exact (or_iff_left hn).symm

theorem define_walked (he : r.errors = []) (name : Name) : Walked r (r.define name) [] [] [] := by
  unfold define
  cases hr : r.scopes with
  | nil => exact .refl he
  | cons scope outer =>
    dsimp only
    cases hg : scope.get? name.text with
    | none => exact .refl he
    | some entry =>
      have hentry : entryAt (scope :: outer) outer.length name.text = some entry := (entryAt_top ..).trans hg
      refine { Walked.refl he with length := by simp [hr], used := fun level _ x => ?_, declared := fun level _ x line => ?_,
                                   warned := by simp, tidy := fun ht => ht.insert hr .. }
      · simp only [IsUsed, hr, entryAt_insert]
        split
        · rename_i hc
          simp [hc.1, hc.2, hentry]
        · simp
      · simp only [DeclaredOn, hr, entryAt_insert]
        split
        · rename_i hc
          simp [hc.1, hc.2, hentry]
        · simp

theorem introduce_walked {name : Name} (he : (r.introduce name).errors = []) : Walked r (r.introduce name) [name] [] [] := by
  have hd : (r.declare name).errors = [] := by simpa [introduce] using he
  exact (declare_walked hd).trans (define_walked hd name)

theorem introduceAll_walked : ∀ (params : List Name) {r : Resolution}, (params.foldl introduce r).errors = [] →
    Walked r (params.foldl introduce r) params [] []
  | [], _, he => .refl he
  | _ :: params, _, he => (introduce_walked (of_introduceAll he)).trans (introduceAll_walked params he)

theorem mem_warnAll_iff (ws : List Warning) (r : Resolution) (w : Warning) :
    w ∈ (ws.foldl warn r).warnings ↔ w ∈ r.warnings ∨ w ∈ ws := by
  induction ws generalizing r with
  | nil => simp
  | cons v ws ih =>
    have hv : w ∈ (r.warn v).warnings ↔ w ∈ r.warnings ∨ w = v := by
      unfold warn
      split
      · rename_i hm
        exact ⟨.inl, fun h => h.elim id fun hw => hw ▸ hm⟩
      · simp
    rw [List.foldl_cons, ih, hv, List.mem_cons, or_assoc]

theorem warnAll_nodup : ∀ (ws : List Warning) {r : Resolution}, r.warnings.Nodup → (ws.foldl warn r).warnings.Nodup
  | [], _, h => h
  | w :: ws, r, h => by
    refine warnAll_nodup ws ?_
    unfold warn
    split
    · exact h
    · rename_i hm
      exact List.nodup_append.mpr ⟨h, List.nodup_singleton w, by simpa using fun v hv (e : v = w) => hm (e ▸ hv)⟩

theorem checkReturn_walked {ctx : Context} {form : ReturnForm} {line : Nat} {hasValue : Bool}
    (he : (r.checkReturn ctx form line hasValue).errors = []) :
    Walked r (r.checkReturn ctx form line hasValue) [] [] [] :=
  .of_scopes (of_checkReturn he) (by simp [checkReturn]) (by simp [checkReturn])

/-- What is warned of when the innermost scope closes. -/
theorem mem_closeScope_iff (ht : r.Tidy) {level : Nat} (hl : r.scopes.length = level + 1) (w : Warning) :
    w ∈ r.closeScope.warnings ↔ w ∈ r.warnings ∨ r.DeclaredOn level w.name w.line ∧ ¬ r.IsUsed level w.name := by
  obtain ⟨scope, outer, hr⟩ := List.exists_cons_of_length_eq_add_one hl
  have hlevel : outer.length = level := by simpa [hr] using hl
  have hs : scope.names.Nodup := ht.scopes scope (by simp [hr])
  unfold closeScope DeclaredOn IsUsed
  simp only [hr, ← hlevel, entryAt_top, mem_warnAll_iff, Scope.mem_unused_iff hs]
  refine or_congr_right ⟨?_, ?_⟩
  · rintro ⟨e, he, hu, hline⟩
    refine ⟨⟨e, he, hline⟩, ?_⟩
    rintro ⟨e', he', hu'⟩
    cases he.symm.trans he'
    exact Bool.false_ne_true (hu.symm.trans hu')
  · rintro ⟨⟨e, he, hline⟩, hu⟩
    exact ⟨e, he, Bool.eq_false_iff.mpr fun h => hu ⟨e, he, h⟩, hline⟩

theorem Tidy.closeScope (h : r.Tidy) : r.closeScope.Tidy := by
  refine ⟨fun scope hs => h.scopes scope (List.mem_of_mem_tail (by simpa using hs)), ?_⟩
  unfold Resolution.closeScope
  split
  · exact h.warnings
  · exact warnAll_nodup _ h.warnings

end Resolution

namespace Walked

open Resolution

variable {r r₁ : Resolution} {xs : List Name} {os : List Occurrence} {ns : List (Node × Position)} {scope : Scope}

/-- The levels below stay as they are when a scope is opened, and when it is closed. -/
theorem enclosed (h : Walked { r with scopes := scope :: r.scopes } r₁ xs os ns) (hs : scope.names.Nodup)
    {ms : List (Node × Position)}
    (hw : r.Tidy → r₁.Tidy → ∀ w, w ∈ r₁.closeScope.warnings ↔ w ∈ r.warnings ∨ ∃ n ∈ ms, ∃ s ∈ n.1.region? n.2, s.Unused w)
    (hi : ∀ n ∈ ms, ∀ s ∈ n.1.region? n.2, s.occurrences ⊆ os) : Walked r r₁.closeScope [] os ms := by
  obtain ⟨scope₁, outer, hr⟩ := List.exists_cons_of_length_eq_add_one h.length
  have hlen : outer.length = r.scopes.length := by simpa [hr] using h.length
  have ht : r.Tidy → r₁.Tidy := fun ht => h.tidy ⟨List.forall_mem_cons.mpr ⟨hs, ht.scopes⟩, ht.warnings⟩
  refine { errors := h.errors, length := by simp [hr, hlen], used := fun level hl x => ?_,
           declared := fun level hl x line => ?_, warned := fun hr => hw hr (ht hr), inside := hi,
           tidy := fun hr => (ht hr).closeScope }
  · have hu := h.used level (Nat.lt_succ_of_lt hl) x
    simp only [IsUsed, hr, closeScope_scopes, List.tail_cons, entryAt_below scope₁ (hlen ▸ hl), entryAt_below scope hl] at hu ⊢
    exact hu
  · have hd := h.declared level (Nat.lt_succ_of_lt hl) x line
    have hne : ¬ level + 1 = (scope :: r.scopes).length := by simpa using Nat.ne_of_lt hl
    simp only [DeclaredOn, hr, closeScope_scopes, List.tail_cons, entryAt_below scope₁ (hlen ▸ hl), entryAt_below scope hl,
      hne, false_and, or_false] at hd ⊢
    simpa using hd

/-- The code of a whole region, at the node that opens its scope. -/
theorem closed (h : Walked r.openScope r₁ xs os ns) {node : Node} {pos : Position}
    (hn : node.region? pos = some ⟨xs, os, r.scopes.length⟩) : Walked r r₁.closeScope [] os ((node, pos) :: ns) := by
  refine enclosed h List.nodup_nil (fun ht ht₁ w => ?_) ?_
  · have hempty : entryAt (Dict.empty :: r.scopes) r.scopes.length w.name = none := entryAt_top ..
    have hd := h.declared r.scopes.length (Nat.lt_succ_self _) w.name w.line
    have hu := h.used r.scopes.length (Nat.lt_succ_self _) w.name
    have hunused : r₁.DeclaredOn r.scopes.length w.name w.line ∧ ¬ r₁.IsUsed r.scopes.length w.name ↔
        Region.Unused ⟨xs, os, r.scopes.length⟩ w := by
      rw [hd, hu]
      simp only [DeclaredOn, IsUsed, openScope, hempty, reduceCtorEq, false_and, exists_false, false_or, not_exists, not_and]
      exact ⟨fun h => ⟨h.1.2, h.2⟩, fun h => ⟨⟨rfl, h.declared⟩, h.unbound⟩⟩
    rw [mem_closeScope_iff ht₁ h.length, hunused, h.warned ⟨List.forall_mem_cons.mpr ⟨List.nodup_nil, ht.scopes⟩, ht.warnings⟩]
    simp only [List.mem_cons, exists_eq_or_imp, hn, Option.mem_some_iff, exists_eq_left']
    rw [or_assoc, or_comm (a := ∃ n ∈ ns, _)]
    rfl
  · refine List.forall_mem_cons.mpr ⟨fun s hs => ?_, h.inside⟩
    rw [hn] at hs
    cases hs
    exact List.Subset.refl os

/-- A scope that only holds `this` or `super` gives no warning. -/
theorem implicit {name : String} (h : Walked (r.openImplicit name) r₁ [] os ns) : Walked r r₁.closeScope [] os ns := by
  have hs : (Dict.empty.insert name (⟨true, true, 0⟩ : Local)).names.Nodup := List.nodup_singleton name
  refine enclosed h hs (fun ht ht₁ w => ?_) h.inside
  have htop := entryAt_top (Dict.empty.insert name (⟨true, true, 0⟩ : Local)) r.scopes w.name
  have hd := h.declared r.scopes.length (Nat.lt_succ_self _) w.name w.line
  have hu := h.used r.scopes.length (Nat.lt_succ_self _) w.name
  have hunused : ¬ (r₁.DeclaredOn r.scopes.length w.name w.line ∧ ¬ r₁.IsUsed r.scopes.length w.name) := by
    rw [hd, hu]
    simp only [DeclaredOn, IsUsed, openImplicit, htop, Dict.get?_insert]
    split <;> simp
  rw [mem_closeScope_iff ht₁ h.length, or_iff_left hunused]
  exact h.warned ⟨List.forall_mem_cons.mpr ⟨hs, ht.scopes⟩, ht.warnings⟩ w

end Walked

end Lox
