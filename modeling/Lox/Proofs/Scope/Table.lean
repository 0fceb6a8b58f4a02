import Lox.Session
import Lox.Proofs.Scope.Binding
import Lox.Proofs.Grammar.Statements

/-!
# What the binding table says

Each identity of a program stands at one occurrence, so that the table gives for an occurrence what
was entered for it and nothing else.
-/

namespace Lox

namespace BindingTable

theorem get?_insert (t : BindingTable) (id depth j : Nat) :
    (t.insert id depth).get? j = if j = id then some depth else t.get? j := by
  unfold insert get?
  split
  · rename_i h
    by_cases hj : j = id
    · subst hj; simp
    · simp [hj, Ne.symm hj]
  · rename_i h
    have hle : t.depths.size ≤ id := Nat.le_of_not_lt h
    have hsize : (t.depths ++ Array.replicate (id - t.depths.size) none).size = id := by
      rw [Array.size_append, Array.size_replicate, Nat.add_sub_cancel' hle]
    rw [Array.getElem?_push, hsize]
    by_cases hj : j = id
    · simp [hj]
    · simp only [hj, if_false, Array.getElem?_append, Array.getElem?_replicate]
      split
      · rfl
      · rename_i hlt
        have hn : t.depths[j]? = none := Array.getElem?_eq_none (Nat.le_of_not_lt hlt)
        rw [hn]
        split <;> rfl

theorem get?_enter (t : BindingTable) (o : Occurrence) (j : NodeId) :
    (t.enter o).get? j = if j = o.id then o.depth?.or (t.get? j) else t.get? j := by
  unfold enter
  cases o.depth? with
  | none => simp
  | some d => simp [get?_insert]

theorem get?_enterAll_of_not_mem {j : NodeId} : ∀ {os : List Occurrence} (t : BindingTable),
    j ∉ os.map Occurrence.id → (t.enterAll os).get? j = t.get? j
  | [], _, _ => rfl
  | o :: os, t, h => by
    simp only [List.map_cons, List.mem_cons, not_or] at h
    have ih := get?_enterAll_of_not_mem (t.enter o) h.2
    rw [get?_enter, if_neg h.1] at ih
    exact ih

theorem get?_enterAll : ∀ {os : List Occurrence} {t : BindingTable}, (os.map Occurrence.id).Nodup →
    ∀ o ∈ os, t.get? o.id = none → (t.enterAll os).get? o.id = o.depth?
  | p :: os, t, hn, o, ho, ht => by
    obtain ⟨hp, hn⟩ := List.nodup_cons.mp hn
    have hall : (t.enterAll (p :: os)).get? o.id = ((t.enter p).enterAll os).get? o.id := rfl
    rw [hall]
    cases ho with
    | head => rw [get?_enterAll_of_not_mem _ hp, get?_enter]; simp [ht]
    | tail _ ho =>
      have hne : o.id ≠ p.id := fun he => hp (he ▸ List.mem_map_of_mem ho)
      exact get?_enterAll hn o ho (by rw [get?_enter, if_neg hne, ht])

end BindingTable

/-- The table of a program without scope errors is what its occurrences enter. -/
theorem resolveProgram_table {program : List Stmt} (h : (resolveProgram program).errors = []) :
    (resolveProgram program).table = BindingTable.empty.enterAll (programOccurrences program) := by
  have hm : Mirrors ({} : Resolution).scopes [] := .nil
  exact (resolveStmts_enters program {} hm h).table

theorem of_analyze {source : String} {nextId : NodeId} {c : Checked} (h : (analyze source nextId).checked = some c) :
    c.program = (parseProgram (tokensOf (Item.ofSource source)) nextId).tree ∧
      (resolveProgram c.program).errors = [] ∧ c.table = (resolveProgram c.program).table := by
  unfold analyze at h
  simp only at h
  split at h
  · split at h
    · rename_i he
      cases h
      exact ⟨rfl, List.isEmpty_iff.mp he, rfl⟩
    · cases h
  · cases h

theorem analyze_nextId (source : String) (nextId : NodeId) :
    (analyze source nextId).nextId = (parseProgram (tokensOf (Item.ofSource source)) nextId).nextId := by
  unfold analyze
  simp only
  split
  · split <;> rfl
  · rfl

theorem parse_spans (source : String) (nextId : NodeId) : Spans nextId (analyze source nextId).nextId
    (idsStmts (parseProgram (tokensOf (Item.ofSource source)) nextId).tree) := by
  have hp : ∀ t ∈ tokensOf (Item.ofSource source), ∀ text, t.kind = .identifier text → True := fun _ _ _ _ => trivial
  rw [analyze_nextId]
  exact (parseProgram_read (P := fun _ => True) hp nextId).1

theorem Checked.spans {source : String} {nextId : NodeId} {c : Checked} (h : (analyze source nextId).checked = some c) :
    Spans nextId (analyze source nextId).nextId ((programOccurrences c.program).map Occurrence.id) := by
  rw [programOccurrences, map_id_occurrencesStmts, (of_analyze h).1]
  exact parse_spans source nextId

/-- The entry of an occurrence is the depth of the innermost scope that declares its name. -/
theorem Checked.table_get? {source : String} {nextId : NodeId} {c : Checked}
    (h : (analyze source nextId).checked = some c) {o : Occurrence} (ho : o ∈ programOccurrences c.program) :
    c.table.get? o.id = o.depth? := by
  obtain ⟨-, he, ht⟩ := of_analyze h
  rw [ht, resolveProgram_table he]
  exact BindingTable.get?_enterAll (Checked.spans h).nodup o ho rfl

/-- The binding table is lexical scoping: an occurrence has the entry `d` where the scope `d` links
out is the innermost that declares its name before it, and no entry where no scope does. -/
theorem binding_table_is_lexical {source : String} {nextId : NodeId} {c : Checked}
    (h : (analyze source nextId).checked = some c) :
    ∀ o ∈ programOccurrences c.program,
      (∀ d, c.table.get? o.id = some d ↔ o.BoundAt d) ∧
        (c.table.get? o.id = none ↔ ∀ s ∈ o.scopes, o.name ∉ s.names) := by
  intro o ho
  rw [Checked.table_get? h ho]
  exact ⟨fun d => Occurrence.depth?_eq_some_iff, Occurrence.depth?_eq_none_iff⟩

/-- A function in the body of another reads a parameter of the outer one. -/
theorem binding_table_of_closure :
    ∃ h : (analyze "fun f(a): fun(): a;" 0).checked.isSome = true,
      ((analyze "fun f(a): fun(): a;" 0).checked.get h).table.get? 0 = some 1 ∧
        ∀ o ∈ programOccurrences ((analyze "fun f(a): fun(): a;" 0).checked.get h).program,
          (∀ d, ((analyze "fun f(a): fun(): a;" 0).checked.get h).table.get? o.id = some d ↔ o.BoundAt d) ∧
            (((analyze "fun f(a): fun(): a;" 0).checked.get h).table.get? o.id = none ↔
              ∀ s ∈ o.scopes, o.name ∉ s.names) :=
  ⟨by decide +kernel, by decide +kernel, binding_table_is_lexical (Option.some_get _).symm⟩

end Lox
