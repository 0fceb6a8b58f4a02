import Lox.Proofs.Session.Agreement

/-!
# Identities

Identities are handed out one after the other, by a counter that goes on from program to program. So no two nodes share
one, in a program or in two, accepted or not, and the table of a new program leaves alone what was entered for the earlier
ones.
-/

namespace Lox

/-- All nodes of the statements have identities of their own, from the first one on and below the next free one. -/
structure Parsed.Identified (p : Parsed (List Stmt)) (first : NodeId) : Prop where
  distinct : (idsStmts p.tree).Nodup
  bounded : ∀ id ∈ idsStmts p.tree, first ≤ id ∧ id < p.nextId

theorem parseProgram_identified (tokens : List Token) (first : NodeId) : (parseProgram tokens first).Identified first := by
  have hspans : Spans first (parseProgram tokens first).nextId (idsStmts (parseProgram tokens first).tree) :=
    (parseProgram_read (P := fun _ => True) (fun _ _ _ _ => trivial) first).1
  exact ⟨hspans.nodup, fun _ hid => hspans.mem hid⟩

/-! ## All programs of a session -/

/-- The identities in the program that the request reads, whether it is rejected or not. -/
def Request.identities (s : Session) : Request → List NodeId
  | run _ source => idsStmts (parseProgram (tokensOf (Item.ofSource source)) s.nextId).tree
  | call .. => []

/-- The identities in all programs that were read, the latest first. -/
def Past.identities (past : Past) : List NodeId := past.flatMap fun p => p.2.identities p.1

theorem Request.identities_spans (r : Request) (s : Session) : Spans s.nextId (r.nextId s) (r.identities s) := by
  cases r with
  | run fuel source => exact parse_spans source s.nextId
  | call => exact .nil (Nat.le_refl _)

theorem History.Possible.identities_spans {h : History} (hp : h.Possible) : Spans 0 h.session.nextId h.past.identities := by
  induction hp with
  | start => exact .nil (Nat.le_refl _)
  | between _ _ _ _ ih => exact ih
  | @next h r a hp ha hans ih =>
    have hspans := (ih.append (r.identities_spans h.session)).perm List.perm_append_comm
    rw [← (hp.ready.answer ha hans).nextId] at hspans
    exact hspans

/-! ## The table in the course of a session -/

/-- The session goes on from the first history to the second. -/
inductive History.Leads (h : History) : History → Prop where
  | refl : h.Leads h
  | next {h' r a} : h.Leads h' → h'.Allows r → h'.session.answer? r = some a → h.Leads (h'.after r a)
  | between {h'} (input output clock) : h.Leads h' → h.Leads (h'.between input output clock)

variable {h later : History}

theorem History.Leads.possible (hl : h.Leads later) (hp : h.Possible) : later.Possible := by
  induction hl with
  | refl => exact hp
  | next _ ha hans ih => exact .next ih ha hans
  | between input output clock _ ih => exact .between input output clock ih

/-- Merging enters nothing for the identities that are taken. -/
theorem Checked.merge_get? {source : String} {nextId : NodeId} {c : Checked}
    (hc : (analyze source nextId).checked = some c) (t : BindingTable) {id : NodeId} (hid : id < nextId) :
    (t.merge c.table).get? id = t.get? id := by
  rw [BindingTable.get?_merge, Checked.table_get?_of_not_mem hc (.inl hid), Option.none_or]

theorem Request.machine_get? (r : Request) {s : Session} {id : NodeId} (hid : id < s.nextId) :
    (r.machine s).bindings.get? id = s.machine.bindings.get? id := by
  cases r with
  | call => rfl
  | run fuel source =>
    cases hc : (analyze source s.nextId).checked with
    | none => simp only [Request.machine, hc]
    | some c =>
      simp only [Request.machine, hc]
      exact Checked.merge_get? hc s.machine.bindings hid

/-- What the table says of an identity that is taken, it says for ever. -/
theorem History.Leads.keeps (hl : h.Leads later) (hp : h.Possible) : h.session.nextId ≤ later.session.nextId ∧
    ∀ id, id < h.session.nextId → later.session.machine.bindings.get? id = h.session.machine.bindings.get? id := by
  induction hl with
  | refl => exact ⟨Nat.le_refl _, fun _ _ => rfl⟩
  | between _ _ _ _ ih => exact ih
  | @next h' r a hl ha hans ih =>
    have hready := (hl.possible hp).ready
    have hans := hready.answer ha hans
    refine ⟨?_, fun id hid => ?_⟩
    · change h.session.nextId ≤ a.session.nextId
      rw [hans.nextId]
      exact Nat.le_trans ih.1 (r.identities_spans h'.session).le
    · change a.session.machine.bindings.get? id = _
      rw [hans.continues.bindings, r.machine_get? (Nat.lt_of_lt_of_le hid ih.1)]
      exact ih.2 id hid

/-- No identity stands at two nodes of the history's programs. What is in the table stays: merging the table of a further
program does not change it, nor does anything that comes later. So whenever a node is evaluated, be it in a function that
an earlier program has left behind, the table says of it what resolution has found for it. -/
structure History.Identified (h : History) : Prop where
  distinct : h.past.identities.Nodup
  taken : ∀ id ∈ h.past.identities, id < h.session.nextId
  merged : ∀ source c, (analyze source h.session.nextId).checked = some c → ∀ id depth,
    h.session.machine.bindings.get? id = some depth →
      (h.session.machine.bindings.merge c.table).get? id = some depth
  kept : ∀ later, h.Leads later → ∀ id depth, h.session.machine.bindings.get? id = some depth →
    later.session.machine.bindings.get? id = some depth
  unbound : ∀ later, h.Leads later → ∀ id ∈ h.past.identities, h.session.machine.bindings.get? id = none →
    later.session.machine.bindings.get? id = none
  used : ∀ r x id name m, h.Allows r → r.Meets h.session x → x.Accesses id name m →
    ∃ p ∈ (h.session, r) :: h.past, ∃ o ∈ p.2.occurrences p.1,
      o.id = id ∧ o.name = name.text ∧ m.bindings.get? id = o.depth?

/-- Identities never collide, whatever the tokens and whatever has been run before. -/
theorem identities_never_collide :
    (∀ tokens first, (parseProgram tokens first).Identified first) ∧ ∀ h : History, h.Possible → h.Identified := by
  refine ⟨parseProgram_identified, fun h hp => ?_⟩
  have hspans := hp.identities_spans
  have taken : ∀ id depth, h.session.machine.bindings.get? id = some depth → id < h.session.nextId := by
    intro id depth hd
    refine Nat.lt_of_not_le fun hle => ?_
    rw [hp.ready.free id hle] at hd
    cases hd
  refine ⟨hspans.nodup, fun id hid => (hspans.mem hid).2, fun source c hc id depth hd => ?_, fun later hl id depth hd => ?_,
    fun later hl id hid hd => ?_, fun r x id name m ha hx hacc => ?_⟩
  · rw [Checked.merge_get? hc _ (taken id depth hd), hd]
  · rw [(hl.keeps hp).2 id (taken id depth hd), hd]
  · rw [(hl.keeps hp).2 id (hspans.mem hid).2, hd]
  · obtain ⟨hcov, Γ, hready⟩ := hp.ready.meets ha hx
    obtain ⟨_, scopes, hat, ⟨p, hmem, ho⟩, -⟩ := World.ready_accessed hcov hready hacc
    exact ⟨p, hmem, _, ho, rfl, rfl, hat.ready.table _ ⟨p, hmem, ho⟩⟩

/-- In both copies of a target, a compound assignment has copied its target. -/
theorem identities_of_copied_targets :
    let first := Request.run 30 "fun f(o) { (fun() { o.x += 1; return o; })().y += 1; }"
    ∃ a, (History.start (.ofBytes []) .unlimited 0).session.answer? first = some a ∧
      ((History.start (.ofBytes []) .unlimited 0).after first a).past.identities = [0, 1, 2, 3, 4, 5] ∧
      ((History.start (.ofBytes []) .unlimited 0).after first a).Identified := by
  intro first
  have hfirst : ((History.start (.ofBytes []) .unlimited 0).session.answer? first).isSome = true := by decide +kernel
  obtain ⟨a, ha⟩ := Option.isSome_iff_exists.mp hfirst
  have hp : ((History.start (.ofBytes []) .unlimited 0).after first a).Possible := .next .start trivial ha
  refine ⟨a, ha, ?_, identities_never_collide.2 _ hp⟩
  change Past.identities [((History.start (.ofBytes []) .unlimited 0).session, first)] = _
  decide +kernel

end Lox
