import Mathlib.Logic.Function.Basic
import Lox.Proofs.Scope.Binding
import Lox.Proofs.Scope.Nodes

/-!
# Variables that are not yet defined

In an open scope a variable is undefined as long as its initializer lasts. The walk leaves no variable
undefined that was defined before, so that what the innermost scope says at a node is where the node stands.
-/

namespace Lox

/-- The variables of a scope whose initializer is not over. -/
def Scope.pending (scope : Scope) (x : String) : Bool := (scope.get? x).any (!·.isDefined)

theorem Scope.pending_insert (scope : Scope) (x : String) (entry : Local) :
    Scope.pending (scope.insert x entry) = Function.update (Scope.pending scope) x (!entry.isDefined) := by
  funext y
  simp only [Scope.pending, Dict.get?_insert, Function.update_apply]
  split <;> rfl

namespace Resolution

def pending (r : Resolution) : List (String → Bool) := r.scopes.map Scope.pending

theorem inOwnInitializer_eq (r : Resolution) (x : String) : r.inOwnInitializer x = r.pending.head?.any (· x) := by
  unfold inOwnInitializer pending
  cases r.scopes <;> rfl

@[simp] theorem pending_reportIf (r : Resolution) (found : Bool) (site : Site) (fault : ScopeFault) :
    (r.reportIf found site fault).pending = r.pending := by
  simp [pending]

@[simp] theorem pending_report (r : Resolution) (site : Site) (fault : ScopeFault) :
    (r.report site fault).pending = r.pending := by
  simp [pending]

@[simp] theorem pending_openScope (r : Resolution) : r.openScope.pending = (fun _ => false) :: r.pending := rfl

@[simp] theorem pending_openImplicit (r : Resolution) (name : String) :
    (r.openImplicit name).pending = (fun _ => false) :: r.pending := by
  simp only [pending, openImplicit, List.map_cons, List.cons.injEq, and_true]
  rw [Scope.pending_insert]
  exact Function.update_eq_self_iff.mpr rfl

@[simp] theorem pending_closeScope (r : Resolution) : r.closeScope.pending = r.pending.tail := by
  simp [pending, List.map_tail]

theorem pending_declare (r : Resolution) (name : Name) :
    (r.declare name).pending = r.pending.modifyHead (Function.update · name.text true) := by
  unfold declare
  cases h : r.scopes with
  | nil => simp [pending, h]
  | cons scope outer => simp [pending, h, Scope.pending_insert]

theorem pending_define (r : Resolution) (name : Name) :
    (r.define name).pending = r.pending.modifyHead (Function.update · name.text false) := by
  unfold define
  cases h : r.scopes with
  | nil => simp [pending, h]
  | cons scope outer =>
    cases hg : scope.get? name.text with
    | none =>
      have hf : Scope.pending scope name.text = false := by simp [Scope.pending, hg]
      simp [pending, h, hg, ← hf]
    | some entry => simp [pending, h, hg, Scope.pending_insert]

theorem pending_useIn (name : String) (scopes : List Scope) : ∀ p ∈ useIn name scopes,
    p.2.map Scope.pending = scopes.map Scope.pending := by
  induction scopes with
  | nil => nofun
  | cons scope outer ih =>
    intro p hp
    unfold useIn at hp
    cases hg : scope.get? name with
    | some entry =>
      rw [hg] at hp
      cases hp
      have hd : (!entry.isDefined) = Scope.pending scope name := by simp [Scope.pending, hg]
      simp [Scope.pending_insert, hd]
    | none =>
      rw [hg] at hp
      obtain ⟨q, hq, rfl⟩ := Option.map_eq_some_iff.mp hp
      simp [ih q hq]

@[simp] theorem pending_use (r : Resolution) (id : NodeId) (name : String) : (r.use id name).pending = r.pending := by
  unfold use
  cases h : useIn name r.scopes with
  | none => rfl
  | some p => exact pending_useIn name r.scopes p h

/-- A declaration leaves nothing undefined where nothing was. -/
theorem pending_defined {r : Resolution} (h : ∀ x, r.inOwnInitializer x = false) (name : Name) :
    (r.pending.modifyHead (Function.update · name.text true)).modifyHead (Function.update · name.text false) = r.pending := by
  simp only [inOwnInitializer_eq] at h
  cases hp : r.pending with
  | nil => rfl
  | cons p ps =>
    rw [hp] at h
    simpa using h name.text

end Resolution

/-- The open scopes, with what in them is not yet defined, are those around the position. -/
structure Follows (r : Resolution) (pos : Position) : Prop where
  mirrors : Mirrors r.scopes pos.scopes
  pending : ∀ x, r.inOwnInitializer x = true ↔ pos.Initializes x

/-- Nothing is being initialized where a statement stands. -/
def Position.Settled (pos : Position) : Prop := ∀ s ∈ pos.scopes.head?, s.pending = none

theorem Position.settled_global : Position.Settled {} := fun _ hs => absurd hs (Option.not_mem_none _)

theorem Position.initializes_declare (pos : Position) (names : List String) (x : String) :
    (pos.declare names).Initializes x ↔ pos.Initializes x := by
  obtain ⟨within, _ | ⟨s, outer⟩⟩ := pos <;> simp [declare, Scopes.declare, Initializes]

theorem Position.Settled.declare {pos : Position} (h : pos.Settled) (names : List String) : (pos.declare names).Settled := by
  obtain ⟨within, _ | ⟨s, outer⟩⟩ := pos
  · exact nofun
  · simpa [Position.declare, Scopes.declare, Settled] using h

namespace Follows

variable {r r' : Resolution} {pos : Position}

theorem of_pending (h : Follows r pos) (hp : r'.pending = r.pending) (hm : Mirrors r'.scopes pos.scopes) : Follows r' pos :=
  ⟨hm, fun x => by rw [Resolution.inOwnInitializer_eq, hp, ← Resolution.inOwnInitializer_eq]; exact h.pending x⟩

theorem enter (h : Follows r pos) (e : Enclosure) : Follows r (pos.enter e) := ⟨h.mirrors, h.pending⟩

theorem declared (h : Follows r pos) (hp : r'.pending = r.pending) {names : List String}
    (hm : Mirrors r'.scopes (pos.scopes.declare names)) : Follows r' (pos.declare names) :=
  ⟨hm, fun x => by
    rw [Resolution.inOwnInitializer_eq, hp, ← Resolution.inOwnInitializer_eq, pos.initializes_declare]
    exact h.pending x⟩

/-- A scope in which nothing is being initialized. -/
theorem inside {ps : List (String → Bool)} (hp : r.pending = (fun _ => false) :: ps) {s : LocalScope} (hs : s.pending = none)
    (hm : Mirrors r.scopes (s :: pos.scopes)) : Follows r (pos.inside s) :=
  ⟨hm, fun x => by simp [Resolution.inOwnInitializer_eq, hp, Position.Initializes, Position.inside, hs]⟩

theorem settled (h : Follows r pos) (hs : pos.Settled) (x : String) : r.inOwnInitializer x = false := by
  rw [Bool.eq_false_iff, ne_eq, h.pending x]
  rintro ⟨s, hm, hp⟩
  rw [hs s hm] at hp
  cases hp

theorem enterInitializer (h : Follows r pos) (hs : pos.Settled) (name : Name) :
    Follows (r.declare name) (pos.enterInitializer name.text) := by
  refine ⟨Resolution.declare_pending h.mirrors name, fun x => ?_⟩
  have hf := h.settled hs x
  rw [Resolution.inOwnInitializer_eq] at hf ⊢
  rw [Resolution.pending_declare]
  have hm := h.mirrors
  unfold Position.enterInitializer Position.Initializes Scopes.enterInitializer Resolution.pending at *
  cases hp : pos.scopes with
  | nil => rw [hp] at hm; rw [List.forall₂_nil_right_iff.mp hm]; simp
  | cons s outer =>
    rw [hp] at hm
    obtain ⟨scope, open_, -, -, hr⟩ := List.forall₂_cons_right_iff.mp hm
    rw [hr] at hf ⊢
    simp only [List.map_cons, List.head?_cons, Option.any_some, List.modifyHead_cons, Function.update_apply,
      Option.mem_some_iff, exists_eq_left', Option.some.injEq] at hf ⊢
    by_cases hx : x = name.text
    · simp [hx]
    · simp [hx, hf, Ne.symm hx]

end Follows

end Lox
