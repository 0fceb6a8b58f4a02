import Lox.Proofs.Evaluation.Walking

/-!
# Environments as nested stores

Environments are made one at a time, on their own or inside another one, and several of them may share what is outside. The
walk outwards and the counted steps outwards come to the same frames, and a variable that is overwritten changes for those
environments whose lookups end in its frame, and for no others.
-/

namespace Lox

namespace Store

variable {s : Store} {env : Env} {x y : String} {d : Nat} {f : FrameId}

/-- The lookup of the name ends `distance` links out: the frame there has it, and none before. -/
def Finds (s : Store) (env : Env) (name : String) (distance : Nat) : Prop :=
  (s.readAt env distance name).isSome ∧ ∀ nearer < distance, s.readAt env nearer name = none

/-! ## Lookups -/

theorem Finds.unique {d' : Nat} (h : s.Finds env x d) (h' : s.Finds env x d') : d = d' := by
  have hle : ∀ {a b : Nat}, s.Finds env x a → s.Finds env x b → a ≤ b := by
    intro a b ha hb
    by_contra hlt
    have hb := hb.1
    rw [ha.2 b (Nat.lt_of_not_le hlt)] at hb
    cases hb
  exact Nat.le_antisymm (hle h h') (hle h' h)

theorem finds_zero (h : (s.readAt env 0 x).isSome) : s.Finds env x 0 := ⟨h, nofun⟩

theorem finds_one (h : (s.readAt env 1 x).isSome) (hfirst : s.readAt env 0 x = none) : s.Finds env x 1 := by
  refine ⟨h, fun nearer hn => ?_⟩
  obtain rfl : nearer = 0 := Nat.lt_one_iff.mp hn
  exact hfirst

theorem readAt_of_ancestor? (h : ancestor? env d = some f) (x : String) : s.readAt env d x = s.var? f x := by
  rw [readAt, h, Option.bind_some]

/-- The walk outwards ends at the least distance at which the name is found. -/
theorem slot?_eq_some_iff : s.slot? env x = some f ↔ ∃ d, s.Finds env x d ∧ ancestor? env d = some f := by
  unfold slot?
  rw [List.find?_eq_some_iff_getElem]
  constructor
  · rintro ⟨hx, d, hd, hf, hnear⟩
    have hat : ancestor? env d = some f := by rw [ancestor?, List.getElem?_eq_getElem hd, hf]
    refine ⟨d, ⟨by rwa [readAt_of_ancestor? hat], fun j hj => ?_⟩, hat⟩
    rw [readAt_of_ancestor? (List.getElem?_eq_getElem (Nat.lt_trans hj hd))]
    simpa using hnear j hj
  · rintro ⟨d, ⟨hx, hnear⟩, hat⟩
    obtain ⟨hd, hf⟩ := List.getElem?_eq_some_iff.mp hat
    rw [readAt_of_ancestor? hat] at hx
    refine ⟨hx, d, hd, hf, fun j hj => ?_⟩
    have hj' := hnear j hj
    rw [readAt_of_ancestor? (List.getElem?_eq_getElem (Nat.lt_trans hj hd))] at hj'
    simp [hj']

theorem Finds.slot? (h : s.Finds env x d) : ∃ f, ancestor? env d = some f ∧ s.slot? env x = some f ∧ (s.var? f x).isSome := by
  cases hat : ancestor? env d with
  | none => exact absurd h.1 (by simp [readAt, hat])
  | some f => exact ⟨f, rfl, slot?_eq_some_iff.mpr ⟨d, h, hat⟩, readAt_of_ancestor? hat x ▸ h.1⟩

theorem read_eq_ok_iff {v : Value} : s.read env x = .ok v ↔ ∃ f, s.slot? env x = some f ∧ s.var? f x = some v := by
  rw [read, findSome?_eq_bind]
  cases hs : s.slot? env x with
  | none => simp
  | some f => cases hv : s.var? f x <;> simp [hv]

theorem read_eq_ok_iff_readAt {v : Value} :
    s.read env x = .ok v ↔ ∃ d, s.Finds env x d ∧ s.readAt env d x = some v := by
  rw [read_eq_ok_iff]
  constructor
  · rintro ⟨f, hf, hv⟩
    obtain ⟨d, hd, hat⟩ := slot?_eq_some_iff.mp hf
    exact ⟨d, hd, readAt_of_ancestor? hat x ▸ hv⟩
  · rintro ⟨d, hd, hv⟩
    obtain ⟨f, hat, hf, -⟩ := hd.slot?
    exact ⟨f, hf, readAt_of_ancestor? hat x ▸ hv⟩

/-! ## Overwriting -/

theorem Finds.write_eq (h : s.Finds env x d) (v : Value) :
    ∃ f, ancestor? env d = some f ∧ (s.var? f x).isSome ∧ s.write env x v = .ok (s.setVar f x v) ∧
      s.writeAt env d x v = some (s.setVar f x v) := by
  obtain ⟨f, hat, hslot, hf⟩ := h.slot?
  have hslotAt : s.slotAt? env d x = some f := by rw [slotAt?, hat, Option.filter_some, if_pos hf]
  exact ⟨f, hat, hf, by rw [write, hslot], by rw [writeAt, hslotAt, Option.map_some]⟩

theorem var?_setVar_of_isSome (h : (s.var? f x).isSome) (g : FrameId) (y : String) (v : Value) :
    (s.setVar f x v).var? g y = if g = f ∧ y = x then some v else s.var? g y := by
  have hf : f < s.frames.size := by
    by_contra hge
    simp [var?, frame?, Nat.le_of_not_lt hge] at h
  rw [var?_setVar]
  simp only [hf, and_true]

theorem slot?_setVar (h : (s.var? f x).isSome) (v : Value) (env : Env) (y : String) :
    (s.setVar f x v).slot? env y = s.slot? env y := by
  have hsame : ∀ g, ((s.setVar f x v).var? g y).isSome = (s.var? g y).isSome := by
    intro g
    rw [var?_setVar_of_isSome h]
    split
    · rename_i hg
      rw [hg.1, hg.2, h]
      rfl
    · rfl
  simp only [slot?, hsame]

theorem read_setVar (h : (s.var? f x).isSome) (v : Value) (env : Env) (y : String) :
    (s.setVar f x v).read env y = if s.slot? env y = some f ∧ y = x then .ok v else s.read env y := by
  rw [read, read, findSome?_eq_bind, findSome?_eq_bind, slot?_setVar h]
  cases s.slot? env y with
  | none => simp
  | some g =>
    simp only [Option.bind_some, var?_setVar_of_isSome h, Option.some.injEq]
    by_cases hg : g = f ∧ y = x
    · simp only [if_pos hg]
    · simp only [if_neg hg]

end Store

/-! ## Forests -/

/-- Environments in the order in which they are made. -/
structure Forest where
  store : Store
  envs : List Env

/-- What can be asked of environments, apart from their variables. -/
inductive Forest.Operation where
  | new
  | child (env : Env)
  | define (env : Env) (name : String) (v : Value)
  | insert (env : Env) (name : String) (v : Value)
  | assign (env : Env) (name : String) (v : Value)
  | assignAt (env : Env) (distance : Nat) (name : String) (v : Value)

/-- The environment that the operation is about. -/
def Forest.Operation.env? : Operation → Option Env
  | new => none
  | child env | define env .. | insert env .. | assign env .. | assignAt env .. => some env

namespace Forest

def empty : Forest := { store := .empty, envs := [] }

/-- The forest with one more environment, inside the given one. -/
def grow (F : Forest) (outer : Env) : Forest :=
  let (env, store) := F.store.extend .empty outer
  { store, envs := F.envs ++ [env] }

/-- Whether there is a new store, and the forest with this or the old one. -/
def changed (F : Forest) : Option Store → Bool × Forest
  | some store => (true, { F with store })
  | none => (false, F)

/-- Whether the operation succeeds, and what it leaves. -/
def attempt (F : Forest) : Operation → Bool × Forest
  | .new => (true, F.grow [])
  | .child env => (true, F.grow env)
  | .define env name v => F.changed (F.store.define env name v).toOption
  | .insert env name v => (true, { F with store := F.store.insert env name v })
  | .assign env name v => F.changed (F.store.write env name v).toOption
  | .assignAt env distance name v => F.changed (F.store.writeAt env distance name v)

/-- The forest comes about by operations on environments that it had before. -/
inductive Built : Forest → Prop where
  | empty : Built empty
  | attempt {F : Forest} (op : Operation) : Built F → (∀ env ∈ op.env?, env ∈ F.envs) → Built (F.attempt op).2

/-- The environment `distance` links out. -/
def ancestor? (F : Forest) (env : Env) (distance : Nat) : Option Env := (Store.ancestor? env distance).bind (F.envs[·]?)

/-- Every environment has a frame of its own, and what is outside this frame is an environment again. -/
structure Linked (F : Forest) : Prop where
  size : F.store.frames.size = F.envs.length
  outer : ∀ (f : FrameId) (env : Env), F.envs[f]? = some env → ∃ rest, env = f :: rest ∧ (rest = [] ∨ rest ∈ F.envs)

/-! ## What operations keep -/

section
variable {s s' : Store} {env : Env} {x : String} {v : Value}

theorem setVar_of_define (h : (s.define env x v).toOption = some s') : ∃ f, s' = s.setVar f x v := by
  unfold Store.define at h
  split at h
  · exact ⟨_, (Option.some.inj h).symm⟩
  · cases h

theorem setVar_of_write (h : (s.write env x v).toOption = some s') : ∃ f, s' = s.setVar f x v := by
  unfold Store.write at h
  split at h
  · exact ⟨_, (Option.some.inj h).symm⟩
  · cases h

theorem setVar_of_writeAt {d : Nat} (h : s.writeAt env d x v = some s') : ∃ f, s' = s.setVar f x v := by
  obtain ⟨f, -, rfl⟩ := Option.map_eq_some_iff.mp h
  exact ⟨f, rfl⟩

end

namespace Linked

variable {F : Forest} {env : Env}

theorem store {s : Store} (h : F.Linked) (hs : s.frames.size = F.store.frames.size) : Linked { F with store := s } :=
  ⟨hs.trans h.size, h.outer⟩

theorem setVar (h : F.Linked) (f : FrameId) (x : String) (v : Value) : Linked { F with store := F.store.setVar f x v } :=
  h.store (by simp [Store.setVar])

theorem changed {o : Option Store} {x : String} {v : Value} (h : F.Linked)
    (ho : ∀ s, o = some s → ∃ f, s = F.store.setVar f x v) : (F.changed o).2.Linked := by
  cases o with
  | none => exact h
  | some s =>
    obtain ⟨f, rfl⟩ := ho s rfl
    exact h.setVar f x v

theorem grow {outer : Env} (h : F.Linked) (ho : outer = [] ∨ outer ∈ F.envs) : (F.grow outer).Linked where
  size := by simp [Forest.grow, Store.extend, h.size]
  outer f env hf := by
    simp only [Forest.grow, Store.extend] at hf ⊢
    rw [List.getElem?_append] at hf
    split at hf
    · obtain ⟨rest, henv, hrest⟩ := h.outer f env hf
      exact ⟨rest, henv, hrest.imp_right (List.mem_append_left _)⟩
    · rw [List.getElem?_singleton] at hf
      split at hf
      · rename_i hlt hzero
        have hf' : F.store.frames.size = f := by rw [h.size]; omega
        exact ⟨outer, by rw [← Option.some.inj hf, hf'], ho.imp_right (List.mem_append_left _)⟩
      · cases hf

/-- One operation keeps the links. -/
theorem attempt {op : Operation} (h : F.Linked) (hop : ∀ env ∈ op.env?, env ∈ F.envs) : (F.attempt op).2.Linked := by
  cases op with
  | new => exact h.grow (.inl rfl)
  | child env => exact h.grow (.inr (hop env rfl))
  | define env x v => exact h.changed fun s hs => setVar_of_define hs
  | assign env x v => exact h.changed fun s hs => setVar_of_write hs
  | assignAt env d x v => exact h.changed fun s hs => setVar_of_writeAt hs
  | insert env x v =>
    cases env with
    | nil => exact h
    | cons f rest => exact h.setVar f x v

end Linked

theorem Built.linked {F : Forest} (h : F.Built) : F.Linked := by
  induction h with
  | empty => exact ⟨rfl, fun f env hf => by simp [Forest.empty] at hf⟩
  | attempt _ _ hop ih => exact ih.attempt hop

/-! ## Links outwards -/

namespace Linked

variable {F : Forest} {env : Env} (h : F.Linked)
include h

theorem drop_mem : ∀ {env : Env}, env ∈ F.envs → ∀ d < env.length, env.drop d ∈ F.envs
  | env, he, 0, _ => he
  | env, he, d + 1, hd => by
    obtain ⟨f, hf⟩ := List.mem_iff_getElem?.mp he
    obtain ⟨rest, rfl, hrest⟩ := h.outer f env hf
    rcases hrest with rfl | hrest
    · simp at hd
    · exact drop_mem hrest d (Nat.lt_of_succ_lt_succ hd)

theorem ancestor?_eq (he : env ∈ F.envs) (d : Nat) :
    F.ancestor? env d = if d < env.length then some (env.drop d) else none := by
  split
  · rename_i hd
    obtain ⟨f, hf⟩ := List.mem_iff_getElem?.mp (h.drop_mem he d hd)
    obtain ⟨rest, hdrop, -⟩ := h.outer f _ hf
    have hat : Store.ancestor? env d = some f := by rw [Store.ancestor?, ← List.head?_drop, hdrop, List.head?_cons]
    rw [Forest.ancestor?, hat, Option.bind_some, hf]
  · rename_i hd
    rw [Forest.ancestor?, Store.ancestor?, List.getElem?_eq_none (Nat.le_of_not_lt hd), Option.bind_none]

/-- Links outwards add up. -/
theorem ancestor?_add (he : env ∈ F.envs) (m n : Nat) :
    F.ancestor? env (m + n) = (F.ancestor? env m).bind (F.ancestor? · n) := by
  rw [h.ancestor?_eq he, h.ancestor?_eq he]
  by_cases hm : m < env.length
  · rw [if_pos hm, Option.bind_some, h.ancestor?_eq (h.drop_mem he m hm), List.length_drop, List.drop_drop]
    simp only [show m + n < env.length ↔ n < env.length - m by omega]
  · rw [if_neg hm, if_neg (by omega), Option.bind_none]

/-- Two environments that are the same have the same frame, and the other way round. -/
theorem ancestor?_eq_iff {env' : Env} {d d' : Nat} {f : FrameId} (he : env ∈ F.envs) (he' : env' ∈ F.envs)
    (hf : Store.ancestor? env d = some f) : F.ancestor? env' d' = F.ancestor? env d ↔ Store.ancestor? env' d' = some f := by
  have head : ∀ {e : Env} {n : Nat}, e ∈ F.envs → Store.ancestor? e n = (F.ancestor? e n).bind List.head? := by
    intro e n hmem
    rw [h.ancestor?_eq hmem, Store.ancestor?]
    split
    · rw [Option.bind_some, List.head?_drop]
    · rename_i hn
      rw [List.getElem?_eq_none (Nat.le_of_not_lt hn), Option.bind_none]
  constructor
  · intro hsame
    rw [head he', hsame, ← head he, hf]
  · intro hf'
    rw [Forest.ancestor?, Forest.ancestor?, hf, hf']

end Linked

/-! ## Nested stores -/

/-- The lookups of two names from two environments end in the same environment. -/
def Meet (F : Forest) (env : Env) (x : String) (env' : Env) (y : String) : Prop :=
  ∃ d d', F.store.Finds env x d ∧ F.store.Finds env' y d' ∧ F.ancestor? env d = F.ancestor? env' d'

section
variable {F : Forest} {env : Env} {x : String}

theorem changed_unchanged {o : Option Store} (h : (F.changed o).1 = false) : (F.changed o).2 = F := by
  cases o with
  | none => rfl
  | some s => cases h

/-- A failed operation leaves everything as it is. -/
theorem attempt_failed {op : Operation} (h : (F.attempt op).1 = false) : (F.attempt op).2 = F := by
  cases op with
  | new | child | insert => cases h
  | define | assign | assignAt => exact changed_unchanged h

theorem define_succeeds_iff (hne : env ≠ []) (v : Value) :
    (F.attempt (.define env x v)).1 = true ↔ F.store.readAt env 0 x = none := by
  obtain ⟨f, rest, rfl⟩ := List.exists_cons_of_ne_nil hne
  have hread : F.store.readAt (f :: rest) 0 x = F.store.var? f x := rfl
  simp only [attempt, Store.define, Store.freeSlot?, List.head?_cons, hread]
  cases hv : F.store.var? f x <;> simp [Option.filter, changed, Except.toOption, hv]

theorem assignAt_succeeds_iff (d : Nat) (v : Value) :
    (F.attempt (.assignAt env d x v)).1 = true ↔ (F.store.readAt env d x).isSome := by
  simp only [attempt, Store.writeAt, Store.slotAt?, Store.readAt]
  cases Store.ancestor? env d with
  | none => simp [changed]
  | some f => cases hv : F.store.var? f x <;> simp [Option.filter, changed, hv]

theorem assign_succeeds_iff (v : Value) : (F.attempt (.assign env x v)).1 = true ↔ ∃ u, F.store.read env x = .ok u := by
  simp only [Store.read_eq_ok_iff, attempt, Store.write]
  cases hs : F.store.slot? env x with
  | none => simp [changed, Except.toOption]
  | some f =>
    obtain ⟨d, hd, hat⟩ := Store.slot?_eq_some_iff.mp hs
    have hf : (F.store.var? f x).isSome := Store.readAt_of_ancestor? hat x ▸ hd.1
    simpa [changed, Except.toOption] using Option.isSome_iff_exists.mp hf

end

section
variable {F : Forest} {env : Env} {x : String} {d : Nat} (hd : F.store.Finds env x d)
include hd

theorem Linked.meet_iff {env' : Env} {y : String} {f : FrameId} (h : F.Linked) (he : env ∈ F.envs) (he' : env' ∈ F.envs)
    (hf : Store.ancestor? env d = some f) : F.Meet env x env' y ↔ F.store.slot? env' y = some f := by
  rw [Store.slot?_eq_some_iff]
  constructor
  · rintro ⟨n, d', hn, hd', hsame⟩
    obtain rfl := hd.unique hn
    exact ⟨d', hd', (h.ancestor?_eq_iff he he' hf).mp hsame.symm⟩
  · rintro ⟨d', hd', hf'⟩
    exact ⟨d, d', hd, hd', ((h.ancestor?_eq_iff he he' hf).mpr hf').symm⟩

/-- The walk overwrites what the counted steps overwrite. -/
theorem assign_eq_assignAt (v : Value) : F.attempt (.assign env x v) = F.attempt (.assignAt env d x v) := by
  obtain ⟨f, -, -, hw, hwAt⟩ := hd.write_eq v
  simp only [attempt, hw, hwAt, Except.toOption]

end

/-- A lookup finds what is at the least distance at which there is something to find. An assignment succeeds where a lookup
does, and changes those lookups that end at its variable. What fails changes nothing, and links outwards add up. -/
theorem environments_are_nested_stores {F : Forest} (h : F.Built) {env : Env} (he : env ∈ F.envs) (x : String) :
    (∀ v, F.store.read env x = .ok v ↔ ∃ d, F.store.Finds env x d ∧ F.store.readAt env d x = some v) ∧
      (∀ v, ((F.attempt (.assign env x v)).1 = true ↔ ∃ u, F.store.read env x = .ok u) ∧
        (∀ d, F.store.Finds env x d → F.attempt (.assign env x v) = F.attempt (.assignAt env d x v)) ∧
        ((F.attempt (.assign env x v)).1 = true → ∀ env' ∈ F.envs, ∀ y,
          (F.Meet env x env' y ∧ y = x → (F.attempt (.assign env x v)).2.store.read env' y = .ok v) ∧
          (¬ (F.Meet env x env' y ∧ y = x) →
            (F.attempt (.assign env x v)).2.store.read env' y = F.store.read env' y))) ∧
      (∀ op, (F.attempt op).1 = false → (F.attempt op).2 = F) ∧
      ∀ m n, F.ancestor? env (m + n) = (F.ancestor? env m).bind (F.ancestor? · n) := by
  have hlinked := h.linked
  refine ⟨fun v => Store.read_eq_ok_iff_readAt, fun v => ⟨assign_succeeds_iff v, fun d hd => assign_eq_assignAt hd v, ?_⟩,
    fun op => attempt_failed, hlinked.ancestor?_add he⟩
  intro hok env' he' y
  obtain ⟨u, hu⟩ := (assign_succeeds_iff v).mp hok
  obtain ⟨d, hd, -⟩ := Store.read_eq_ok_iff_readAt.mp hu
  obtain ⟨f, hat, hf, hw, -⟩ := hd.write_eq v
  have hafter : (F.attempt (.assign env x v)).2.store = F.store.setVar f x v := by
    simp only [attempt, hw, Except.toOption, changed]
  have hmeet := hlinked.meet_iff (y := y) hd he he' hat
  rw [hafter, Store.read_setVar hf]
  exact ⟨fun hends => if_pos ⟨hmeet.mp hends.1, hends.2⟩, fun hends => if_neg fun hslot => hends ⟨hmeet.mpr hslot.1, hslot.2⟩⟩

/-- A parent with a variable and two children, one of which has a variable of that name itself. The other one assigns it. -/
theorem assignment_in_shared_parent : ∃ F : Forest, F.Built ∧ F.envs = [[0], [1, 0], [2, 0]] ∧
    F.store.Finds [1, 0] "n" 1 ∧ F.store.Finds [2, 0] "n" 0 ∧
    (F.attempt (.assign [1, 0] "n" (.bool true))).2.store.read [0] "n" = .ok (.bool true) ∧
    (F.attempt (.assign [1, 0] "n" (.bool true))).2.store.read [2, 0] "n" = .ok (.bool false) := by
  have hnew := Built.empty.attempt .new nofun
  have hparent := hnew.attempt (.define [0] "n" .nil) (by rintro _ ⟨⟩; exact .head _)
  have hone := hparent.attempt (.child [0]) (by rintro _ ⟨⟩; exact .head _)
  have htwo := hone.attempt (.child [0]) (by rintro _ ⟨⟩; exact .head _)
  have hF := htwo.attempt (.define [2, 0] "n" (.bool false)) (by rintro _ ⟨⟩; exact .tail _ (.tail _ (.head _)))
  have hfirst : [1, 0] ∈ [[0], [1, 0], [2, 0]] := by decide
  have hassign := (environments_are_nested_stores hF hfirst "n").2.1 (.bool true)
  refine ⟨_, hF, rfl, Store.finds_one rfl rfl, Store.finds_zero rfl, ?_, ?_⟩
  · exact (hassign.2.2 rfl [0] (.head _) "n").1 ⟨⟨1, 0, Store.finds_one rfl rfl, Store.finds_zero rfl, rfl⟩, rfl⟩
  · refine (hassign.2.2 rfl [2, 0] (.tail _ (.tail _ (.head _))) "n").2 fun ⟨⟨d, d', hd, hd', hsame⟩, _⟩ => ?_
    obtain rfl := hd.unique (Store.finds_one rfl rfl)
    obtain rfl := hd'.unique (Store.finds_zero rfl)
    cases hsame

end Forest

end Lox
