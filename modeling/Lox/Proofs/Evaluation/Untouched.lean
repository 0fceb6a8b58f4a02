import Lox.Session
import Lox.Proofs.Evaluation.Order
import Lox.Proofs.Evaluation.Spared

/-!
# Calls leave unreachable state alone

A call changes no frame and no instance that was there before it and that cannot be reached from the global frame, the callee or
the arguments, whatever the call ends in. So two closures do not see each other's variables change, unless one reaches the frame
of the other. What can be reached is computed with a list of cells that no value in them leads out of.
-/

namespace Lox

/-- The global frame, and what the values of a call mention. -/
def CallRoots (callee : Value) (arguments : List Value) (cell : Cell) : Prop :=
  cell = .frame 0 ∨ callee.Mentions cell ∨ ∃ v ∈ arguments, v.Mentions cell

/-- Of the cells that were there, those that cannot be reached from the roots are as they were. -/
structure Machine.Untouched (roots : Cell → Prop) (m m' : Machine) : Prop where
  frames : ∀ f, f < m.store.frames.size → ¬ m.store.Reach roots (.frame f) → m'.store.frames[f]? = m.store.frames[f]?
  objects : ∀ i, i < m.store.fields.size → ¬ m.store.Reach roots (.object i) → m'.store.fields[i]? = m.store.fields[i]?
  /-- A closure finds the same in a frame that it has captured. -/
  captured : ∀ (c : Closure) d x, (∀ f ∈ c.env[d]?, f < m.store.frames.size ∧ ¬ m.store.Reach roots (.frame f)) →
    m'.store.readAt c.env d x = m.store.readAt c.env d x
  /-- An instance has the same fields. -/
  fields : ∀ (i : Instance) x, i.id < m.store.fields.size → ¬ m.store.Reach roots (.object i.id) →
    m'.store.field? i x = m.store.field? i x

/-! ## The territory of a call -/

section
variable {s : Store} {roots : Cell → Prop}

def Store.Has (s : Store) : Cell → Prop
  | .frame f => f < s.frames.size
  | .object i => i < s.fields.size

/-- Cells that can be reached, and cells that are still to be made. -/
def Store.territory (s : Store) (roots : Cell → Prop) (cell : Cell) : Prop := s.Reach roots cell ∨ ¬ s.Has cell

theorem Store.closed_territory (h : roots (.frame 0)) : s.Closed (s.territory roots) where
  global := .inl (.root h)
  vars f x v hf hv cell hm := by
    have hr : s.Reach roots (.frame f) := hf.resolve_right fun hn => hn (Store.lt_of_var? hv)
    exact .inl (.var hr hv hm)
  fields i x v hi hv cell hm := by
    have hlt : i.id < s.fields.size := by
      obtain ⟨d, hd, -⟩ := Option.bind_eq_some_iff.mp hv
      exact (Array.getElem?_eq_some_iff.mp hd).1
    have hr : s.Reach roots (.object i.id) := hi.resolve_right fun hn => hn hlt
    exact .inl (.field hr hv hm)
  newFrames f hle := .inr (Nat.not_lt.mpr hle)
  newObjects i hle := .inr (Nat.not_lt.mpr hle)

theorem Machine.untouched_of_spares {m m' : Machine} (h : m.store.Spares (m.store.territory roots) m'.store) :
    m.Untouched roots m' := by
  have outside : ∀ {cell}, m.store.Has cell → ¬ m.store.Reach roots cell → ¬ m.store.territory roots cell :=
    fun hhas hr hk => hk.elim hr fun hn => hn hhas
  refine ⟨fun f hf hr => h.frames f (outside hf hr), fun i hi hr => h.fields i (outside hi hr), fun c d x hc => ?_,
    fun i x hi hr => ?_⟩
  · unfold Store.readAt Store.ancestor?
    cases hf : c.env[d]? with
    | none => rfl
    | some f =>
      obtain ⟨hlt, hr⟩ := hc f hf
      simp only [Option.bind_some, Store.var?, Store.frame?, h.frames f (outside hlt hr)]
  · simp only [Store.field?, h.fields i.id (outside hi hr)]

end

/-- Whatever a call ends in, it has not touched what was out of its reach. -/
theorem call_leaves_unreachable_untouched (fuel : Nat) (callee : Value) (arguments : List Value) (line : Nat)
    {m m' : Machine} (h : (Eval.call fuel callee arguments line m).EndsIn m') :
    m.Untouched (CallRoots callee arguments) m' := by
  have hinside : (Activity.call callee arguments line).Inside (m.store.territory (CallRoots callee arguments)) :=
    ⟨fun _ hm => .inl (.root (.inr (.inl hm))), fun v hv _ hm => .inl (.root (.inr (.inr ⟨v, hv, hm⟩)))⟩
  have hstays := Eval.stays_inside _ fuel _ hinside m (Store.closed_territory (.inl rfl)) False.elim
  refine Machine.untouched_of_spares ?_
  change (Eval.call fuel callee arguments line m).After _ _ m at hstays
  cases ho : Eval.call fuel callee arguments line m with
  | exhausted => rw [ho] at h; exact h.elim
  | failed e m₁ => rw [ho] at h hstays; cases h; exact hstays.spares
  | done v m₁ => rw [ho] at h hstays; cases h; exact hstays.1.spares

/-! ## Reachable cells -/

def FunctionObject.cells (f : FunctionObject) : List Cell := f.closure.env.map .frame

def Class.cells (c : Class) : List Cell :=
  c.lineage.flatMap fun layer => (layer.methods.entries ++ layer.statics.entries).flatMap fun e => e.2.cells

def Instance.cells (i : Instance) : List Cell := .object i.id :: i.cls.cells

/-- The cells that the value mentions. -/
def Value.cells : Value → List Cell
  | .function f => f.cells
  | .klass c => c.cells
  | .bound m => m.receiver.cells ++ m.method.env.map .frame
  | .object i => i.cells
  | _ => []

/-- The values in the cell. -/
def Store.values (s : Store) : Cell → List Value
  | .frame f => ((s.frames[f]?).map fun d => d.entries.map Prod.snd).getD []
  | .object i => ((s.fields[i]?).map fun d => d.entries.map Prod.snd).getD []

theorem Dict.mem_entries_of_get? {α : Type} {x : String} {a : α} : ∀ {d : Dict α}, d.get? x = some a → (x, a) ∈ d.entries
  | (y, b) :: rest, h => by
    rw [Dict.get?] at h
    split at h
    · rename_i hy
      cases h
      exact hy ▸ .head _
    · exact .tail _ (mem_entries_of_get? h)

theorem Value.Mentions.mem_cells {v : Value} {cell : Cell} (h : v.Mentions cell) : cell ∈ v.cells := by
  induction h with
  | function hg => exact List.mem_map_of_mem hg
  | method hl hf hg =>
    exact List.mem_flatMap.mpr ⟨_, hl, List.mem_flatMap.mpr ⟨_, List.mem_append_left _ (Dict.mem_entries_of_get? hf),
      List.mem_map_of_mem hg⟩⟩
  | static hl hf hg =>
    exact List.mem_flatMap.mpr ⟨_, hl, List.mem_flatMap.mpr ⟨_, List.mem_append_right _ (Dict.mem_entries_of_get? hf),
      List.mem_map_of_mem hg⟩⟩
  | object => exact .head _
  | cls _ ih => exact .tail _ ih
  | receiver _ ih => exact List.mem_append_left _ ih
  | bound hg => exact List.mem_append_right _ (List.mem_map_of_mem hg)

/-- What can be reached is among the cells, if the roots are and all that the values in the cells mention. -/
theorem Store.Reach.mem {s : Store} {roots : Cell → Prop} {cells : List Cell} (hroots : ∀ cell, roots cell → cell ∈ cells)
    (hclosed : ∀ cell ∈ cells, ∀ v ∈ s.values cell, ∀ next ∈ v.cells, next ∈ cells) {cell : Cell}
    (h : s.Reach roots cell) : cell ∈ cells := by
  induction h with
  | root h => exact hroots _ h
  | @var f x v _ _ hv hm ih =>
    obtain ⟨d, hd, hv⟩ := Option.bind_eq_some_iff.mp hv
    refine hclosed _ ih v ?_ _ hm.mem_cells
    rw [Store.values, show s.frames[f]? = some d from hd]
    exact List.mem_map_of_mem (Dict.mem_entries_of_get? hv)
  | @field i x v _ _ hv hm ih =>
    obtain ⟨d, hd, hv⟩ := Option.bind_eq_some_iff.mp hv
    refine hclosed _ ih v ?_ _ hm.mem_cells
    rw [Store.values, hd]
    exact List.mem_map_of_mem (Dict.mem_entries_of_get? hv)

/-- A session in which two activations of one function have made a closure each, and the two closures. -/
def twoActivations : Option (Session × FunctionObject × FunctionObject) := do
  let source := "fun make(kept) { fun swap(next) { var last = kept; kept = next; return last; } return swap; }"
  let (_, s) ← (Session.start (.start (.ofBytes []) .unlimited 0)).run 40 source
  let make ← s.machine.global? "make"
  let (.ok (.function f), s) ← s.call 40 make [.string "a"] 1 | none
  let (.ok (.function g), s) ← s.call 40 make [.string "b"] 1 | none
  return (s, f, g)

/-- The call of one closure changes what it has captured itself. The frame of the other one is none of the two that it reaches. -/
theorem other_activation_is_untouched :
    ∃ s f g m', twoActivations = some (s, f, g) ∧
      (Eval.call 40 (.function f) [.string "c"] 1 s.machine).EndsIn m' ∧
      s.machine.Untouched (CallRoots (.function f) [.string "c"]) m' ∧
      (m'.store.readAt f.closure.env 0 "kept").map Value.text = some "c" ∧
      (m'.store.readAt g.closure.env 0 "kept").map Value.text = some "b" := by
  obtain ⟨⟨s, f, g⟩, hmade⟩ := Option.isSome_iff_exists.mp (by decide +kernel : twoActivations.isSome)
  have hcall : twoActivations.all fun p => match Eval.call 40 (.function p.2.1) [.string "c"] 1 p.1.machine with
      | .done _ m' => (m'.store.readAt p.2.1.closure.env 0 "kept").map Value.text = some "c"
      | _ => false := by decide +kernel
  have hcells : twoActivations.all fun p => (Value.function p.2.1).cells = [.frame 1, .frame 0] ∧
      ∀ cell ∈ [Cell.frame 1, .frame 0], ∀ v ∈ p.1.machine.store.values cell, ∀ next ∈ v.cells,
        next ∈ [Cell.frame 1, .frame 0] := by decide +kernel
  have hother : twoActivations.all fun p => p.2.2.closure.env[0]? = some 2 ∧ 2 < p.1.machine.store.frames.size ∧
      (p.1.machine.store.readAt p.2.2.closure.env 0 "kept").map Value.text = some "b" := by decide +kernel
  rw [hmade, Option.all_some] at hcall hcells hother
  obtain ⟨hf, hclosed⟩ := of_decide_eq_true hcells
  obtain ⟨henv, hsize, hkept⟩ := of_decide_eq_true hother
  cases ho : Eval.call 40 (.function f) [.string "c"] 1 s.machine with
  | exhausted => rw [ho] at hcall; cases hcall
  | failed e m' => rw [ho] at hcall; cases hcall
  | done v m' =>
    rw [ho] at hcall
    have hends : (Eval.call 40 (.function f) [.string "c"] 1 s.machine).EndsIn m' := by rw [ho]; rfl
    have huntouched := call_leaves_unreachable_untouched 40 (.function f) [.string "c"] 1 hends
    refine ⟨s, f, g, m', hmade, hends, huntouched, of_decide_eq_true hcall, ?_⟩
    rw [huntouched.captured g.closure 0 "kept" ?_, hkept]
    intro frame hframe
    obtain rfl : 2 = frame := Option.some.inj (henv.symm.trans hframe)
    refine ⟨hsize, fun hr => absurd (Store.Reach.mem ?_ hclosed hr) (by decide)⟩
    rintro cell (rfl | hm | ⟨v, hv, hm⟩)
    · exact .tail _ (.head _)
    · exact hf ▸ hm.mem_cells
    · obtain rfl := List.mem_singleton.mp hv
      cases hm

end Lox
