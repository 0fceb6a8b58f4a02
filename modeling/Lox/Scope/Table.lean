import Lox.Syntax.Basic

/-!
# Binding tables

How many scopes lie between an occurrence of a variable and the scope that declares it. Identities
are handed out one after the other, so the depths stand in an array. An occurrence without an entry
means a global variable.
-/

namespace Lox

structure BindingTable where
  depths : Array (Option Nat)
deriving DecidableEq

namespace BindingTable

def empty : BindingTable := ⟨#[]⟩

def get? (t : BindingTable) (id : NodeId) : Option Nat := t.depths[id]?.join

def insert (t : BindingTable) (id : NodeId) (depth : Nat) : BindingTable :=
  if h : id < t.depths.size then ⟨t.depths.set id (some depth) h⟩
  else ⟨(t.depths ++ Array.replicate (id - t.depths.size) none).push (some depth)⟩

/-- The number of occurrences with an entry. -/
def size (t : BindingTable) : Nat := t.depths.countP Option.isSome

/-- Both tables in one; where both have an entry, the later one counts. -/
def merge (t later : BindingTable) : BindingTable :=
  ⟨Array.ofFn fun i : Fin (max t.depths.size later.depths.size) => (later.get? i).or (t.get? i)⟩

@[simp] theorem get?_empty (id : NodeId) : empty.get? id = none := rfl

theorem get?_merge (t later : BindingTable) (id : NodeId) :
    (t.merge later).get? id = (later.get? id).or (t.get? id) := by
  by_cases h : id < max t.depths.size later.depths.size
  · simp [merge, get?, h]
  · have h₁ : ¬ id < t.depths.size := fun h' => h (Nat.lt_of_lt_of_le h' (Nat.le_max_left ..))
    have h₂ : ¬ id < later.depths.size := fun h' => h (Nat.lt_of_lt_of_le h' (Nat.le_max_right ..))
    simp [merge, get?, h, h₁, h₂]

end BindingTable

end Lox
