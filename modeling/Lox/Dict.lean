/-!
# Entries by name

Names with one entry each, in the order in which the names were first entered.
-/

namespace Lox

def Dict (α : Type) : Type := List (String × α)

namespace Dict

section
variable {α : Type}

def empty : Dict α := []

def entries (d : Dict α) : List (String × α) := d

def names (d : Dict α) : List String := d.entries.map Prod.fst

def get? : Dict α → (name : String) → Option α
  | [], _ => none
  | (n, a) :: rest, name => if n = name then some a else get? rest name

def contains (d : Dict α) (name : String) : Bool := (d.get? name).isSome

/-- Replaces the entry of the name, or enters it last. -/
def insert : Dict α → (name : String) → (a : α) → Dict α
  | [], name, a => [(name, a)]
  | (n, b) :: rest, name, a => if n = name then (n, a) :: rest else (n, b) :: insert rest name a

@[simp] theorem get?_empty (name : String) : (empty : Dict α).get? name = none := rfl

@[simp] theorem get?_insert_self (d : Dict α) (name : String) (a : α) : (d.insert name a).get? name = some a := by
  induction d with
  | nil => simp [insert, get?]
  | cons e rest ih =>
    by_cases h : e.1 = name
    · simp [insert, get?, h]
    · simpa [insert, get?, h] using ih

theorem get?_insert_of_ne (d : Dict α) {m name : String} (h : m ≠ name) (a : α) :
    (d.insert name a).get? m = d.get? m := by
  induction d with
  | nil => simp [insert, get?, Ne.symm h]
  | cons e rest ih =>
    by_cases hn : e.1 = name
    · have : e.1 ≠ m := fun hm => h (hm.symm.trans hn)
      simp [insert, get?, hn, Ne.symm h]
    · by_cases hm : e.1 = m
      · simp [insert, get?, hm, h]
      · simpa [insert, get?, hn, hm] using ih

theorem get?_insert (d : Dict α) (m name : String) (a : α) :
    (d.insert name a).get? m = if m = name then some a else d.get? m := by
  split
  · rename_i h; rw [h, get?_insert_self]
  · rename_i h; exact get?_insert_of_ne d h a

end

end Dict

end Lox
