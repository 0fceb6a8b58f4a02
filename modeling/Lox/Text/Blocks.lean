/-!
# Blocks of code points

A property of characters as a list of closed blocks of code points. Ordered blocks are in ascending
order with a gap between neighbours, so there is only one such list for a property.
-/

namespace Lox

abbrev Blocks := List (Nat × Nat)

namespace Blocks

def contains (blocks : Blocks) (n : Nat) : Bool := blocks.any fun (low, high) => low ≤ n && n ≤ high

/-- No block is empty, and each one starts after a gap. -/
def Ordered : Blocks → Prop
  | [] => True
  | [(low, high)] => low ≤ high
  | (low, high) :: (low', high') :: rest => low ≤ high ∧ high + 1 < low' ∧ Ordered ((low', high') :: rest)

instance decidableOrdered : (blocks : Blocks) → Decidable blocks.Ordered
  | [] => isTrue trivial
  | [(low, high)] => inferInstanceAs (Decidable (low ≤ high))
  | (low, high) :: (low', high') :: rest =>
    have := decidableOrdered ((low', high') :: rest)
    inferInstanceAs (Decidable (low ≤ high ∧ high + 1 < low' ∧ Ordered ((low', high') :: rest)))

end Blocks

end Lox
