import Lox.Proofs.Syntax.Fits
import Lox.Syntax.Operators

/-!
# Trees in their places

A tree that is written with given tokens and fits, as a rule of the grammar reads it: an expression of at least some
strength, a statement that may be a branch, the body of a function, the members of a class.
-/

namespace Lox

open Token (Kind)

section
variable (short : Prop)

/-- The expression is written so, and may stand where expressions of this strength may. -/
structure Expr.Spelled (rank : Nat) (e : Expr) (ks : List Kind) : Prop where
  written : e.Written ks
  fits : e.Fits short
  rank : rank ≤ e.rank

/-- The statement is written so, and may be a branch of another one. No `else` comes next that would belong to it. -/
structure Stmt.Spelled (st : Stmt) (ks rest : List Kind) : Prop where
  written : st.Written ks
  fits : st.Fits short
  inner : st.isDeclaration = false
  closed : st.endsOpen = true → rest.head? ≠ some (.keyword .else)

/-- The members of a class are written so, in one order or another. -/
def MembersSpelled (methods statics : List Method) (ks : List Kind) : Prop :=
  ∃ ms ss members, ks = members.flatten ∧ WrittenMethods methods ms ∧ WrittenMethods statics ss ∧
    Interleaves ms (ss.map (.keyword .klass :: ·)) members ∧ FitsMethods short methods ∧ FitsMethods short statics

end

variable {short : Prop}

theorem Expr.Spelled.weaken {m n : Nat} {e : Expr} {ks : List Kind} (h : e.Spelled short n ks) (hmn : m ≤ n) :
    e.Spelled short m ks :=
  ⟨h.written, h.fits, Nat.le_trans hmn h.rank⟩

/-! ## Operators between two operands -/

theorem Connective.at?_eq_some {level : Nat} {kind : Kind} {c : Connective} :
    at? level kind = some c ↔ ofKind? kind = some (level, c) := by
  unfold at?
  cases ofKind? kind with
  | none => exact ⟨nofun, nofun⟩
  | some found =>
    obtain ⟨l, c'⟩ := found
    by_cases hl : l = level <;> simp [hl]

/-- The level of an operator is its strength. -/
theorem Connective.spelled {level line : Nat} {kind : Kind} {c : Connective} (h : at? level kind = some c)
    {left right : Expr} {kl kr : List Kind} (hl : left.Spelled short (level + 1) kl) (hr : right.Spelled short (level + 2) kr) :
    (c.join line left right).Spelled short (level + 1) (kl ++ kind :: kr) := by
  have hk := at?_eq_some.mp h
  unfold ofKind? at hk
  split at hk
  all_goals cases hk
  · exact ⟨⟨kl, kr, rfl, hl.written, hr.written⟩, ⟨hl.rank, hr.rank, hl.fits, hr.fits⟩, Nat.le_refl _⟩
  · exact ⟨⟨kl, kr, rfl, hl.written, hr.written⟩, ⟨hl.rank, hr.rank, hl.fits, hr.fits⟩, Nat.le_refl _⟩
  all_goals exact ⟨⟨kl, kr, rfl, hl.written, hr.written⟩, ⟨by decide, hl.rank, hr.rank, hl.fits, hr.fits⟩, Nat.le_refl _⟩

end Lox
