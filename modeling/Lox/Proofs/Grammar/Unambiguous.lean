import Lox.Proofs.Grammar.Scanned
import Lox.Proofs.Syntax.Decoded

/-!
# The prefix form is unambiguous

Expressions that are read from texts have the same prefix form if they are the same but for lines and identities, and only
then, unless there are lambdas, strings or infinite numbers in them.
-/

namespace Lox

/-- There is a text that is read as this expression without an error. -/
def Expr.IsRead (e : Expr) : Prop :=
  ∃ source firstId nextId, errorsOf (Item.ofSource source) = [] ∧
    parseExpression (tokensOf (Item.ofSource source)) firstId = { tree := some e, errors := [], nextId }

theorem Expr.IsRead.scanned {e : Expr} (h : e.IsRead) : e.Scanned := by
  obtain ⟨source, firstId, nextId, -, hparse⟩ := h
  have htree : (parseExpression (tokensOf (Item.ofSource source)) firstId).tree = some e := by rw [hparse]
  exact scanned_of_parseExpression htree

theorem Expr.Alike.polish_eq {e e' : Expr} (h : e.Alike e') : e.polish = e'.polish := by
  rw [← e.polish_recoded .blank, h, e'.polish_recoded]

/-- The prefix form tells what was read. -/
theorem prefix_form_is_unambiguous {e e' : Expr} (h : e.IsRead) (h' : e'.IsRead) (hs : e.Shown) (hs' : e'.Shown) :
    e.polish = e'.polish ↔ e.Alike e' :=
  ⟨Expr.alike_of_polish_eq h.scanned h'.scanned hs hs', Expr.Alike.polish_eq⟩

/-- A property that is set in one step, or in two lines with another identity and another numeral. -/
theorem prefix_form_of_updated_property :
    (Expr.set (.var 0 ⟨"a", 1⟩) ⟨"b", 1⟩ (.binary .minus 1 (.get (.var 1 ⟨"a", 1⟩) ⟨"b", 1⟩) (.literal (.number 1)))).Alike
      (.set (.var 7 ⟨"a", 1⟩) ⟨"b", 1⟩ (.binary .minus 2 (.get (.var 8 ⟨"a", 1⟩) ⟨"b", 1⟩) (.literal (.number 1)))) := by
  have hfinite : ∀ negative, Number.read 1 ≠ .infinite negative := by
    intro negative
    rw [Number.read_one]
    exact nofun
  refine (prefix_form_is_unambiguous ?_ ?_ ?_ ?_).mp rfl
  · have htokens : tokensOf (Item.ofSource "--a.b") = [⟨.mark .minusMinus, 1⟩, ⟨.identifier "a", 1⟩, ⟨.mark .dot, 1⟩,
        ⟨.identifier "b", 1⟩, ⟨.eof, 1⟩] := by decide +kernel
    exact ⟨"--a.b", 0, 2, by decide +kernel, by rw [htokens]; rfl⟩
  · have htokens : tokensOf (Item.ofSource "a.b = a.b\n- 1.0") = [⟨.identifier "a", 1⟩, ⟨.mark .dot, 1⟩, ⟨.identifier "b", 1⟩,
        ⟨.mark .equal, 1⟩, ⟨.identifier "a", 1⟩, ⟨.mark .dot, 1⟩, ⟨.identifier "b", 1⟩, ⟨.mark .minus, 2⟩,
        ⟨.number "1.0" 1, 2⟩, ⟨.eof, 2⟩] := by decide +kernel
    exact ⟨"a.b = a.b\n- 1.0", 7, 9, by decide +kernel, by rw [htokens]; rfl⟩
  · exact ⟨trivial, trivial, hfinite⟩
  · exact ⟨trivial, trivial, hfinite⟩

end Lox
