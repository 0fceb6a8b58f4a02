import Lox.Proofs.Number.Bits
import Lox.Proofs.Source.Lexemes
import Lox.Proofs.Syntax.Proper
import Lox.Syntax.Fresh

/-!
# Names, numbers and operators of the language

What stands in an expression that is read from a text: names are words and no keywords, numbers have no sign, and operators
are operators. Nothing is said of what is inside lambdas.
-/

namespace Lox

def Name.IsIdentifier (name : Name) : Prop := Lexeme name.text.toList (.identifier name.text)

mutual

def Expr.Scanned : Expr → Prop
  | .literal (.number x) => Number.Unsigned x
  | .literal _ => True
  | .unary op _ operand => op.isUnary = true ∧ operand.Scanned
  | .binary op _ left right => op.isBinary = true ∧ left.Scanned ∧ right.Scanned
  | .logical _ _ left right => left.Scanned ∧ right.Scanned
  | .group inner => inner.Scanned
  | .var _ name => name.IsIdentifier
  | .assign _ name value => name.IsIdentifier ∧ value.Scanned
  | .call callee _ arguments => callee.Scanned ∧ AllScanned arguments
  | .lambda _ _ => True
  | .get object name => object.Scanned ∧ name.IsIdentifier
  | .set object name value => object.Scanned ∧ name.IsIdentifier ∧ value.Scanned
  | .this _ _ => True
  | .super _ _ method => method.IsIdentifier

def AllScanned : List Expr → Prop
  | [] => True
  | e :: es => e.Scanned ∧ AllScanned es

end

mutual

/-- Identities are not looked at. -/
theorem Expr.Scanned.fresh : ∀ {e : Expr} (_ : e.Scanned) (next : NodeId), (e.fresh next).1.Scanned
  | .literal _, h, _ => h
  | .unary _ _ _, h, next => ⟨h.1, h.2.fresh next⟩
  | .binary _ _ _ _, h, next => ⟨h.1, h.2.1.fresh next, h.2.2.fresh _⟩
  | .logical _ _ _ _, h, next => ⟨h.1.fresh next, h.2.fresh _⟩
  | .group inner, h, next => Expr.Scanned.fresh (e := inner) h next
  | .var _ _, h, _ => h
  | .assign _ _ _, h, next => ⟨h.1, h.2.fresh next⟩
  | .call _ _ _, h, next => ⟨h.1.fresh next, AllScanned.fresh h.2 _⟩
  | .lambda _ _, _, _ => trivial
  | .get _ _, h, next => ⟨h.1.fresh next, h.2⟩
  | .set _ _ _, h, next => ⟨h.1.fresh next, h.2.1, h.2.2.fresh _⟩
  | .this _ _, _, _ => trivial
  | .super _ _ _, h, _ => h

theorem AllScanned.fresh : ∀ {es : List Expr} (_ : AllScanned es) (next : NodeId), AllScanned (freshExprs es next).1
  | [], _, _ => trivial
  | _ :: _, h, next => ⟨h.1.fresh next, AllScanned.fresh h.2 _⟩

end

end Lox
