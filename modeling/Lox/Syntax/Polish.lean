import Lox.Syntax.Basic
import Lox.Number.Text

/-!
# Expressions in Polish notation

Two one-line forms of an expression: operators first in parentheses, and operators last. The
bodies of lambdas are not shown.
-/

namespace Lox

/-- The text of a literal, with numbers in the given form. -/
def Literal.text (form : Number.Form) : Literal → String
  | .nil => "nil"
  | .bool true => "true"
  | .bool false => "false"
  | .number x => form.text x
  | .string s => s

mutual

/-- Operators first: `(* (- 1.0) (group x))`. -/
def Expr.polish : Expr → String
  | .literal value => value.text .literal
  | .unary op _ operand => "(" ++ op.spelling ++ " " ++ operand.polish ++ ")"
  | .binary op _ left right => "(" ++ op.spelling ++ " " ++ left.polish ++ " " ++ right.polish ++ ")"
  | .logical op _ left right => "(" ++ op.symbol ++ " " ++ left.polish ++ " " ++ right.polish ++ ")"
  | .group inner => "(group " ++ inner.polish ++ ")"
  | .var _ name => name.text
  | .assign _ name value => "(= " ++ name.text ++ " " ++ value.polish ++ ")"
  | .call callee _ arguments => "(call " ++ callee.polish ++ polishArguments arguments ++ ")"
  | .lambda _ routine => "(fun (" ++ " ".intercalate (routine.params.map Name.text) ++ "))"
  | .get object name => "(. " ++ object.polish ++ " " ++ name.text ++ ")"
  | .set object name value =>
    "(= (. " ++ object.polish ++ " " ++ name.text ++ ") " ++ value.polish ++ ")"
  | .this _ _ => "this"
  | .super _ _ method => "(super " ++ method.text ++ ")"

def polishArguments : List Expr → String
  | [] => ""
  | e :: es => " " ++ e.polish ++ polishArguments es

end

mutual

/-- Operators last: `1 - (x) *`. A call's arguments stand before its callee. -/
def Expr.reversePolish : Expr → String
  | .literal value => value.text .value
  | .unary op _ operand => operand.reversePolish ++ " " ++ op.spelling
  | .binary op _ left right => left.reversePolish ++ " " ++ right.reversePolish ++ " " ++ op.spelling
  | .logical op _ left right => left.reversePolish ++ " " ++ right.reversePolish ++ " " ++ op.symbol
  | .group inner => "(" ++ inner.reversePolish ++ ")"
  | .var _ name => name.text
  | .assign _ name value => value.reversePolish ++ " " ++ name.text ++ " ="
  | .call callee _ arguments =>
    reversePolishArguments arguments ++ callee.reversePolish ++ " call/" ++ toString arguments.length
  | .lambda _ routine => "<fn/" ++ toString routine.arity ++ ">"
  | .get object name => object.reversePolish ++ " " ++ name.text ++ " ."
  | .set object name value =>
    object.reversePolish ++ " " ++ value.reversePolish ++ " " ++ name.text ++ " .="
  | .this _ _ => "this"
  | .super _ _ method => "super " ++ method.text ++ " ."

def reversePolishArguments : List Expr → String
  | [] => ""
  | e :: es => e.reversePolish ++ " " ++ reversePolishArguments es

end

end Lox
