import Lox.Syntax.Basic
import Lox.Number.Text
import Lox.Text.Quoted

/-!
# Outlines

A program as nested lists on one line, with the lines of its nodes and the depths at which its
variables are bound. The shape of an outline shows what the grammar made of the source.
-/

namespace Lox

/-- A list with a head. -/
def nested (head : String) (parts : List String) : String :=
  "(" ++ " ".intercalate (head :: parts) ++ ")"

def Literal.outline : Literal → String
  | .nil => "nil"
  | .bool true => "true"
  | .bool false => "false"
  | .number x => nested "num" [Number.Form.value.text x]
  | .string s => nested "str" [Quoted.json s]

section
variable (depth : NodeId → String)

mutual

/-- `depth` shows where a variable is bound. -/
def Expr.outline : Expr → String
  | .literal value => value.outline
  | .unary op line operand => nested "unary" [op.spelling, toString line, operand.outline]
  | .binary op line left right => nested "binary" [op.spelling, toString line, left.outline, right.outline]
  | .logical op line left right => nested "logical" [op.symbol, toString line, left.outline, right.outline]
  | .group inner => nested "group" [inner.outline]
  | .var id name => nested "var" [name.text, toString name.line, depth id]
  | .assign id name value => nested "assign" [name.text, toString name.line, depth id, value.outline]
  | .call callee line arguments => nested "call" (toString line :: callee.outline :: outlineExprs arguments)
  | .lambda line routine => nested "fun" ("lambda" :: toString line :: routine.outline)
  | .get object name => nested "get" [name.text, toString name.line, object.outline]
  | .set object name value => nested "set" [name.text, toString name.line, object.outline, value.outline]
  | .this id line => nested "this" [toString line, depth id]
  | .super id line method => nested "super" [method.text, toString line, depth id]

def outlineExprs : List Expr → List String
  | [] => []
  | e :: es => e.outline :: outlineExprs es

def Stmt.outline : Stmt → String
  | .expr e => nested "expr" [e.outline]
  | .print e => nested "print" [e.outline]
  | .varDecl name none => nested "vardecl" [name.text, toString name.line]
  | .varDecl name (some e) => nested "vardecl" [name.text, toString name.line, e.outline]
  | .block body => nested "block" (outlineStmts body)
  | .branch condition thenBranch none => nested "if" [condition.outline, thenBranch.outline]
  | .branch condition thenBranch (some elseBranch) =>
    nested "if" [condition.outline, thenBranch.outline, elseBranch.outline]
  | .loop condition body => nested "while" [condition.outline, body.outline]
  | .funDecl name routine => nested "fun" (name.text :: toString name.line :: routine.outline)
  | .returns form line none => nested "return" [form.symbol, toString line]
  | .returns form line (some e) => nested "return" [form.symbol, toString line, e.outline]
  | .breaks line => nested "break" [toString line]
  | .classDecl name none methods statics =>
    nested "class" (name.text :: toString name.line ::
      (outlineMethods "method" "getter" methods ++ outlineMethods "static" "static-getter" statics))
  | .classDecl name (some ref) methods statics =>
    nested "class" (name.text :: toString name.line ::
      nested "extends" [nested "var" [ref.name.text, toString ref.name.line, depth ref.id]] ::
      (outlineMethods "method" "getter" methods ++ outlineMethods "static" "static-getter" statics))

def outlineStmts : List Stmt → List String
  | [] => []
  | st :: sts => st.outline :: outlineStmts sts

/-- The parameters, then the statements of the body. -/
def Routine.outline : Routine → List String
  | ⟨params, body⟩ => ("(" ++ " ".intercalate (params.map Name.text) ++ ")") :: outlineStmts body

def Method.outline (method getter : String) : Method → String
  | ⟨name, isGetter, routine⟩ =>
    nested (if isGetter then getter else method) (name.text :: toString name.line :: routine.outline)

def outlineMethods (method getter : String) : List Method → List String
  | [] => []
  | m :: ms => m.outline method getter :: outlineMethods method getter ms

end

end

end Lox
