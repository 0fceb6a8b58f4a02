import Lox.Diagnostic
import Lox.Syntax.Basic

/-!
# Trees on other lines

The same code with every line in it replaced. Identities stay.
-/

namespace Lox

variable (f : Nat → Nat)

def Name.relined (name : Name) : Name := { name with line := f name.line }

def Reference.relined (ref : Reference) : Reference := { ref with name := ref.name.relined f }

def Token.relined (t : Token) : Token := { t with line := f t.line }

def Site.relined : Site → Site
  | .lexeme text line => .lexeme text (f line)
  | .endOfInput line => .endOfInput (f line)

def Error.relined : Error → Error
  | .lexical line fault => .lexical (f line) fault
  | .syntactic site fault => .syntactic (site.relined f) fault
  | .scoping site fault => .scoping (site.relined f) fault
  | .runtime line fault => .runtime (f line) fault
  | .output fault => .output fault

def Warning.relined (w : Warning) : Warning := { w with line := f w.line }

mutual

def Expr.relined : Expr → Expr
  | .literal value => .literal value
  | .unary op line operand => .unary op (f line) operand.relined
  | .binary op line left right => .binary op (f line) left.relined right.relined
  | .logical op line left right => .logical op (f line) left.relined right.relined
  | .group inner => .group inner.relined
  | .var id name => .var id (name.relined f)
  | .assign id name value => .assign id (name.relined f) value.relined
  | .call callee line arguments => .call callee.relined (f line) (relinedExprs arguments)
  | .lambda line routine => .lambda (f line) routine.relined
  | .get object name => .get object.relined (name.relined f)
  | .set object name value => .set object.relined (name.relined f) value.relined
  | .this id line => .this id (f line)
  | .super id line method => .super id (f line) (method.relined f)

def relinedExprs : List Expr → List Expr
  | [] => []
  | e :: es => e.relined :: relinedExprs es

def Stmt.relined : Stmt → Stmt
  | .expr e => .expr e.relined
  | .print e => .print e.relined
  | .varDecl name none => .varDecl (name.relined f) none
  | .varDecl name (some e) => .varDecl (name.relined f) (some e.relined)
  | .block body => .block (relinedStmts body)
  | .branch condition thenBranch none => .branch condition.relined thenBranch.relined none
  | .branch condition thenBranch (some elseBranch) =>
    .branch condition.relined thenBranch.relined (some elseBranch.relined)
  | .loop condition body => .loop condition.relined body.relined
  | .funDecl name routine => .funDecl (name.relined f) routine.relined
  | .returns form line none => .returns form (f line) none
  | .returns form line (some e) => .returns form (f line) (some e.relined)
  | .breaks line => .breaks (f line)
  | .classDecl name superclass methods statics =>
    .classDecl (name.relined f) (superclass.map (Reference.relined f)) (relinedMethods methods) (relinedMethods statics)

def relinedStmts : List Stmt → List Stmt
  | [] => []
  | st :: sts => st.relined :: relinedStmts sts

def Routine.relined : Routine → Routine
  | ⟨params, body⟩ => ⟨params.map (Name.relined f), relinedStmts body⟩

def Method.relined : Method → Method
  | ⟨name, isGetter, routine⟩ => ⟨name.relined f, isGetter, routine.relined⟩

def relinedMethods : List Method → List Method
  | [] => []
  | m :: ms => m.relined :: relinedMethods ms

end

end Lox
