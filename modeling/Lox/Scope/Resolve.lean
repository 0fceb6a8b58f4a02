import Lox.Dict
import Lox.Diagnostic
import Lox.Scope.Table

/-!
# Resolving names

One walk over a program finds the scope that declares each occurrence of a variable, reports what
breaks the rules of scopes, and warns of local variables that are never used. The walk goes on
after every finding. Global variables are in no scope: any name may mean one.
-/

namespace Lox

/-- A local variable. -/
structure Local where
  /-- Its initializer is over. -/
  isDefined : Bool
  isUsed : Bool
  line : Nat
deriving DecidableEq, Repr

abbrev Scope := Dict Local

/-- The innermost body that code stands in. -/
inductive BodyKind where
  | program | function | initializer
deriving DecidableEq, Repr

/-- The innermost class that code stands in. -/
inductive ClassKind where
  | none | root | derived
deriving DecidableEq, Repr

/-- What surrounds a piece of code. -/
structure Context where
  body : BodyKind := .program
  classKind : ClassKind := .none
  inStatic : Bool := false
  inLoop : Bool := false
deriving DecidableEq, Repr

/-- A loop around a function is no loop for its body. -/
def Context.enter (ctx : Context) (body : BodyKind) : Context := { ctx with body, inLoop := false }

/-- The open scopes, the innermost first, and what has been found so far. -/
structure Resolution where
  scopes : List Scope := []
  table : BindingTable := .empty
  errors : List Error := []
  warnings : List Warning := []

def Name.site (name : Name) : Site := .lexeme name.text name.line

/-- Warnings stand in the order of their lines, then of their names. -/
def Warning.le (v w : Warning) : Bool := v.line < w.line || (v.line = w.line && decide (v.name ≤ w.name))

def Warning.insertSorted (w : Warning) : List Warning → List Warning
  | [] => [w]
  | v :: vs => if w.le v then w :: v :: vs else v :: insertSorted w vs

/-- The variables of a scope that nothing has used. -/
def Scope.unused (scope : Scope) : List Warning :=
  (scope.entries.filter (!·.2.isUsed)).foldr (fun e => Warning.insertSorted ⟨e.2.line, e.1⟩) []

namespace Resolution

/-- A finding is reported once: a compound assignment holds its target twice. -/
def report (r : Resolution) (site : Site) (fault : ScopeFault) : Resolution :=
  if .scoping site fault ∈ r.errors then r
  else { r with errors := r.errors ++ [.scoping site fault] }

def reportIf (r : Resolution) (found : Bool) (site : Site) (fault : ScopeFault) : Resolution :=
  if found then r.report site fault else r

def warn (r : Resolution) (w : Warning) : Resolution :=
  if w ∈ r.warnings then r else { r with warnings := r.warnings ++ [w] }

def openScope (r : Resolution) : Resolution := { r with scopes := .empty :: r.scopes }

/-- Closes the innermost scope and warns of its unused variables. -/
def closeScope (r : Resolution) : Resolution :=
  match r.scopes with
  | [] => r
  | scope :: outer => scope.unused.foldl warn { r with scopes := outer }

/-- Enters the name in the innermost scope, not yet defined. Of two declarations in one scope the
second is an error, and counts as used. -/
def declare (r : Resolution) (name : Name) : Resolution :=
  match r.scopes with
  | [] => r
  | scope :: outer =>
    let again := scope.contains name.text
    let entry : Local := { isDefined := false, isUsed := again, line := name.line }
    { r with scopes := scope.insert name.text entry :: outer }.reportIf again name.site .duplicateName

def define (r : Resolution) (name : Name) : Resolution :=
  match r.scopes with
  | [] => r
  | scope :: outer =>
    match scope.get? name.text with
    | none => r
    | some entry => { r with scopes := scope.insert name.text { entry with isDefined := true } :: outer }

def introduce (r : Resolution) (name : Name) : Resolution := (r.declare name).define name

/-- A new scope that holds `this` or `super`. -/
def openImplicit (r : Resolution) (name : String) : Resolution :=
  let entry : Local := { isDefined := true, isUsed := true, line := 0 }
  { r with scopes := Dict.empty.insert name entry :: r.scopes }

/-- The depth of the innermost scope with the name, and the scopes with that variable used. -/
def useIn (name : String) : List Scope → Option (Nat × List Scope)
  | [] => none
  | scope :: outer =>
    match scope.get? name with
    | some entry => some (0, scope.insert name { entry with isUsed := true } :: outer)
    | none => (useIn name outer).map fun (depth, outer) => (depth + 1, scope :: outer)

/-- Binds an occurrence of the name, unless it is global. -/
def use (r : Resolution) (id : NodeId) (name : String) : Resolution :=
  match useIn name r.scopes with
  | none => r
  | some (depth, scopes) => { r with scopes, table := r.table.insert id depth }

/-- The innermost scope declares the name, and its initializer is not over. -/
def inOwnInitializer (r : Resolution) (name : String) : Bool :=
  match r.scopes with
  | [] => false
  | scope :: _ => (scope.get? name).any (!·.isDefined)

def readVariable (r : Resolution) (id : NodeId) (name : Name) : Resolution :=
  (r.reportIf (r.inOwnInitializer name.text) name.site .readInOwnInitializer).use id name.text

def readThis (r : Resolution) (ctx : Context) (id : NodeId) (line : Nat) : Resolution :=
  let site : Site := .lexeme "this" line
  match ctx.classKind with
  | .none => r.report site .thisOutsideClass
  | _ => if ctx.inStatic then r.report site .thisInStatic else r.use id "this"

def readSuper (r : Resolution) (ctx : Context) (id : NodeId) (line : Nat) : Resolution :=
  let site : Site := .lexeme "super" line
  match ctx.classKind with
  | .none => r.report site .superOutsideClass
  | .root => r.report site .superWithoutSuperclass
  | .derived => if ctx.inStatic then r.report site .superInStatic else r.use id "super"

/-- Checks a `return`, before its value is resolved. -/
def checkReturn (r : Resolution) (ctx : Context) (form : ReturnForm) (line : Nat) (hasValue : Bool) : Resolution :=
  let site : Site := .lexeme form.symbol line
  (r.reportIf (ctx.body = .program) site .returnOutsideFunction).reportIf
    (hasValue && ctx.body = .initializer) site .valueFromInitializer

def checkBreak (r : Resolution) (ctx : Context) (line : Nat) : Resolution :=
  r.reportIf (!ctx.inLoop) (.lexeme "break" line) .breakOutsideLoop

/-- Resolves a superclass and opens the scope of `super`. -/
def readSuperclass (r : Resolution) (className : Name) : Option Reference → Resolution
  | none => r
  | some ref =>
    ((r.reportIf (ref.name.text = className.text) ref.name.site .inheritsFromItself).readVariable
      ref.id ref.name).openImplicit "super"

def closeSuperclass (r : Resolution) (superclass : Option Reference) : Resolution :=
  if superclass.isSome then r.closeScope else r

end Resolution

/-- The body of an instance method named `init` is an initializer. -/
def Method.bodyKind (m : Method) : BodyKind := if m.name.text = "init" then .initializer else .function

def ClassKind.ofSuperclass (superclass : Option Reference) : ClassKind :=
  if superclass.isSome then .derived else .root

mutual

def Expr.resolve : Expr → Context → Resolution → Resolution
  | .literal _, _, r => r
  | .unary _ _ operand, ctx, r => operand.resolve ctx r
  | .binary _ _ left right, ctx, r => right.resolve ctx (left.resolve ctx r)
  | .logical _ _ left right, ctx, r => right.resolve ctx (left.resolve ctx r)
  | .group inner, ctx, r => inner.resolve ctx r
  | .var id name, _, r => r.readVariable id name
  | .assign id name value, ctx, r => (value.resolve ctx r).use id name.text
  | .call callee _ arguments, ctx, r => resolveExprs arguments ctx (callee.resolve ctx r)
  | .lambda _ routine, ctx, r => routine.resolve (ctx.enter .function) r
  | .get object _, ctx, r => object.resolve ctx r
  | .set object _ value, ctx, r => value.resolve ctx (object.resolve ctx r)
  | .this id line, ctx, r => r.readThis ctx id line
  | .super id line _, ctx, r => r.readSuper ctx id line

def resolveExprs : List Expr → Context → Resolution → Resolution
  | [], _, r => r
  | e :: es, ctx, r => resolveExprs es ctx (e.resolve ctx r)

def Stmt.resolve : Stmt → Context → Resolution → Resolution
  | .expr e, ctx, r => e.resolve ctx r
  | .print e, ctx, r => e.resolve ctx r
  | .varDecl name none, _, r => r.introduce name
  | .varDecl name (some e), ctx, r => (e.resolve ctx (r.declare name)).define name
  | .block body, ctx, r => (resolveStmts body ctx r.openScope).closeScope
  | .branch condition thenBranch none, ctx, r => thenBranch.resolve ctx (condition.resolve ctx r)
  | .branch condition thenBranch (some elseBranch), ctx, r =>
    elseBranch.resolve ctx (thenBranch.resolve ctx (condition.resolve ctx r))
  | .loop condition body, ctx, r => body.resolve { ctx with inLoop := true } (condition.resolve ctx r)
  | .funDecl name routine, ctx, r => routine.resolve (ctx.enter .function) (r.introduce name)
  | .returns form line none, ctx, r => r.checkReturn ctx form line false
  | .returns form line (some e), ctx, r => e.resolve ctx (r.checkReturn ctx form line true)
  | .breaks line, ctx, r => r.checkBreak ctx line
  | .classDecl name superclass methods statics, ctx, r =>
    let ctx := { ctx with classKind := .ofSuperclass superclass }
    let r := (r.introduce name).readSuperclass name superclass
    let r := resolveStatics statics { ctx with inStatic := true } r
    let r := resolveMethods methods { ctx with inStatic := false } (r.openImplicit "this")
    r.closeScope.closeSuperclass superclass

def resolveStmts : List Stmt → Context → Resolution → Resolution
  | [], _, r => r
  | st :: sts, ctx, r => resolveStmts sts ctx (st.resolve ctx r)

/-- Parameters and body share one scope. -/
def Routine.resolve : Routine → Context → Resolution → Resolution
  | ⟨params, body⟩, ctx, r =>
    (resolveStmts body ctx (params.foldl Resolution.introduce r.openScope)).closeScope

def Method.resolve : Method → (body : BodyKind) → Context → Resolution → Resolution
  | ⟨_, _, routine⟩, body, ctx, r => routine.resolve (ctx.enter body) r

def resolveMethods : List Method → Context → Resolution → Resolution
  | [], _, r => r
  | m :: ms, ctx, r => resolveMethods ms ctx (m.resolve m.bodyKind ctx r)

/-- A static member named `init` is a function like any other. -/
def resolveStatics : List Method → Context → Resolution → Resolution
  | [], _, r => r
  | m :: ms, ctx, r => resolveStatics ms ctx (m.resolve .function ctx r)

end

/-- Resolves a whole program. -/
def resolveProgram (program : List Stmt) : Resolution := resolveStmts program {} {}

end Lox
