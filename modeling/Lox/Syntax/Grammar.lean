import Lox.Syntax.Operators
import Lox.Syntax.Reader

/-!
# The grammar

Programs are read by recursive descent. A syntax error ends the declaration it is found in, and
reading goes on where the next statement seems to start. `for` loops, compound assignments and
steps are not in the tree: they are read as the loops and assignments that they stand for.

Each rule spends one unit of fuel. A token takes a rule at most `rulesPerToken` rules deeper, so
fuel in proportion to the tokens is enough.
-/

namespace Lox

/-- The most parameters or arguments. -/
def maxArity : Nat := 255

/-- Statements start with these words. -/
def Token.Kind.startsStatement : Token.Kind → Bool
  | .keyword .klass => true
  | .keyword .fun => true
  | .keyword .var => true
  | .keyword .for => true
  | .keyword .if => true
  | .keyword .while => true
  | .keyword .print => true
  | .keyword .return => true
  | _ => false

/-- Skips to the end of a statement or to the start of one. `last` is the token skipped before. -/
def skipStatement (last : Token) : List Token → List Token
  | [] => []
  | t :: ts =>
    if last.kind = .mark .semicolon then t :: ts
    else if t.kind.startsStatement then t :: ts
    else skipStatement t ts

/-- Where reading goes on after an error. One token is skipped in any case. -/
def synchronize : List Token → List Token
  | [] => []
  | t :: ts => skipStatement t ts

namespace Parse

/-- Turns an error into a report. -/
def recover {α : Type} (rule : Parse α) : Parse (Option α) := fun r =>
  match rule r with
  | .done a r' => .done (some a) r'
  | .failed e r' => .done none { r'.report e with tokens := synchronize r'.tokens }
  | .exhausted => .exhausted

/-- What the rule reads, unless the mark comes next. -/
def unlessAt {α : Type} (m : Mark) (rule : Parse α) : Parse (Option α) := do
  if ← atMark m then return none
  else return some (← rule)

/-- What the rule reads, if the token comes before it. -/
def ifAccepted {α : Type} (kind : Token.Kind) (rule : Parse α) : Parse (Option α) := do
  if ← accept kind then return some (← rule)
  else return none

/-- Reports one more than the most parameters or arguments. -/
def checkCount (count : Nat) (fault : SyntaxFault) : Parse Unit :=
  if maxArity ≤ count then report fault else pure ()

/-- The semicolon after the expression that is a function's body. -/
def endBody (closed : Bool) : Parse Unit := do
  if closed then
    let _ ← expectMark .semicolon .afterExpressionBody

/-- Makes an assignment to the expression. What is neither a variable nor a property is reported,
at the assignment mark, and stays as it is. -/
def assignTo (target value : Expr) (site : Site) (fault : SyntaxFault) : Parse Expr :=
  match target with
  | .var _ name => do return .assign (← freshId) name value
  | .get object name => return .set object name value
  | other => do
    reportAt site fault
    return other

/-- Assigns to the target what the operator gives for the target's old value and `operand`. -/
def updateBy (op : Mark) (target operand : Expr) (site : Site) (fault : SyntaxFault) : Parse Expr := do
  let old ← reread target
  assignTo target (.binary op site.line old operand) site fault

/-- The mark of an assignment, if it comes next, and its place. -/
def acceptAssignment : Parse (Option (Assignment × Site)) := do
  let site ← Run.read Reader.site
  match ← kind? with
  | some (.mark m) =>
    match Assignment.ofMark? m with
    | some form => do skip; return some (form, site)
    | none => return none
  | _ => return none

/-- The operator of the given level, if it comes next, and its line. -/
def acceptConnective (level : Nat) : Parse (Option (Connective × Nat)) := do
  let line ← line
  match (← kind?).bind (Connective.at? level) with
  | some c => do skip; return some (c, line)
  | none => return none

def acceptLeading : Parse (Option (Leading × Site)) := do
  let site ← Run.read Reader.site
  match ← kind? with
  | some (.mark m) =>
    match Leading.ofMark? m with
    | some form => do skip; return some (form, site)
    | none => return none
  | _ => return none

/-- A literal, a name, `this`, or a name of the superclass. Nothing is read where none starts. -/
def atom? : Parse (Option Expr) := do
  let line ← line
  match ← kind? with
  | some (.keyword .false) => do skip; return some (.literal (.bool false))
  | some (.keyword .true) => do skip; return some (.literal (.bool true))
  | some (.keyword .nil) => do skip; return some (.literal .nil)
  | some (.number _ x) => do skip; return some (.literal (.number x))
  | some (.string s) => do skip; return some (.literal (.string s))
  | some (.keyword .this) => do skip; return some (.this (← freshId) line)
  | some (.keyword .super) => do
    skip
    let _ ← expectMark .dot .afterSuper
    let method ← expectName (.missingName .superclassMethod)
    return some (.super (← freshId) line method)
  | some (.identifier text) => do skip; return some (.var (← freshId) { text, line })
  | _ => return none

/-- Names between commas; `count` of them are already read. -/
def parameterList : (fuel : Nat) → (count : Nat) → Parse (List Name)
  | 0, _ => Run.exhausted
  | fuel + 1, count => do
    checkCount count .tooManyParameters
    let param ← expectName (.missingName .parameter)
    if ← acceptMark .comma then return param :: (← parameterList fuel (count + 1))
    else return [param]

/-- What follows the opening parenthesis of a parameter list. -/
def parameters (fuel : Nat) : Parse (List Name) := do
  let params ← unlessAt .rightParen (parameterList fuel 0)
  let _ ← expectMark .rightParen .afterParameters
  return params.getD []

/-- `fun` with a name after it declares a function; without one it starts an expression. -/
def atFunctionDeclaration : Parse Bool := Run.read fun r =>
  match r.tokens with
  | { kind := .keyword .fun, .. } :: { kind := .identifier _, .. } :: _ => true
  | _ => false

/-- The superclass clause of a class. -/
def superclass? : Parse (Option Reference) := do
  if ← acceptMark .colon then
    let name ← expectName (.missingName .superclass)
    return some { id := ← freshId, name }
  else return none

/-- The increment of a loop comes after its body. -/
def bodyThen (body : Stmt) : (increment : Option Expr) → Stmt
  | some e => .block [body, .expr e]
  | none => body

/-- The loop that a `for` statement stands for. -/
def forLoop (initializer : Option Stmt) (condition increment : Option Expr) (body : Stmt) : Stmt :=
  let loop := .loop (condition.getD (.literal (.bool true))) (bodyThen body increment)
  match initializer with
  | some first => .block [first, loop]
  | none => loop

mutual

def expression : (fuel : Nat) → Parse Expr
  | 0 => Run.exhausted
  | fuel + 1 => do
    let target ← operand fuel 0
    match ← acceptAssignment with
    | none => return target
    | some (.store, site) => do
      let value ← expression fuel
      assignTo target value site .invalidAssignmentTarget
    | some (.combine op, site) => do
      let value ← expression fuel
      updateBy op target value site .invalidAssignmentTarget

/-- An expression whose operators are of this level or stronger. -/
def operand : (fuel : Nat) → (level : Nat) → Parse Expr
  | 0, _ => Run.exhausted
  | fuel + 1, level => do
    if level < Connective.levels then
      let left ← operand fuel (level + 1)
      operatorChain fuel level left
    else unary fuel

/-- The operators of one level that follow their left side. -/
def operatorChain : (fuel : Nat) → (level : Nat) → (left : Expr) → Parse Expr
  | 0, _, _ => Run.exhausted
  | fuel + 1, level, left => do
    match ← acceptConnective level with
    | none => return left
    | some (c, line) => do
      let right ← operand fuel (level + 1)
      operatorChain fuel level (c.join line left right)

def unary : (fuel : Nat) → Parse Expr
  | 0 => Run.exhausted
  | fuel + 1 => do
    match ← acceptLeading with
    | some (.operator op, site) => return .unary op site.line (← unary fuel)
    | some (.increment op, site) => do
      let target ← unary fuel
      updateBy op target (.literal (.number 1)) site .invalidIncrementTarget
    | none => do
      let head ← primary fuel
      suffixes fuel head

/-- The calls and properties that follow an expression. -/
def suffixes : (fuel : Nat) → (head : Expr) → Parse Expr
  | 0, _ => Run.exhausted
  | fuel + 1, head => do
    if ← acceptMark .leftParen then
      let arguments ← unlessAt .rightParen (argumentList fuel 0)
      let line ← expectMark .rightParen .afterArguments
      suffixes fuel (.call head line (arguments.getD []))
    else if ← acceptMark .dot then
      let name ← expectName .missingProperty
      suffixes fuel (.get head name)
    else return head

/-- Expressions between commas; `count` of them are already read. -/
def argumentList : (fuel : Nat) → (count : Nat) → Parse (List Expr)
  | 0, _ => Run.exhausted
  | fuel + 1, count => do
    checkCount count .tooManyArguments
    let argument ← expression fuel
    if ← acceptMark .comma then return argument :: (← argumentList fuel (count + 1))
    else return [argument]

def primary : (fuel : Nat) → Parse Expr
  | 0 => Run.exhausted
  | fuel + 1 => do
    match ← atom? with
    | some e => return e
    | none => do
      let line ← line
      if ← acceptMark .leftParen then
        let inner ← expression fuel
        let _ ← expectMark .rightParen .afterExpression
        return .group inner
      else if ← acceptKeyword .fun then
        let _ ← expectMark .leftParen .afterFun
        let params ← parameters fuel
        let body ← routineBody fuel false
        return .lambda line ⟨params, body⟩
      else fail .missingExpression

/-- A block, or a colon and the expression to return. `closed` asks for a semicolon after it. -/
def routineBody : (fuel : Nat) → (closed : Bool) → Parse (List Stmt)
  | 0, _ => Run.exhausted
  | fuel + 1, closed => do
    let line ← line
    if ← acceptMark .leftBrace then block fuel
    else if ← acceptMark .colon then
      let value ← expression fuel
      endBody closed
      return [.returns .expressionBody line (some value)]
    else fail .missingBody

/-- The declarations up to the closing brace, and that brace. -/
def block : (fuel : Nat) → Parse (List Stmt)
  | 0 => Run.exhausted
  | fuel + 1 => do
    let body ← declarations fuel
    let _ ← expectMark .rightBrace .afterBlock
    return body

/-- Declarations up to a closing brace or the end. -/
def declarations : (fuel : Nat) → Parse (List Stmt)
  | 0 => Run.exhausted
  | fuel + 1 => do
    if ← before .rightBrace then
      let first ← declaration fuel
      let rest ← declarations fuel
      return first.toList ++ rest
    else return []

/-- One declaration, unless there is an error in it. -/
def declaration : (fuel : Nat) → Parse (Option Stmt)
  | 0 => Run.exhausted
  | fuel + 1 => recover (do
    if ← acceptKeyword .klass then classDeclaration fuel
    else if ← atFunctionDeclaration then
      skip
      let name ← expectName (.missingName .function)
      let _ ← expectMark .leftParen .afterFunctionName
      let params ← parameters fuel
      let body ← routineBody fuel true
      return .funDecl name ⟨params, body⟩
    else if ← acceptKeyword .var then varDeclaration fuel
    else statement fuel)

def classDeclaration : (fuel : Nat) → Parse Stmt
  | 0 => Run.exhausted
  | fuel + 1 => do
    let name ← expectName (.missingName .klass)
    let superclass ← superclass?
    let _ ← expectMark .leftBrace .beforeClassBody
    let (methods, statics) ← members fuel
    let _ ← expectMark .rightBrace .afterClassBody
    return .classDecl name superclass methods statics

/-- The instance members and the static ones of a class. -/
def members : (fuel : Nat) → Parse (List Method × List Method)
  | 0 => Run.exhausted
  | fuel + 1 => do
    if ← before .rightBrace then
      let isStatic ← acceptKeyword .klass
      let m ← method fuel
      let (methods, statics) ← members fuel
      return if isStatic then (methods, m :: statics) else (m :: methods, statics)
    else return ([], [])

/-- A method whose name has no parenthesis after it is a getter. -/
def method : (fuel : Nat) → Parse Method
  | 0 => Run.exhausted
  | fuel + 1 => do
    let name ← expectName (.missingName .method)
    let params ← ifAccepted (.mark .leftParen) (parameters fuel)
    let body ← routineBody fuel true
    return ⟨name, params.isNone, ⟨params.getD [], body⟩⟩

def varDeclaration : (fuel : Nat) → Parse Stmt
  | 0 => Run.exhausted
  | fuel + 1 => do
    let name ← expectName (.missingName .variable)
    let initializer ← ifAccepted (.mark .equal) (expression fuel)
    let _ ← expectMark .semicolon .afterVariableDeclaration
    return .varDecl name initializer

def statement : (fuel : Nat) → Parse Stmt
  | 0 => Run.exhausted
  | fuel + 1 => do
    let line ← line
    if ← acceptKeyword .for then forStatement fuel
    else if ← acceptKeyword .if then ifStatement fuel
    else if ← acceptKeyword .while then
      let _ ← expectMark .leftParen .afterWhile
      let condition ← expression fuel
      let _ ← expectMark .rightParen .afterCondition
      return .loop condition (← statement fuel)
    else if ← acceptKeyword .return then
      let value ← unlessAt .semicolon (expression fuel)
      let _ ← expectMark .semicolon .afterReturnValue
      return .returns .keyword line value
    else if ← acceptKeyword .break then
      let _ ← expectMark .semicolon .afterBreak
      return .breaks line
    else if ← acceptMark .leftBrace then return .block (← block fuel)
    else if ← acceptKeyword .print then
      let value ← expression fuel
      let _ ← expectMark .semicolon .afterValue
      return .print value
    else expressionStatement fuel

def expressionStatement : (fuel : Nat) → Parse Stmt
  | 0 => Run.exhausted
  | fuel + 1 => do
    let e ← expression fuel
    let _ ← expectMark .semicolon .afterExpression
    return .expr e

def ifStatement : (fuel : Nat) → Parse Stmt
  | 0 => Run.exhausted
  | fuel + 1 => do
    let _ ← expectMark .leftParen .afterIf
    let condition ← expression fuel
    let _ ← expectMark .rightParen .afterIfCondition
    let thenBranch ← statement fuel
    let elseBranch ← ifAccepted (.keyword .else) (statement fuel)
    return .branch condition thenBranch elseBranch

def forStatement : (fuel : Nat) → Parse Stmt
  | 0 => Run.exhausted
  | fuel + 1 => do
    let _ ← expectMark .leftParen .afterFor
    let initializer ← forInitializer fuel
    let condition ← unlessAt .semicolon (expression fuel)
    let _ ← expectMark .semicolon .afterLoopCondition
    let increment ← unlessAt .rightParen (expression fuel)
    let _ ← expectMark .rightParen .afterForClauses
    let body ← statement fuel
    return forLoop initializer condition increment body

def forInitializer : (fuel : Nat) → Parse (Option Stmt)
  | 0 => Run.exhausted
  | fuel + 1 => do
    if ← acceptMark .semicolon then return none
    else if ← acceptKeyword .var then return some (← varDeclaration fuel)
    else return some (← expressionStatement fuel)

end

/-- All declarations up to the end. -/
def program : (fuel : Nat) → Parse (List Stmt)
  | 0 => Run.exhausted
  | fuel + 1 => do
    match ← kind? with
    | none => return []
    | some _ => do
      let first ← declaration fuel
      let rest ← program fuel
      return first.toList ++ rest

/-- A single expression that takes up the whole input. -/
def wholeExpression (fuel : Nat) : Parse Expr := do
  let e ← expression fuel
  match ← kind? with
  | none => return e
  | some _ => fail .trailingTokens

end Parse

/-- How many rules can follow one another before a token is read. -/
def rulesPerToken : Nat := 20

def grammarFuel (tokens : List Token) : Nat := rulesPerToken * (tokens.length + 1)

/-- What was read, the errors found on the way, and the next free identity. -/
structure Parsed (α : Type) where
  tree : α
  errors : List Error
  nextId : NodeId

/-- The statements that parse, and the errors in the others. -/
def parseProgram (tokens : List Token) (nextId : NodeId) : Parsed (List Stmt) :=
  match Parse.program (grammarFuel tokens) (Reader.ofTokens tokens nextId) with
  | .done tree r => { tree, errors := r.errors, nextId := r.nextId }
  | .failed e r => { tree := [], errors := r.errors ++ [e], nextId := r.nextId }
  | .exhausted => { tree := [], errors := [], nextId }

/-- An expression can come with errors, or not come at all. -/
def parseExpression (tokens : List Token) (nextId : NodeId) : Parsed (Option Expr) :=
  match Parse.wholeExpression (grammarFuel tokens) (Reader.ofTokens tokens nextId) with
  | .done tree r => { tree := some tree, errors := r.errors, nextId := r.nextId }
  | .failed e r => { tree := none, errors := r.errors ++ [e], nextId := r.nextId }
  | .exhausted => { tree := none, errors := [], nextId }

end Lox
