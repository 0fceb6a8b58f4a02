import Lox.Token

/-!
# Diagnostics

Every finding is a cause with its place. The wording of a cause is in its `message` and nowhere
else.
-/

namespace Lox

/-- Why characters form no token. -/
inductive LexFault where
  | unexpectedCharacter (c : Char)
  | unterminatedString
deriving DecidableEq, Repr

def LexFault.message : LexFault → String
  | .unexpectedCharacter c => "Unexpected character: " ++ String.singleton c
  | .unterminatedString => "Unterminated string."

/-- What a missing name was to name. -/
inductive NameRole where
  | klass | superclass | function | method | parameter | variable | superclassMethod
deriving DecidableEq, Repr

def NameRole.text : NameRole → String
  | .klass => "class"
  | .superclass => "superclass"
  | .function => "function"
  | .method => "method"
  | .parameter => "parameter"
  | .variable => "variable"
  | .superclassMethod => "superclass method"

/-- Where in a construct a mark is missing. -/
inductive Place where
  | beforeClassBody | afterClassBody | afterFunctionName | afterMethodName | afterParameters
  | afterExpressionBody | afterVariableDeclaration | afterFor | afterLoopCondition | afterForClauses
  | afterValue | afterExpression | afterReturnValue | afterBreak | afterIf | afterIfCondition
  | afterWhile | afterCondition | afterBlock | afterArguments | afterSuper | afterFun
deriving DecidableEq, Repr

def Place.text : Place → String
  | .beforeClassBody => "before class body"
  | .afterClassBody => "after class body"
  | .afterFunctionName => "after function name"
  | .afterMethodName => "after method name"
  | .afterParameters => "after parameters"
  | .afterExpressionBody => "after expression body"
  | .afterVariableDeclaration => "after variable declaration"
  | .afterFor => "after 'for'"
  | .afterLoopCondition => "after loop condition"
  | .afterForClauses => "after for clauses"
  | .afterValue => "after value"
  | .afterExpression => "after expression"
  | .afterReturnValue => "after return value"
  | .afterBreak => "after 'break'"
  | .afterIf => "after 'if'"
  | .afterIfCondition => "after if condition"
  | .afterWhile => "after 'while'"
  | .afterCondition => "after condition"
  | .afterBlock => "after block"
  | .afterArguments => "after arguments"
  | .afterSuper => "after 'super'"
  | .afterFun => "after 'fun'"

/-- Why tokens form no program. -/
inductive SyntaxFault where
  | missingMark (m : Mark) (place : Place)
  | missingName (role : NameRole)
  | missingProperty
  | missingBody
  | missingExpression
  | trailingTokens
  | tooManyParameters
  | tooManyArguments
  | invalidAssignmentTarget
  | invalidIncrementTarget
deriving DecidableEq, Repr

def SyntaxFault.message : SyntaxFault → String
  | .missingMark m place => s!"Expect '{m.spelling}' {place.text}."
  | .missingName role => s!"Expect {role.text} name."
  | .missingProperty => "Expect property name after '.'."
  | .missingBody => "Expect '\x7b' or ':' before function body."
  | .missingExpression => "Expect expression."
  | .trailingTokens => "Expect end of expression."
  | .tooManyParameters => "Can't have more than 255 parameters."
  | .tooManyArguments => "Can't have more than 255 arguments."
  | .invalidAssignmentTarget => "Invalid assignment target."
  | .invalidIncrementTarget => "Invalid increment target."

/-- Why a program that parses is still rejected. -/
inductive ScopeFault where
  | duplicateName
  | readInOwnInitializer
  | returnOutsideFunction
  | valueFromInitializer
  | breakOutsideLoop
  | thisOutsideClass
  | thisInStatic
  | superOutsideClass
  | superWithoutSuperclass
  | superInStatic
  | inheritsFromItself
deriving DecidableEq, Repr

def ScopeFault.message : ScopeFault → String
  | .duplicateName => "Already a variable with this name in this scope."
  | .readInOwnInitializer => "Can't read local variable in its own initializer."
  | .returnOutsideFunction => "Can't return from top-level code."
  | .valueFromInitializer => "Can't return a value from an initializer."
  | .breakOutsideLoop => "Can't use 'break' outside of a loop."
  | .thisOutsideClass => "Can't use 'this' outside of a class."
  | .thisInStatic => "Can't use 'this' in a static method."
  | .superOutsideClass => "Can't use 'super' outside of a class."
  | .superWithoutSuperclass => "Can't use 'super' in a class with no superclass."
  | .superInStatic => "Can't use 'super' in a static method."
  | .inheritsFromItself => "A class can't inherit from itself."

/-- Why a name cannot be read, written or declared in an environment. -/
inductive NameFault where
  | undefined (name : String)
  | alreadyDefined (name : String)
deriving DecidableEq, Repr

def NameFault.message : NameFault → String
  | .undefined name => s!"Undefined variable '{name}'."
  | .alreadyDefined name => s!"Variable '{name}' is already defined in this scope."

/-- Why octets did not reach the output. -/
inductive OutputFault where
  | sinkFull
  | flushFailed
deriving DecidableEq, Repr

def OutputFault.message : OutputFault → String
  | .sinkFull => "sink full"
  | .flushFailed => "flush failed"

/-- Why evaluation stops. -/
inductive RuntimeFault where
  | naming (fault : NameFault)
  | undefinedProperty (name : String)
  | operandNotNumber
  | operandsNotNumbers
  | operandsNotAddable
  | invalidUnaryOperator
  | invalidBinaryOperator
  | divisionByZero
  | superclassNotClass
  | fieldOfNonInstance
  | propertyOfNonInstance
  | notCallable
  | wrongArity (expected got : Nat)
  | stackOverflow
  | unresolvedSuper
  | unresolvedThis
  | inputNotText
  | outputNotWritten (fault : OutputFault)
deriving DecidableEq, Repr

def RuntimeFault.message : RuntimeFault → String
  | .naming fault => fault.message
  | .undefinedProperty name => s!"Undefined property '{name}'."
  | .operandNotNumber => "Operand must be a number."
  | .operandsNotNumbers => "Operands must be numbers."
  | .operandsNotAddable => "Operands must be two numbers or two strings."
  | .invalidUnaryOperator => "Invalid unary operator."
  | .invalidBinaryOperator => "Invalid binary operator."
  | .divisionByZero => "Division by zero."
  | .superclassNotClass => "Superclass must be a class."
  | .fieldOfNonInstance => "Only instances have fields."
  | .propertyOfNonInstance => "Only instances have properties."
  | .notCallable => "Can only call functions and classes."
  | .wrongArity expected got => s!"Expected {expected} arguments but got {got}."
  | .stackOverflow => "Stack overflow."
  | .unresolvedSuper => "Unresolved 'super'."
  | .unresolvedThis => "Unresolved 'this'."
  | .inputNotText => "Could not read input: stream did not contain valid UTF-8"
  | .outputNotWritten fault => s!"Could not write output: {fault.message}"

/-- The token that a finding points at. -/
inductive Site where
  | lexeme (text : String) (line : Nat)
  | endOfInput (line : Nat)
deriving DecidableEq, Repr

def Site.line : Site → Nat
  | .lexeme _ line => line
  | .endOfInput line => line

def Site.text : Site → String
  | .lexeme text _ => s!"at '{text}'"
  | .endOfInput _ => "at end"

inductive Error where
  | lexical (line : Nat) (fault : LexFault)
  | syntactic (site : Site) (fault : SyntaxFault)
  | scoping (site : Site) (fault : ScopeFault)
  | runtime (line : Nat) (fault : RuntimeFault)
  | output (fault : OutputFault)
deriving DecidableEq, Repr

namespace Error

def text : Error → String
  | lexical line fault => s!"[line {line}] Error: {fault.message}"
  | syntactic site fault => s!"[line {site.line}] Error {site.text}: {fault.message}"
  | scoping site fault => s!"[line {site.line}] Error {site.text}: {fault.message}"
  | runtime line fault => s!"{fault.message}\n[line {line}]"
  | output fault => fault.message

def line? : Error → Option Nat
  | lexical line _ => some line
  | syntactic site _ => some site.line
  | scoping site _ => some site.line
  | runtime line _ => some line
  | output _ => none

/-- Found before anything runs. -/
def isStatic : Error → Bool
  | lexical .. => true
  | syntactic .. => true
  | scoping .. => true
  | runtime .. => false
  | output _ => false

end Error

/-- A local variable that nothing reads or writes. It does not keep a program from running. -/
structure Warning where
  line : Nat
  name : String
deriving DecidableEq, Repr

def Warning.text (w : Warning) : String :=
  s!"[line {w.line}] Warning: Local variable '{w.name}' is never used."

end Lox
