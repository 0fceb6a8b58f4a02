import Lox.Outcome
import Lox.Diagnostic
import Lox.Syntax.Fresh

/-!
# Reading tokens

A reader holds the tokens that are still to be read, up to the end of the input, the next free
identity, and the errors reported so far. Reading either goes on, or fails with an error at the
next token.
-/

namespace Lox

structure Reader where
  tokens : List Token
  /-- The line of the end of the input. -/
  endLine : Nat
  nextId : NodeId
  errors : List Error

abbrev Parse := Run Reader Error

namespace Reader

/-- What follows an end-of-input token is not read. Input without one ends on the line of its last
token. -/
def ofTokens (tokens : List Token) (nextId : NodeId) : Reader where
  tokens := tokens.takeWhile (·.kind ≠ .eof)
  endLine :=
    match tokens.find? (·.kind = .eof) with
    | some t => t.line
    | none => (tokens.getLast?.map Token.line).getD 1
  nextId := nextId
  errors := []

def kind? (r : Reader) : Option Token.Kind := r.tokens.head?.map Token.kind

/-- The line of the next token. -/
def line (r : Reader) : Nat := (r.tokens.head?.map Token.line).getD r.endLine

/-- The place of the next token. -/
def site (r : Reader) : Site :=
  match r.tokens with
  | [] => .endOfInput r.endLine
  | t :: _ => .lexeme t.lexeme t.line

def skip (r : Reader) : Reader := { r with tokens := r.tokens.drop 1 }

def report (r : Reader) (e : Error) : Reader := { r with errors := r.errors ++ [e] }

end Reader

namespace Parse

def kind? : Parse (Option Token.Kind) := Run.read Reader.kind?

def line : Parse Nat := Run.read Reader.line

def skip : Parse Unit := Run.update Reader.skip

/-- Fails at the next token. -/
def fail {α : Type} (fault : SyntaxFault) : Parse α := fun r => .failed (.syntactic r.site fault) r

/-- Reports an error at the next token and goes on. -/
def report (fault : SyntaxFault) : Parse Unit := fun r =>
  .done () (r.report (.syntactic r.site fault))

/-- Reports an error at a token that is already read, and goes on. -/
def reportAt (site : Site) (fault : SyntaxFault) : Parse Unit :=
  Run.update (·.report (.syntactic site fault))

def freshId : Parse NodeId := fun r => .done r.nextId { r with nextId := r.nextId + 1 }

/-- A copy of the expression with identities of its own. -/
def reread (e : Expr) : Parse Expr := fun r =>
  .done (e.fresh r.nextId).1 { r with nextId := (e.fresh r.nextId).2 }

def atMark (m : Mark) : Parse Bool := do
  return (← kind?) = some (.mark m)

/-- The next token is no such mark, and there is one. -/
def before (m : Mark) : Parse Bool := do
  let kind ← kind?
  return kind.isSome && kind ≠ some (.mark m)

/-- Reads the token if it is the given one. -/
def accept (kind : Token.Kind) : Parse Bool := fun r =>
  if r.kind? = some kind then .done true r.skip else .done false r

def acceptMark (m : Mark) : Parse Bool := accept (.mark m)

def acceptKeyword (k : Keyword) : Parse Bool := accept (.keyword k)

/-- The line of the mark, which has to come next. -/
def expectMark (m : Mark) (place : Place) : Parse Nat := fun r =>
  if r.kind? = some (.mark m) then .done r.line r.skip
  else .failed (.syntactic r.site (.missingMark m place)) r

/-- The name that has to come next. -/
def expectName (fault : SyntaxFault) : Parse Name := fun r =>
  match r.kind? with
  | some (.identifier text) => .done { text, line := r.line } r.skip
  | _ => .failed (.syntactic r.site fault) r

end Parse

end Lox
