import Lox.Diagnostic
import Lox.Source.Piece

/-!
# Tokens and errors of a source text

An item is a token or an error, on the line where its text ends. Blanks and comments give no item.
The last item is the end of the text.
-/

namespace Lox

inductive Item where
  | token (t : Token)
  | error (e : Error)
deriving DecidableEq

namespace Item

def token? : Item → Option Token
  | token t => some t
  | error _ => none

def error? : Item → Option Error
  | token _ => none
  | error e => some e

def text : Item → String
  | token t => t.text
  | error e => e.text

def newlines (cs : List Char) : Nat := cs.count '\n'

/-- The item of a piece that ends on the given line. -/
def ofShape? (line : Nat) : Piece.Shape → Option Item
  | .blank => none
  | .comment => none
  | .token kind => some (.token { kind, line })
  | .unexpected c => some (.error (.lexical line (.unexpectedCharacter c)))
  | .unterminated => some (.error (.lexical line .unterminatedString))

/-- The items of pieces that start on the given line. -/
def ofPieces : (line : Nat) → List Piece → List Item
  | line, [] => [.token { kind := .eof, line }]
  | line, p :: ps =>
    let line := line + newlines p.text
    (ofShape? line p.shape).toList ++ ofPieces line ps

/-- The items of a source text. -/
def ofSource (source : String) : List Item := ofPieces 1 (Piece.ofChars source.toList)

end Item

def tokensOf (items : List Item) : List Token := items.filterMap Item.token?

def errorsOf (items : List Item) : List Error := items.filterMap Item.error?

end Lox
