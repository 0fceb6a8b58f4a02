import Lox.Text.Quoted
import Lox.Number.Text

/-!
# Tokens

A mark and a keyword have one spelling each; names, strings and numbers carry theirs. The
lexeme of a token is therefore computed from its kind and never stored beside it.
-/

namespace Lox

/-- Punctuation and operators. -/
inductive Mark where
  | leftParen | rightParen | leftBrace | rightBrace | comma | dot | colon | semicolon
  | minus | minusEqual | minusMinus | plus | plusEqual | plusPlus
  | slash | slashEqual | star | starEqual | percent | percentEqual
  | bang | bangEqual | equal | equalEqual | greater | greaterEqual | less | lessEqual
deriving DecidableEq, Repr

namespace Mark

def spelling : Mark → String
  | leftParen => "("
  | rightParen => ")"
  | leftBrace => "\x7b"
  | rightBrace => "\x7d"
  | comma => ","
  | dot => "."
  | colon => ":"
  | semicolon => ";"
  | minus => "-"
  | minusEqual => "-="
  | minusMinus => "--"
  | plus => "+"
  | plusEqual => "+="
  | plusPlus => "++"
  | slash => "/"
  | slashEqual => "/="
  | star => "*"
  | starEqual => "*="
  | percent => "%"
  | percentEqual => "%="
  | bang => "!"
  | bangEqual => "!="
  | equal => "="
  | equalEqual => "=="
  | greater => ">"
  | greaterEqual => ">="
  | less => "<"
  | lessEqual => "<="

def name : Mark → String
  | leftParen => "LEFT_PAREN"
  | rightParen => "RIGHT_PAREN"
  | leftBrace => "LEFT_BRACE"
  | rightBrace => "RIGHT_BRACE"
  | comma => "COMMA"
  | dot => "DOT"
  | colon => "COLON"
  | semicolon => "SEMICOLON"
  | minus => "MINUS"
  | minusEqual => "MINUS_EQUAL"
  | minusMinus => "MINUS_MINUS"
  | plus => "PLUS"
  | plusEqual => "PLUS_EQUAL"
  | plusPlus => "PLUS_PLUS"
  | slash => "SLASH"
  | slashEqual => "SLASH_EQUAL"
  | star => "STAR"
  | starEqual => "STAR_EQUAL"
  | percent => "PERCENT"
  | percentEqual => "PERCENT_EQUAL"
  | bang => "BANG"
  | bangEqual => "BANG_EQUAL"
  | equal => "EQUAL"
  | equalEqual => "EQUAL_EQUAL"
  | greater => "GREATER"
  | greaterEqual => "GREATER_EQUAL"
  | less => "LESS"
  | lessEqual => "LESS_EQUAL"

/-- The mark spelled by one character. -/
def single? : Char → Option Mark
  | '(' => some leftParen
  | ')' => some rightParen
  | '\x7b' => some leftBrace
  | '\x7d' => some rightBrace
  | ',' => some comma
  | '.' => some dot
  | ':' => some colon
  | ';' => some semicolon
  | '-' => some minus
  | '+' => some plus
  | '/' => some slash
  | '*' => some star
  | '%' => some percent
  | '!' => some bang
  | '=' => some equal
  | '>' => some greater
  | '<' => some less
  | _ => none

/-- The mark spelled by two characters. -/
def pair? : Char → Char → Option Mark
  | '-', '=' => some minusEqual
  | '-', '-' => some minusMinus
  | '+', '=' => some plusEqual
  | '+', '+' => some plusPlus
  | '/', '=' => some slashEqual
  | '*', '=' => some starEqual
  | '%', '=' => some percentEqual
  | '!', '=' => some bangEqual
  | '=', '=' => some equalEqual
  | '>', '=' => some greaterEqual
  | '<', '=' => some lessEqual
  | _, _ => none

end Mark

/-- The words that are no names. -/
inductive Keyword where
  | and | break | klass | else | false | fun | for | if | nil | or | print | return | super | this
  | true | var | while
deriving DecidableEq, Repr

namespace Keyword

def text : Keyword → String
  | .and => "and"
  | .break => "break"
  | .klass => "class"
  | .else => "else"
  | .false => "false"
  | .fun => "fun"
  | .for => "for"
  | .if => "if"
  | .nil => "nil"
  | .or => "or"
  | .print => "print"
  | .return => "return"
  | .super => "super"
  | .this => "this"
  | .true => "true"
  | .var => "var"
  | .while => "while"

def name (k : Keyword) : String := k.text.toUpper

def all : List Keyword :=
  [.and, .break, .klass, .else, .false, .fun, .for, .if, .nil, .or, .print, .return, .super,
   .this, .true, .var, .while]

def ofText? (s : String) : Option Keyword := all.find? (·.text == s)

end Keyword

namespace Token

inductive Kind where
  | mark (m : Mark)
  | keyword (k : Keyword)
  | identifier (name : String)
  /-- What stands between the quotes. -/
  | string (content : String)
  | number (digits : String) (value : Float)
  | eof
deriving DecidableEq

def Kind.name : Kind → String
  | .mark m => m.name
  | .keyword k => k.name
  | .identifier _ => "IDENTIFIER"
  | .string _ => "STRING"
  | .number _ _ => "NUMBER"
  | .eof => "EOF"

/-- The text in the source. -/
def Kind.lexeme : Kind → String
  | .mark m => m.spelling
  | .keyword k => k.text
  | .identifier name => name
  | .string content => "\"" ++ content ++ "\""
  | .number digits _ => digits
  | .eof => ""

end Token

/-- A token and the line on which it ends. -/
structure Token where
  kind : Token.Kind
  line : Nat
deriving DecidableEq

namespace Token

def lexeme (t : Token) : String := t.kind.lexeme

/-- The literal's value as a listing shows it. -/
def literalText (t : Token) : String :=
  match t.kind with
  | .string content => content
  | .number _ value => Number.Form.token.text value
  | _ => "null"

/-- The token in a listing: its kind, its lexeme and its value. -/
def text (t : Token) : String := t.kind.name ++ " " ++ t.lexeme ++ " " ++ t.literalText

def kindJson (t : Token) : String :=
  match t.kind with
  | .string content => "\x7b\"STRING\":" ++ Quoted.json content ++ "\x7d"
  | .number _ value => "\x7b\"NUMBER\":" ++ Number.json value ++ "\x7d"
  | kind => Quoted.json kind.name

def json (t : Token) : String :=
  "\x7b\"token_type\":" ++ t.kindJson ++ ",\"lexeme\":" ++ Quoted.json t.lexeme ++ ",\"line\":" ++
    toString t.line ++ "\x7d"

end Token

end Lox
