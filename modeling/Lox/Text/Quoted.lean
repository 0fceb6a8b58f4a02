import Lox.Text.Extending
import Lox.Text.Invisible

/-!
# Quoted text

Two written forms of a text between double quotes. The JSON form escapes the quote, the backslash
and the characters below U+0020, and leaves everything else raw. The form for file names escapes
the quote, the backslash, and every character that would not be seen as one of its own.
-/

namespace Lox.Quoted

/-- The digits of `n` in base 16, in lower case, with no leading zeros. -/
def hex (n : Nat) : List Char := Nat.toDigits 16 n

/-- The digits of `n` in base 16, filled up to four places. -/
def hex4 (n : Nat) : List Char :=
  List.replicate (4 - (hex n).length) '0' ++ hex n

def jsonChar (c : Char) : List Char :=
  if c = '"' then ['\\', '"']
  else if c = '\\' then ['\\', '\\']
  else if c = '\x08' then ['\\', 'b']
  else if c = '\x0c' then ['\\', 'f']
  else if c = '\n' then ['\\', 'n']
  else if c = '\r' then ['\\', 'r']
  else if c = '\t' then ['\\', 't']
  else if c.toNat < 0x20 then '\\' :: 'u' :: hex4 c.toNat
  else [c]

/-- The text as a JSON string. -/
def json (s : String) : String :=
  String.ofList ('"' :: s.toList.flatMap jsonChar ++ ['"'])

def fileNameChar (c : Char) : List Char :=
  if c = '"' then ['\\', '"']
  else if c = '\\' then ['\\', '\\']
  else if c = '\n' then ['\\', 'n']
  else if c = '\r' then ['\\', 'r']
  else if c = '\t' then ['\\', 't']
  else if c.toNat = 0 then ['\\', '0']
  else if isExtending c || isInvisible c then '\\' :: 'u' :: '\x7b' :: hex c.toNat ++ ['\x7d']
  else [c]

/-- A file's name as messages show it. -/
def fileName (s : String) : String :=
  String.ofList ('"' :: s.toList.flatMap fileNameChar ++ ['"'])

end Lox.Quoted
