import Lox.Diagnostic

/-!
# Output that can be full

A sink takes octets up to its limit. The write that crosses the limit is taken in part and fails,
and so does every write after it that is not empty.
-/

namespace Lox

structure Sink where
  written : ByteArray
  /-- The most octets it takes in all. -/
  limit : Option Nat
  flushFails : Bool

namespace Sink

def unlimited : Sink := { written := .empty, limit := none, flushFails := false }

/-- How many of `n` more octets are taken. -/
def room (k : Sink) (n : Nat) : Nat :=
  match k.limit with
  | none => n
  | some limit => min n (limit - k.written.size)

/-- Whether all of the text was taken, and the sink after it. -/
def write (k : Sink) (text : String) : Bool × Sink :=
  let bytes := text.toUTF8
  let taken := k.room bytes.size
  if taken = bytes.size then (true, { k with written := k.written ++ bytes })
  else (false, { k with written := k.written ++ bytes.extract 0 taken })

end Sink

end Lox
