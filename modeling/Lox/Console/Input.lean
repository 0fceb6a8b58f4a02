import Lox.Text.Utf8

/-!
# Lines of input

Octets that are not yet read lie in two buffers and in the rest of the stream. A prompt reads its
lines from the shared buffer; a running program reads from a buffer of its own, and when that is
empty takes over all that the shared one holds. So what a program has taken over, a later prompt
does not see.
-/

namespace Lox

/-- How many octets are fetched from the stream at a time. -/
def chunkSize : Nat := 8192

def newline : UInt8 := 10

/-- The octets up to and with the first line end, and those after it. -/
def splitLine? : List UInt8 → Option (List UInt8 × List UInt8)
  | [] => none
  | b :: bs => if b = newline then some ([b], bs) else (splitLine? bs).map fun (line, rest) => (b :: line, rest)

/-- The first line of a buffer and a stream behind it, what is left in the buffer, and what is left
in the stream. The stream is fetched in whole chunks, until one holds a line end. -/
def takeLine (buffer stream : List UInt8) : List UInt8 × List UInt8 × List UInt8 :=
  match splitLine? buffer with
  | some (line, rest) => (line, rest, stream)
  | none =>
    match splitLine? stream with
    | none => (buffer ++ stream, [], [])
    | some (line, _) =>
      let fetched := (line.length + chunkSize - 1) / chunkSize * chunkSize
      (buffer ++ line, (stream.take fetched).drop line.length, stream.drop fetched)

structure Input where
  /-- The running program's buffer. -/
  own : List UInt8
  /-- The prompt's buffer. -/
  shared : List UInt8
  stream : List UInt8
deriving DecidableEq, Repr

namespace Input

/-- Input that only a program reads. -/
def ofBytes (bytes : List UInt8) : Input := { own := bytes, shared := [], stream := [] }

/-- Input that a prompt and its programs read. -/
def ofStream (bytes : List UInt8) : Input := { own := [], shared := [], stream := bytes }

/-- The next line for the running program, with its line end; empty at the end of the input. -/
def programLine (i : Input) : List UInt8 × Input :=
  match splitLine? i.own with
  | some (line, rest) => (line, { i with own := rest })
  | none =>
    let (line, own, stream) := takeLine (i.own ++ i.shared) i.stream
    (line, { own, shared := [], stream })

/-- The next line for the prompt, with its line end; empty at the end of the input. -/
def promptLine (i : Input) : List UInt8 × Input :=
  let (line, shared, stream) := takeLine i.shared i.stream
  (line, { i with shared, stream })

end Input

def isLineEnd (c : Char) : Bool := c = '\n' || c = '\r'

/-- The text without the line ends it closes with. -/
def trimLineEnds (cs : List Char) : List Char := (cs.reverse.dropWhile isLineEnd).reverse

end Lox
