import Lox.Text.Quoted
import Lox.Text.Utf8

/-!
# Source files

Why a file gives no source text: it cannot be opened, it cannot be read, or it is no text.
-/

namespace Lox.CommandLine

inductive FileFault where
  | missing
  | denied
  /-- A file stands where the name asks for a folder. -/
  | notFolder
  | nameTooLong
  /-- A folder stands where the name asks for a file. -/
  | folder
  | notText (fault : Utf8.Fault)
deriving DecidableEq, Repr

namespace FileFault

/-- A folder can be opened, but not read. -/
def context (name : String) : FileFault → String
  | missing => s!"Failed to open file {Quoted.fileName name}"
  | denied => s!"Failed to open file {Quoted.fileName name}"
  | notFolder => s!"Failed to open file {Quoted.fileName name}"
  | nameTooLong => s!"Failed to open file {Quoted.fileName name}"
  | folder => s!"Failed to read file {Quoted.fileName name}"
  | notText _ => s!"File {Quoted.fileName name} is not valid UTF-8"

def cause : FileFault → String
  | missing => "No such file or directory (os error 2)"
  | denied => "Permission denied (os error 13)"
  | notFolder => "Not a directory (os error 20)"
  | nameTooLong => "File name too long (os error 36)"
  | folder => "Is a directory (os error 21)"
  | notText fault => fault.message

end FileFault

/-- The source text of a file with the given contents. -/
def sourceOf (contents : Except FileFault (List UInt8)) : Except FileFault String :=
  contents.bind fun bytes => (Utf8.decode bytes).mapError .notText

end Lox.CommandLine
