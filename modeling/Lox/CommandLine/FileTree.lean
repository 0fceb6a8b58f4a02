import Lox.CommandLine.File

/-!
# Looking up file names

Files in a tree of folders, and the way that a name leads to one of them: part by part, from the
folder in use or from the root, and never on through something that is no folder.
-/

namespace Lox.CommandLine

/-- Where a file or folder is: the names on the way from the root. -/
abbrev Place := List String

/-- Folders are there when something is in them. The folder in use is always there. -/
structure FileTree where
  files : List (Place × List UInt8)
  here : Place

/-- What is at a place. -/
inductive FileTree.Node where
  | folder
  | file (contents : List UInt8)
deriving DecidableEq, Repr

namespace FileTree

def node? (t : FileTree) (p : Place) : Option Node :=
  match t.files.find? (·.1 = p) with
  | some (_, contents) => some (.file contents)
  | none => if p.isPrefixOf t.here || t.files.any (p.isPrefixOf ·.1) then some .folder else none

/-- The most octets in one part of a name. -/
def maxPart : Nat := 255

/-- The most octets in a name. -/
def maxName : Nat := 4095

/-- Goes from a place on to one part of a name. A part can be empty, at a doubled or a final slash;
it leads nowhere, but asks for a folder like any other. -/
def step (t : FileTree) (p : Place) (part : String) : Except FileFault Place :=
  match t.node? p with
  | none => .error .missing
  | some (.file _) => .error .notFolder
  | some .folder =>
    if part = "" || part = "." then .ok p
    else if part = ".." then .ok p.dropLast
    else if maxPart < part.utf8ByteSize then .error .nameTooLong
    else if (t.node? (p ++ [part])).isSome then .ok (p ++ [part])
    else .error .missing

def placeOf (t : FileTree) (name : String) : Except FileFault Place :=
  if maxName < name.utf8ByteSize then .error .nameTooLong
  else (name.splitOn "/").foldlM t.step (if name.startsWith "/" then [] else t.here)

/-- The contents of the file that a name leads to. -/
def read (t : FileTree) (name : String) : Except FileFault (List UInt8) := do
  match t.node? (← t.placeOf name) with
  | some (.file contents) => .ok contents
  | some .folder => .error .folder
  | none => .error .missing

end FileTree

end Lox.CommandLine
