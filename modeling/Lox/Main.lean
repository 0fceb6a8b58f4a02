import Lox.CommandLine.Perform

/-!
# The program

Fetches the file and the input that a command needs, performs it, and writes what it gives.
-/

namespace Lox

open CommandLine

def readContents (name : String) : IO (Except FileFault (List UInt8)) := do
  try
    return .ok (← IO.FS.readBinFile name).toList
  catch
    | .noFileOrDirectory .. => return .error .missing
    | .inappropriateType _ code _ => return .error (if code = 21 then .folder else .notFolder)
    | .invalidArgument .. => return .error .nameTooLong
    | _ => return .error .denied

def readInput (command : Command) : IO (List UInt8) := do
  match command with
  | .run _ => return (← (← IO.getStdin).readBinToEnd).toList
  | .prompt => return (← (← IO.getStdin).readBinToEnd).toList
  | _ => return []

/-- More steps than any program takes in a lifetime. -/
def unboundedFuel : Nat := Nat.pow 2 62

def fetchAndAnswer (request : Request) : IO (Option Finish) := do
  match request with
  | .perform i => do
    let contents ← match i.command.file? with
      | some name => readContents name
      | none => pure (.error .missing)
    let stdin ← match contents, i.command with
      | .error _, .run _ => pure []
      | _, command => readInput command
    return request.answer unboundedFuel (fun _ => contents) stdin (← IO.monoMsNow)
  | _ => return request.answer unboundedFuel (fun _ => .error .missing) [] 0

end Lox

def main (arguments : List String) : IO UInt32 := do
  match ← Lox.fetchAndAnswer (Lox.CommandLine.read arguments) with
  | none => return 1
  | some finish => do
    let stdout ← IO.getStdout
    stdout.write (ByteArray.mk finish.stdout.toArray)
    stdout.flush
    (← IO.getStderr).putStr finish.stderr
    return UInt32.ofNat finish.exit
