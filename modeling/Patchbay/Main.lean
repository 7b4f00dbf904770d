import Patchbay.Calendar
import Patchbay.Command
import Std.Time.DateTime.Timestamp

/-!
# The program

Reads the files that a command names and the clock, and prints what `Patchbay.Command.run` answers.
-/

namespace Patchbay

/-- The contents of a file. -/
def readContents (path : String) : IO (Except ReadFault String) := do
  try
    let bytes ← IO.FS.readBinFile path
    match String.fromUTF8? bytes with
    | some text => return .ok text
    | none => return .error .notText
  catch
    | .noFileOrDirectory .. => return .error .notFound
    | e => return .error (.other (toString e))

/-- The time of the clock. -/
def readClock : IO Instant := do
  let now ← Std.Time.Timestamp.now
  let nanoseconds := now.toNanosecondsSinceUnixEpoch.val
  return ⟨nanoseconds / 1000000000, (nanoseconds % 1000000000).toNat⟩

/-- Runs the command that words stand for. -/
def perform (words : List String) : IO Output := do
  match Command.ofWords? words with
  | none => return Command.misuse
  | some command =>
    let contents ← command.files.mapM fun path => return (path, ← readContents path)
    let now ← readClock
    return command.run (fun path => (contents.lookup path).getD (.error .notFound)) now.timestamp

end Patchbay

/-- Prints the output of the command and exits with its code. -/
def main (words : List String) : IO UInt32 := do
  let output ← Patchbay.perform words
  IO.print output.stdout
  IO.eprint output.stderr
  return output.exitCode.toUInt32
