import Lox.CommandLine.Outcome
import Std.Time.DateTime.Timestamp

/-!
The program of the command line. What the commands do is said in `CommandLine.Outcome`; here files
and input are read, and what a command leaves is written.
-/

namespace Lox.CommandLine

/-- More fuel than a program can use up. -/
def ampleFuel : Nat := 1000000000000000000

/-- Reads a file. -/
def readFile (name : String) : IO (Except FileFault ByteArray) := do
  try
    return .ok (← IO.FS.readBinFile name)
  catch
    | .noFileOrDirectory .. => return .error .missing
    | .inappropriateType _ 20 _ => return .error .notDirectory
    | .inappropriateType .. => return .error .isDirectory
    | .invalidArgument _ 36 _ => return .error .nameTooLong
    | _ => return .error .denied

/-- Reads all that is left of the input. -/
partial def readInput (stdin : IO.FS.Stream) (before : ByteArray) : IO ByteArray := do
  let more ← stdin.read 65536
  if more.isEmpty then return before else readInput stdin (before ++ more)

/-- The readings of a clock that starts now and goes on by a millisecond at each reading. -/
def currentClock : IO (Nat → Float) := do
  let start := (← Std.Time.Timestamp.now).toMillisecondsSinceUnixEpoch.val
  return fun n => Float.ofInt (start + n) / 1000

/-- Writes what a command leaves, and gives its exit code. -/
def Outcome.write (o : Outcome) : IO UInt32 := do
  let stdout ← IO.getStdout
  stdout.write o.output
  stdout.flush
  IO.eprint o.messages
  return o.code.toUInt32

/-- Reads one line of the input. -/
def readLine (stdin : IO.FS.Stream) : IO Line := do
  try
    return .ofBytes (← stdin.getLine).toUTF8.toList
  catch _ => return .unreadable

/-- Runs each line of the input as soon as it has been read. -/
partial def converseLive (s : Session) : IO UInt32 := do
  let stdout ← IO.getStdout
  stdout.putStr prompt
  stdout.flush
  match reply ampleFuel (← readLine (← IO.getStdin)) s with
  | .ended => return codeSuccess.toUInt32
  | .failed f => Outcome.write { code := codeFailure, messages := f.text }
  | .next messages s =>
    let _ ← Outcome.write { output := s.machine.console.output.written, messages }
    let clock ← currentClock
    converseLive { s with machine := { s.machine with console := {}, clock, clockReadings := 0 } }

/-- Runs the command that the arguments are, and gives the exit code. -/
def runCommand (arguments : List String) : IO UInt32 := do
  match Invocation.ofArguments arguments with
  | .error notice => notice.outcome.write
  | .ok i =>
    if i.log then IO.FS.writeFile "app.log" (" ".intercalate arguments ++ "\n")
    let clock ← currentClock
    match i.command.file? with
    | none => converseLive { limit := i.limit, machine := .fresh {} clock }
    | some name =>
      let contents ← readFile name
      let source := (readText (fun _ => contents) name).toOption.getD ""
      let input ← if mentionsInput source then readInput (← IO.getStdin) .empty else pure .empty
      Outcome.write (i.execute ampleFuel (fun _ => contents) input.toList clock)

end Lox.CommandLine

def main (arguments : List String) : IO UInt32 :=
  Lox.CommandLine.runCommand arguments
