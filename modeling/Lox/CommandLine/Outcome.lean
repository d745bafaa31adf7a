import Lox.CommandLine.Files
import Lox.CommandLine.Help
import Lox.Program.Bracketed
import Lox.Program.Document
import Lox.Session
import Lox.Text.Quoted
import Lox.Text.Utf8

/-!
What the commands do: from an invocation, the files it can read and the bytes of its input to the
bytes it writes, the messages it reports and its exit code.
-/

namespace Lox.CommandLine

/-! ### Failures -/

/-- A failure that is not one of the program's own. -/
inductive Failure where
  | file (name : String) (fault : FileFault)
  | fileNotText (name : String) (fault : Text.Utf8.Fault)
  | inputNotText

namespace Failure

/-- What could not be done. -/
def summary : Failure → String
  | file name .isDirectory => "Failed to read file " ++ Text.quote name
  | file name _ => "Failed to open file " ++ Text.quote name
  | fileNotText name _ => "File " ++ Text.quote name ++ " is not valid UTF-8"
  | inputNotText => "Failed to read from stdin"

/-- The reason why. -/
def cause : Failure → String
  | file _ fault => fault.message
  | fileNotText _ fault => fault.message
  | inputNotText => "stream did not contain valid UTF-8"

/-- The message of a failure. -/
def text (f : Failure) : String :=
  "Error: " ++ f.summary ++ "\n\nCaused by:\n    " ++ f.cause ++ "\n"

end Failure

/-- The text in a file. -/
def readText (files : Files) (name : String) : Except Failure String :=
  match files name with
  | .error fault => .error (.file name fault)
  | .ok bytes => (Text.Utf8.decode bytes).mapError (.fileNotText name)

/-! ### Outcomes -/

/-- The code of a command that succeeds. -/
def codeSuccess : Nat := 0
/-- The code of a failure that is not one of the program's own. -/
def codeFailure : Nat := 1
/-- The code of arguments that cannot be used. -/
def codeUsage : Nat := 2
/-- The code of faults that keep a program from running. -/
def codeStatic : Nat := 65
/-- The code of a fault of a running program. -/
def codeRuntime : Nat := 70

/-- What a command leaves. -/
structure Outcome where
  code : Nat := codeSuccess
  output : ByteArray := .empty
  messages : String := ""

/-- Diagnostics as they are reported, each followed by a newline. -/
def report (faults : List Diagnostic) : String :=
  String.join (faults.map fun d => d.text ++ "\n")

/-- The code of the faults that end a run. -/
def codeOf (faults : List Diagnostic) : Nat :=
  if faults.any Diagnostic.isRuntime then codeRuntime else codeStatic

/-- Lines, each followed by a newline. -/
def unlines (lines : List String) : String :=
  String.join (lines.map (· ++ "\n"))

/-- Lists the tokens of a source and reports its lexical faults. -/
def tokenize (source : String) : Outcome :=
  let items := Lexer.items source
  let faults := items.filterMap Lexer.Item.diagnostic?
  { code := if faults = [] then codeSuccess else codeStatic
    output := (unlines (items.filterMap fun i => i.token?.map Token.listing)).toUTF8
    messages := report faults }

/-- Shows the program that a source is. -/
def parse (limit : Limit) (json : Bool) (source : String) : Outcome :=
  match tokens source >>= fun tokens => (parseProgram limit 0 tokens).result with
  | .error faults => { code := codeStatic, messages := report faults }
  | .ok program =>
    let lines :=
      if json then [(Json.array (Stmt.documents program)).pretty 0]
      else program.map Stmt.bracketed
    { output := (unlines lines).toUTF8 }

/-- The outcome of an answer, after which `last` is written if it is a success. -/
def ofAnswer {α : Type} (answer : Answer α) (s : Session) (last : α → String) : Outcome :=
  let written := s.machine.console.output.written
  match answer with
  | .success a => { output := written ++ (last a).toUTF8 }
  | .failure faults => { code := codeOf faults, output := written, messages := report faults }
  | .outOfFuel => { code := codeRuntime, output := written }

/-- Shows the value of the expression that a source is. -/
def evaluate (fuel : Nat) (s : Session) (source : String) : Outcome :=
  let (answer, s) := s.evaluate fuel source
  ofAnswer answer s fun value => value.display ++ "\n"

/-- Runs the program that a source is. -/
def run (fuel : Nat) (s : Session) (source : String) : Outcome :=
  let (answer, s) := s.run fuel source
  ofAnswer answer s fun () => ""

/-! ### Programs line by line -/

/-- What is written before a line is read. -/
def prompt : String := "> "

/-- What happens after one line of the input has been read. -/
inductive Reply where
  /-- The line was run as a program, with these messages. -/
  | next (messages : String) (s : Session)
  /-- There is nothing more to run. -/
  | ended
  | failed (f : Failure)

/-- Runs one line of the input; an empty one is the last. -/
def reply (fuel : Nat) (line : Line) (s : Session) : Reply :=
  match line with
  | .ended => .ended
  | .unreadable => .failed .inputNotText
  | .text source =>
    if source = "" then .ended
    else
      let (answer, s) := s.run fuel source
      match answer with
      | .failure faults => .next (report faults) s
      | _ => .next "" s

/-- The session after the prompt has been written. -/
def prompted (s : Session) : Session :=
  { s with machine.console := (s.machine.console.print prompt).2 }

/-- Runs lines of the input as one program after another; a fault ends no more than its line. -/
def converse (fuel : Nat) (s : Session) (messages : String) : List (List UInt8) → Outcome
  | [] => { output := (prompted s).machine.console.output.written, messages }
  | bytes :: rest =>
    let s := prompted s
    match reply fuel (.ofBytes bytes) s with
    | .next more s => converse fuel s (messages ++ more) rest
    | .ended => { output := s.machine.console.output.written, messages }
    | .failed f =>
      { code := codeFailure
        output := s.machine.console.output.written
        messages := messages ++ f.text }

/-! ### Commands -/

/-- A source that may read the input: the function for it is named in it. -/
def mentionsInput (source : String) : Bool :=
  (Lexer.items source).any fun i => i.token?.any (·.lexeme = Native.readln.name)

/-- What a notice leaves. -/
def Notice.outcome : Notice → Outcome
  | .unusable => { code := codeUsage, messages := Topic.program.text }
  | .help topic => { output := topic.text.toUTF8 }
  | .version => { output := versionText.toUTF8 }

/-- What an invocation leaves, given the readings of the clock. -/
def Invocation.execute (i : Invocation) (fuel : Nat) (files : Files) (input : List UInt8)
    (clock : Nat → Float) : Outcome :=
  let session (input : List UInt8) : Session :=
    { limit := i.limit, machine := .fresh { input } clock }
  let withText (name : String) (act : String → Outcome) : Outcome :=
    match readText files name with
    | .ok source => act source
    | .error f => { code := codeFailure, messages := f.text }
  match i.command with
  | .tokenize file => withText file tokenize
  | .parse file json => withText file (parse i.limit json)
  | .evaluate file => withText file (evaluate fuel (session input))
  | .run (some file) => withText file (run fuel (session input))
  | .run none => converse fuel (session []) "" (Line.pieces input)

end Lox.CommandLine
