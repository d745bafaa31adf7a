import Lox.Evaluation
import Lox.Program.Parser
import Lox.Token.Lexer

/-!
Sessions: one machine that runs program after program, each of which may use what those before it
have left in the globals. A program goes through three stages, reading its characters, reading its
tokens and finding its scopes; it runs only if all three report nothing, and a stage that reports
something is the last. The numbers of expressions go on from program to program.
-/

namespace Lox

/-- The answer to a program or an expression. -/
inductive Answer (α : Type) where
  | success (value : α)
  /-- The faults of the stage that failed. -/
  | failure (faults : List Diagnostic)
  /-- The fuel was used up. -/
  | outOfFuel
  deriving DecidableEq

/-- The answer that a run of something gives, and the state after it. -/
def Run.answer {σ α : Type} (run : EStateM Stop σ α) (m : σ) : Answer α × σ :=
  match run m with
  | .ok a m => (.success a, m)
  | .error (.fault line cause) m => (.failure [.runtime line cause], m)
  | .error .outOfFuel m => (.outOfFuel, m)

/-- The answer after the output has been flushed, which happens if all went well. -/
def Answer.flushed (answer : Answer Unit) (host : Host) : Answer Unit :=
  match answer with
  | .success () =>
    match host.console.output.flushFault? with
    | none => .success ()
    | some fault => .failure [.output fault]
  | answer => answer

/-- Runs all statements of a program, each by `execute`, and then flushes the output. -/
def Machine.interpretBy (execute : Stmt → Run Completion) (program : Program) (m : Machine) :
    Answer Unit × Machine :=
  let (answer, m) := Run.answer (program.forM fun s => discard (execute s)) m
  (answer.flushed m.toHost, m)

/-- Runs all statements of a program and then flushes the output. -/
def Machine.interpret (fuel : Nat) (program : Program) (m : Machine) : Answer Unit × Machine :=
  m.interpretBy (execute fuel) program

/-- A machine that runs one program after another. -/
structure Session where
  limit : Limit := {}
  /-- The number of the next expression. -/
  nextId : Nat := 0
  machine : Machine

namespace Session

/-- Reads the tokens of a source. The numbers of expressions go on whether it succeeds or not. -/
def parse {α : Type} (parse : Limit → Nat → List Token → Parser.Parsed α) (source : String)
    (s : Session) : Except (List Diagnostic) α × Session :=
  match tokens source with
  | .error faults => (.error faults, s)
  | .ok tokens =>
    let parsed := parse s.limit s.nextId tokens
    (parsed.result, { s with nextId := parsed.nextId })

/-- Runs a program whose distances are known, each statement by `execute`. -/
def interpretBy (execute : Stmt → Run Completion) (program : Program) (distances : Distances)
    (s : Session) : Answer Unit × Session :=
  let (answer, machine) := (s.machine.addDistances distances).interpretBy execute program
  (answer, { s with machine })

/-- Runs a program that has been read, each statement by `execute`. -/
def runProgramBy (execute : Stmt → Run Completion) (program : Program) (s : Session) :
    Answer Unit × Session :=
  match program.distances with
  | .error faults => (.failure faults, s)
  | .ok distances => s.interpretBy execute program distances

/-- Runs a program, each statement by `execute`. -/
def runBy (execute : Stmt → Run Completion) (source : String) (s : Session) :
    Answer Unit × Session :=
  match s.parse parseProgram source with
  | (.error faults, s) => (.failure faults, s)
  | (.ok program, s) => s.runProgramBy execute program

/-- Runs a program. -/
def run (fuel : Nat) (source : String) (s : Session) : Answer Unit × Session :=
  s.runBy (execute fuel) source

/-- Evaluates a single expression, in which every name is one of the globals. -/
def evaluate (fuel : Nat) (source : String) (s : Session) : Answer Value × Session :=
  match s.parse parseExpression source with
  | (.error faults, s) => (.failure faults, s)
  | (.ok e, s) =>
    let (answer, machine) := Run.answer (Lox.evaluate fuel e) s.machine
    (answer, { s with machine })

end Session

end Lox
