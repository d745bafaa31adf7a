import Lox.Evaluation
import Lox.Proofs.Execution.Runs

/-!
Journals of runs. `Journaled.evaluate` and `Journaled.execute` do what `evaluate` and `execute` do, and
list on the way what they do, in order: every expression and every statement when it begins, and every
call of something that can be called, with its arguments. What is called is listed where it is called,
the initializer of a class after the class itself. Without the journal the runs are the same ones
(`Journaled.run_evaluate`, `Journaled.run_execute`).
-/

namespace Lox

/-! ### What is listed -/

/-- What can be called. -/
inductive Callable where
  | native (host : Native)
  | function (closure : Closure)
  | classOf (description : Class)

/-- The number of arguments of a call. -/
def Callable.arity : Callable → Nat
  | .native host => host.arity
  | .function closure => closure.arity
  | .classOf description => description.arity

/-- What is called when the value is. -/
def Value.callable? : Value → Option Callable
  | .native host => some (.native host)
  | .function _ closure => some (.function closure)
  | .classOf _ description => some (.classOf description)
  | .nil | .boolean _ | .number _ | .string _ | .object _ _ => none

/-- Something that is done in a run. -/
inductive Event where
  /-- The evaluation of an expression begins. -/
  | evaluated (e : Expr)
  /-- The execution of a statement begins. -/
  | executed (s : Stmt)
  /-- Something is called with arguments, by a call on this line. -/
  | invoked (callee : Callable) (arguments : List Value) (line : Nat)

/-- A run that lists what is done. -/
def Journaled (α : Type) : Type :=
  Machine → EStateM.Result Stop Machine α × List Event

namespace Journaled

variable {α β : Type}

instance : Monad Journaled where
  pure a := fun m => (.ok a m, [])
  bind first next := fun m =>
    match first m with
    | (.ok a n, events) => ((next a n).1, events ++ (next a n).2)
    | (.error stop n, events) => (.error stop n, events)

/-- The run without its journal. -/
def run (t : Journaled α) : Run α := fun m => (t m).1

/-- A run in which nothing is listed. -/
def quiet (r : Run α) : Journaled α := fun m => (r m, [])

/-- Lists something. -/
def note (event : Event) : Journaled Unit := fun m => (.ok () m, [event])

/-- Runs in an environment, and puts the one in force again that was there before. -/
def within (inside : Environment) (t : Journaled α) : Journaled α := fun m =>
  (Run.within inside t.run m, (t { m with environment := inside }).2)

theorem bind_ok {t : Journaled α} {next : α → Journaled β} {m n : Machine} {a : α}
    {events : List Event} (h : t m = (.ok a n, events)) :
    (t >>= next) m = ((next a n).1, events ++ (next a n).2) := by
  simp only [Bind.bind, h]

theorem bind_error {t : Journaled α} {next : α → Journaled β} {m n : Machine} {stop : Stop}
    {events : List Event} (h : t m = (.error stop n, events)) :
    (t >>= next) m = (.error stop n, events) := by
  simp only [Bind.bind, h]

instance : LawfulMonad Journaled :=
  LawfulMonad.mk' Journaled
    (fun t => by
      funext m
      show (t >>= pure) m = t m
      rcases ht : t m with ⟨_ | _, events⟩
      · rw [bind_ok ht]
        exact congrArg _ (List.append_nil events)
      · rw [bind_error ht])
    (fun _ _ => rfl)
    (fun t next after => by
      funext m
      rcases ht : t m with ⟨⟨a, n⟩ | ⟨stop, n⟩, events⟩
      · rw [bind_ok ht]
        rcases hnext : next a n with ⟨⟨b, k⟩ | ⟨stop, k⟩, later⟩
        · have hboth : (t >>= next) m = (.ok b k, events ++ later) := by rw [bind_ok ht, hnext]
          rw [bind_ok hboth, bind_ok hnext, List.append_assoc]
        · have hboth : (t >>= next) m = (.error stop k, events ++ later) := by rw [bind_ok ht, hnext]
          rw [bind_error hboth, bind_error hnext]
      · have hboth : (t >>= next) m = (.error stop n, events) := bind_error ht
        rw [bind_error hboth, bind_error ht])

/-- What comes after a note. -/
theorem note_bind (event : Event) (next : Journaled β) (m : Machine) :
    (note event >>= fun _ => next) m = ((next m).1, event :: (next m).2) :=
  rfl

theorem run_note_bind (event : Event) (next : Journaled β) :
    (note event >>= fun _ => next).run = next.run :=
  rfl

theorem run_bind (t : Journaled α) (next : α → Journaled β) :
    (t >>= next).run = t.run >>= fun a => (next a).run := by
  funext m
  rcases ht : t m with ⟨r, events⟩
  have hrun : t.run m = r := congrArg Prod.fst ht
  show ((t >>= next) m).1 = _
  cases r with
  | ok a n =>
    rw [bind_ok ht, Lox.bind_ok hrun]
    rfl
  | error stop n => rw [bind_error ht, Lox.bind_error hrun]

end Journaled

open Journaled (quiet note)

/-! ### Calls -/

/-- Calls a function. -/
def Closure.journal (execute : List Stmt → Journaled Completion) (c : Closure)
    (arguments : List Value) (line : Nat) : Journaled Value := do
  note (.invoked (.function c) arguments line)
  let environment ← quiet (Run.extend c.environment (c.frame arguments))
  let completion ← (execute c.routine.body).within environment
  quiet (if c.isInitializer then Run.getAt c.environment 0 "this" line
    else match completion with
      | .returned value => return value
      | .normal => return .nil)

/-- Makes an instance of a class and sets it up. -/
def Class.journal (execute : List Stmt → Journaled Completion) (c : Class) (arguments : List Value)
    (line : Nat) : Journaled Value := do
  note (.invoked (.classOf c) arguments line)
  let object := Value.object (← quiet Run.newObject) c
  match c.initializer? with
  | none => return object
  | some initializer =>
    let environment ← quiet (Run.extend initializer.environment [("this", object)])
    let _ ← Closure.journal execute { initializer with environment } arguments line
    return object

/-- Calls a native function. -/
def Native.journal (host : Native) (arguments : List Value) (line : Nat) : Journaled Value := do
  note (.invoked (.native host) arguments line)
  quiet (Run.ofHost (host.call arguments line))

/-- Calls something. -/
def Callable.journal (execute : List Stmt → Journaled Completion) (callee : Callable)
    (arguments : List Value) (line : Nat) : Journaled Value :=
  match callee with
  | .native host => host.journal arguments line
  | .function closure => closure.journal execute arguments line
  | .classOf description => description.journal execute arguments line

/-- Calls a value with arguments. -/
def Value.journal (execute : List Stmt → Journaled Completion) (callee : Value)
    (arguments : List Value) (line : Nat) : Journaled Value :=
  match callee.callable? with
  | none => quiet (Run.fail line .notCallable)
  | some callee =>
    if arguments.length = callee.arity then callee.journal execute arguments line
    else quiet (Run.fail line (.wrongArgumentCount callee.arity arguments.length))

/-! ### Expressions and statements -/

namespace Journaled

/-- Evaluates expressions one after the other. -/
def evaluateEach (evaluate : Expr → Journaled Value) : List Expr → Journaled (List Value)
  | [] => return []
  | e :: rest => do
    let value ← evaluate e
    let values ← evaluateEach evaluate rest
    return value :: values

/-- Executes statements up to one that returns. -/
def executeEach (execute : Stmt → Journaled Completion) : List Stmt → Journaled Completion
  | [] => return .normal
  | s :: rest => do
    match ← execute s with
    | .normal => executeEach execute rest
    | .returned value => return .returned value

/-- Executes a body as long as a condition holds and nothing returns. -/
def executeWhile (condition : Journaled Value) (body : Journaled Completion) :
    Nat → Journaled Completion
  | 0 => quiet (throw .outOfFuel)
  | fuel + 1 => do
    if (← condition).isTruthy then
      match ← body with
      | .normal => executeWhile condition body fuel
      | .returned value => return .returned value
    else return .normal

end Journaled

/-- Evaluates an expression, as `Expr.evaluateBy` does. -/
def Expr.journalBy (evaluate : Expr → Journaled Value) (execute : Stmt → Journaled Completion) :
    Expr → Journaled Value
  | .literal _ value => return .ofLiteral value
  | .grouping _ inner => evaluate inner
  | .unary _ operator right => do
    let value ← evaluate right
    quiet (Run.ofExcept operator.line (value.unary operator))
  | .binary _ left operator right => do
    let a ← evaluate left
    let b ← evaluate right
    quiet (Run.ofExcept operator.line (a.binary operator b))
  | .logical _ left operator right => do
    let value ← evaluate left
    if value.decides operator then return value else evaluate right
  | .var id name => quiet (Run.lookUp id name)
  | .this id keyword => quiet (Run.lookUp id keyword)
  | .assign id name right => do
    let value ← evaluate right
    quiet (Run.assign id name value)
    return value
  | .call _ callee paren arguments => do
    let value ← evaluate callee
    let values ← Journaled.evaluateEach evaluate arguments
    value.journal (Journaled.executeEach execute) values paren.line
  | .get _ object name => do
    let value ← evaluate object
    quiet (value.property name)
  | .set _ object name right => do
    match ← evaluate object with
    | .object id _ =>
      let value ← evaluate right
      quiet (Run.setField id name.lexeme value)
      return value
    | _ => quiet (Run.fail name.line .notAnObject)
  | .super id keyword method => quiet (superMethod id keyword method)

/-- Executes a statement, as `Stmt.executeBy` does. -/
def Stmt.journalBy (evaluate : Expr → Journaled Value) (execute : Stmt → Journaled Completion)
    (rounds : Nat) : Stmt → Journaled Completion
  | .expression value => do
    let _ ← evaluate value
    return .normal
  | .varDecl name initializer => do
    let value ← match initializer with
      | some e => evaluate e
      | none => pure .nil
    quiet (Run.define name.lexeme value)
    return .normal
  | .block body => do
    let outer ← quiet Run.environment
    let inside ← quiet (Run.extend outer [])
    (Journaled.executeEach execute body).within inside
  | .ifThen condition thenBranch => do
    if (← evaluate condition).isTruthy then execute thenBranch else return .normal
  | .ifElse condition thenBranch elseBranch => do
    if (← evaluate condition).isTruthy then execute thenBranch else execute elseBranch
  | .whileLoop condition body =>
    Journaled.executeWhile (evaluate condition) (execute body) rounds
  | .funDecl routine => do
    quiet (declareFunction routine)
    return .normal
  | .returnValue _ value => do
    match value with
    | some e => return .returned (← evaluate e)
    | none => return .returned .nil
  | .classDecl name superclass methods => do
    let ancestor ← match superclass with
      | some e => do
        let value ← evaluate e
        quiet (some <$> asSuperclass (e.line?.getD name.line) value)
      | none => pure none
    quiet (declareClass name ancestor methods)
    return .normal

namespace Journaled

mutual

/-- Evaluates an expression. -/
def evaluate : Nat → Expr → Journaled Value
  | 0, _ => quiet (throw .outOfFuel)
  | fuel + 1, e => do
    note (.evaluated e)
    e.journalBy (evaluate fuel) (execute fuel)

/-- Executes a statement. -/
def execute : Nat → Stmt → Journaled Completion
  | 0, _ => quiet (throw .outOfFuel)
  | fuel + 1, s => do
    note (.executed s)
    s.journalBy (evaluate fuel) (execute fuel) fuel

end

/-- Executes the statements of a program. -/
def program (fuel : Nat) : Program → Journaled Unit
  | [] => return ()
  | s :: rest => do
    let _ ← execute fuel s
    program fuel rest

end Journaled

/-! ### Without the journal -/

section

variable {execute : Stmt → Journaled Completion}

theorem Journaled.run_evaluateEach (evaluate : Expr → Journaled Value) (es : List Expr) :
    (evaluateEach evaluate es).run = es.mapM fun e => (evaluate e).run := by
  induction es with
  | nil => rfl
  | cons e rest ih =>
    rw [evaluateEach, List.mapM_cons, run_bind]
    refine bind_congr fun v => ?_
    rw [run_bind, ih]
    rfl

theorem Journaled.run_executeEach (body : List Stmt) :
    (executeEach execute body).run = Lox.executeEach (fun s => (execute s).run) body := by
  induction body with
  | nil => rfl
  | cons s rest ih =>
    rw [executeEach, Lox.executeEach, run_bind]
    refine bind_congr fun c => ?_
    cases c with
    | normal => exact ih
    | returned v => rfl

theorem Journaled.run_executeWhile (condition : Journaled Value) (body : Journaled Completion)
    (rounds : Nat) :
    (executeWhile condition body rounds).run
      = Lox.executeWhile condition.run body.run rounds := by
  induction rounds with
  | zero => rfl
  | succ rounds ih =>
    rw [executeWhile, Lox.executeWhile, run_bind]
    refine bind_congr fun v => ?_
    split
    · rw [run_bind]
      refine bind_congr fun c => ?_
      cases c with
      | normal => exact ih
      | returned v => rfl
    · rfl

theorem Closure.run_journal (c : Closure) (arguments : List Value) (line : Nat) :
    (c.journal (Journaled.executeEach execute) arguments line).run
      = c.call (executeEach fun s => (execute s).run) arguments line := by
  rw [journal, call, Journaled.run_note_bind, Journaled.run_bind]
  refine bind_congr fun environment => ?_
  rw [Journaled.run_bind, ← Journaled.run_executeEach]
  rfl

theorem Class.run_journal (c : Class) (arguments : List Value) (line : Nat) :
    (c.journal (Journaled.executeEach execute) arguments line).run
      = c.instantiate (executeEach fun s => (execute s).run) arguments line := by
  rw [journal, instantiate, Journaled.run_note_bind, Journaled.run_bind]
  refine bind_congr fun id => ?_
  cases c.initializer? with
  | none => rfl
  | some initializer =>
    dsimp only
    rw [Journaled.run_bind, Closure.bind, bind_assoc]
    refine bind_congr fun environment => ?_
    rw [pure_bind, Journaled.run_bind, Closure.run_journal]
    rfl

theorem Value.run_journal (callee : Value) (arguments : List Value) (line : Nat) :
    (callee.journal (Journaled.executeEach execute) arguments line).run
      = callee.call (executeEach fun s => (execute s).run) arguments line := by
  have hchecked (c : Callable) (call : Run Value)
      (hc : (c.journal (Journaled.executeEach execute) arguments line).run = call) :
      (if arguments.length = c.arity then c.journal (Journaled.executeEach execute) arguments line
        else quiet (Run.fail line (.wrongArgumentCount c.arity arguments.length))).run
        = Run.withArity c.arity arguments line call := by
    rw [Run.withArity]
    split
    · exact hc
    · rfl
  cases callee with
  | native host => exact hchecked (.native host) _ rfl
  | function id c => exact hchecked (.function c) _ (c.run_journal arguments line)
  | classOf id c => exact hchecked (.classOf c) _ (c.run_journal arguments line)
  | nil | boolean | number | string | object => rfl

theorem Expr.run_journalBy (evaluate : Expr → Journaled Value) (e : Expr) :
    (e.journalBy evaluate execute).run
      = e.evaluateBy (fun e => (evaluate e).run) fun s => (execute s).run := by
  cases e with
  | literal | grouping | var | this | super => rfl
  | unary id operator right | get id right name =>
    rw [journalBy, evaluateBy, Journaled.run_bind]
    rfl
  | binary id left operator right =>
    rw [journalBy, evaluateBy, Journaled.run_bind]
    refine bind_congr fun a => ?_
    rw [Journaled.run_bind]
    rfl
  | logical id left operator right =>
    rw [journalBy, evaluateBy, Journaled.run_bind]
    refine bind_congr fun v => ?_
    split <;> rfl
  | assign id name right =>
    rw [journalBy, evaluateBy, Journaled.run_bind]
    refine bind_congr fun v => ?_
    rw [Journaled.run_bind]
    rfl
  | call id callee paren arguments =>
    rw [journalBy, evaluateBy, Journaled.run_bind]
    refine bind_congr fun v => ?_
    rw [Journaled.run_bind, Journaled.run_evaluateEach]
    exact bind_congr fun values => v.run_journal values paren.line
  | set id object name right =>
    rw [journalBy, evaluateBy, Journaled.run_bind]
    refine bind_congr fun v => ?_
    cases v with
    | object place c =>
      dsimp only
      rw [Journaled.run_bind]
      refine bind_congr fun u => ?_
      rw [Journaled.run_bind]
      rfl
    | nil | boolean | number | string | native | function | classOf => rfl

theorem Stmt.run_journalBy (evaluate : Expr → Journaled Value) (rounds : Nat) (s : Stmt) :
    (s.journalBy evaluate execute rounds).run
      = s.executeBy (fun e => (evaluate e).run) (fun s => (execute s).run) rounds := by
  cases s with
  | expression value =>
    rw [journalBy, executeBy, Journaled.run_bind]
    rfl
  | varDecl name initializer =>
    cases initializer <;>
    · rw [journalBy, executeBy, Journaled.run_bind]
      refine bind_congr fun v => ?_
      rw [Journaled.run_bind]
      rfl
  | block body =>
    rw [journalBy, executeBy, Journaled.run_bind]
    refine bind_congr fun outer => ?_
    rw [Journaled.run_bind, ← Journaled.run_executeEach]
    rfl
  | ifThen condition thenBranch | ifElse condition thenBranch elseBranch =>
    rw [journalBy, executeBy, Journaled.run_bind]
    refine bind_congr fun v => ?_
    split <;> rfl
  | whileLoop condition body => exact Journaled.run_executeWhile _ _ rounds
  | funDecl routine =>
    rw [journalBy, executeBy, Journaled.run_bind]
    rfl
  | returnValue keyword value =>
    cases value with
    | none => rfl
    | some e =>
      rw [journalBy, executeBy, Journaled.run_bind]
      rfl
  | classDecl name superclass methods =>
    cases superclass with
    | none =>
      rw [journalBy, executeBy, Journaled.run_bind]
      rfl
    | some e =>
      rw [journalBy, executeBy, Journaled.run_bind, map_bind, bind_assoc]
      refine bind_congr fun v => ?_
      rw [Journaled.run_bind]
      refine bind_congr fun ancestor => ?_
      rw [Journaled.run_bind]
      rfl

end

namespace Journaled

theorem run_both (fuel : Nat) :
    (∀ e, (evaluate fuel e).run = Lox.evaluate fuel e)
      ∧ ∀ s, (execute fuel s).run = Lox.execute fuel s := by
  induction fuel with
  | zero => exact ⟨fun _ => rfl, fun _ => rfl⟩
  | succ fuel ih =>
    have hevaluate : (fun e => (evaluate fuel e).run) = Lox.evaluate fuel := funext ih.1
    have hexecute : (fun s => (execute fuel s).run) = Lox.execute fuel := funext ih.2
    constructor
    · intro e
      rw [evaluate, run_note_bind, Expr.run_journalBy, hevaluate, hexecute]
      rfl
    · intro s
      rw [execute, run_note_bind, Stmt.run_journalBy, hevaluate, hexecute]
      rfl

/-- The journal is that of the evaluation. -/
theorem run_evaluate (fuel : Nat) (e : Expr) : (evaluate fuel e).run = Lox.evaluate fuel e :=
  (run_both fuel).1 e

/-- The journal is that of the execution. -/
theorem run_execute (fuel : Nat) (s : Stmt) : (execute fuel s).run = Lox.execute fuel s :=
  (run_both fuel).2 s

/-- The journal is that of the program. -/
theorem run_program (fuel : Nat) (p : Program) :
    (program fuel p).run = p.forM fun s => discard (Lox.execute fuel s) := by
  induction p with
  | nil => rfl
  | cons s rest ih =>
    rw [program, run_bind, run_execute, ih]
    exact (bind_map_left (fun _ => ()) (Lox.execute fuel s)
      fun _ => rest.forM fun s => discard (Lox.execute fuel s)).symm

end Journaled

end Lox
