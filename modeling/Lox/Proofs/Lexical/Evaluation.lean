import Lox.Session

/-!
Lexical scoping told by names alone: a second meaning of programs, which knows no distances and no
chains of scopes. A local name stands for a location of the memory. Which one is written in a list
of the names in force, which never changes: a declaration allocates a location and puts the name in
front of a new list, a function keeps the list that was in force where it was declared, and what is
declared in a block or a body is forgotten at its end. A name that is not in the list is one of the
globals, which are kept in a table by name.
-/

namespace Lox.Lexical

/-- A place of the memory. -/
abbrev Location := Nat

/-- The local names in force, the latest first, with their locations; `none` outside of all blocks
and bodies, where what is declared is global. -/
abbrev Names := Option (Bindings Location)

namespace Names

/-- The location that a name stands for, if it is a local one. -/
def find? (names : Names) (name : String) : Option Location :=
  names.bind (·.get? name)

/-- The names in force where a block or a body starts. -/
def enter (names : Names) : Names :=
  some (names.getD [])

end Names

/-- The state of a running program. -/
structure State extends Host where
  memory : Array (Value Names) := #[]
  globals : Bindings (Value Names)
  /-- The fields of all objects. -/
  objects : Array (Bindings (Value Names)) := #[]
  /-- The identity of the next function or class. -/
  nextIdentity : Nat := 0

/-- The state before any program has run. -/
def State.fresh (console : Console) (clock : Nat → Float) : State where
  globals := Native.all.map fun host => (host.name, .native host)
  console := console
  clock := clock

/-- A run of a part of a program. -/
abbrev Run := EStateM Stop State

/-! ### Elementary steps -/

section

variable {α : Type}

/-- Stops at a fault. -/
def fail (line : Nat) (cause : RuntimeFault) : Run α :=
  throw (.fault line cause)

/-- The result of a computation; its fault is one of the given line. -/
def ofExcept (line : Nat) : Except RuntimeFault α → Run α
  | .ok a => pure a
  | .error cause => fail line cause

/-- Uses the host and nothing else. -/
def ofHost (use : EStateM Stop Host α) : Run α := fun st =>
  match use st.toHost with
  | .ok a host => .ok a { st with toHost := host }
  | .error stop host => .error stop { st with toHost := host }

end

/-- The value of a name: what its location holds, or what it is bound to in the globals. -/
def read (names : Names) (name : String) (line : Nat) : Run (Value Names) := fun st =>
  match names.find? name with
  | some place => .ok (st.memory[place]?.getD .nil) st
  | none => ofExcept line ((st.globals.get? name).elim (.error (.undefinedVariable name)) .ok) st

/-- Gives a name that is declared a new value. -/
def write (names : Names) (name : Token) (value : Value Names) : Run Unit := fun st =>
  match names.find? name.lexeme with
  | some place => .ok () { st with memory := st.memory.setIfInBounds place value }
  | none =>
    if st.globals.binds name.lexeme then
      .ok () { st with globals := st.globals.set name.lexeme value }
    else .error (.fault name.line (.undefinedVariable name.lexeme)) st

/-- Allocates a location for a name that is declared, unless it is a global one. -/
def declare (names : Names) (name : String) : Run Names := fun st =>
  match names with
  | none => .ok none st
  | some places =>
    .ok (some ((name, st.memory.size) :: places)) { st with memory := st.memory.push .nil }

/-- Gives a name that has just been declared its first value. -/
def settle (names : Names) (name : String) (value : Value Names) : Run Unit := fun st =>
  match names.find? name with
  | some place => .ok () { st with memory := st.memory.setIfInBounds place value }
  | none => .ok () { st with globals := st.globals.set name value }

/-- Declares names with their values, one after the other. -/
def declareEach (names : Names) : List (String × Value Names) → Run Names
  | [] => pure names
  | (name, value) :: rest => do
    let names ← declare names name
    settle names name value
    declareEach names rest

/-- An identity that nothing has yet. -/
def newIdentity : Run Nat := fun st =>
  .ok st.nextIdentity { st with nextIdentity := st.nextIdentity + 1 }

/-- Adds an object without fields, and gives its place. -/
def newObject : Run Nat := fun st =>
  .ok st.objects.size { st with objects := st.objects.push [] }

/-- A field of an object, if it is set. -/
def field? (object : Nat) (name : String) : Run (Option (Value Names)) := fun st =>
  .ok ((st.objects[object]?.getD []).get? name) st

/-- Sets a field of an object. -/
def setField (object : Nat) (name : String) (value : Value Names) : Run Unit := fun st =>
  .ok () { st with objects := st.objects.modify object (·.set name value) }

/-! ### Calls and properties -/

/-- What executes one statement: it gives the names in force after it, and how it is completed. -/
abbrev Executor := Names → Stmt → Run (Names × Completion Names)

/-- Executes statements up to one that returns. -/
def executeEach (execute : Executor) (names : Names) : List Stmt → Run (Completion Names)
  | [] => pure .normal
  | s :: rest => do
    match ← execute names s with
    | (names, .normal) => executeEach execute names rest
    | (_, .returned value) => return .returned value

/-- Calls a function: its parameters are declared among the names it keeps. -/
def callClosure (execute : Executor) (c : Closure Names) (arguments : List (Value Names))
    (line : Nat) : Run (Value Names) := do
  let params := c.routine.params.map Token.lexeme
  let inside ← declareEach c.environment.enter (params.zip arguments)
  let completion ← executeEach execute inside c.routine.body
  if c.isInitializer then read c.environment "this" line
  else match completion with
    | .returned value => return value
    | .normal => return .nil

/-- A method as a function of its own, with `this` declared to be an object. -/
def bind (c : Closure Names) (object : Value Names) : Run (Closure Names) := do
  let environment ← declareEach c.environment.enter [("this", object)]
  return { c with environment }

/-- Makes an instance of a class and sets it up. -/
def instantiate (execute : Executor) (c : Class Names) (arguments : List (Value Names))
    (line : Nat) : Run (Value Names) := do
  let object := Value.object (← newObject) c
  match c.initializer? with
  | none => return object
  | some initializer =>
    let bound ← bind initializer object
    let _ ← callClosure execute bound arguments line
    return object

/-- A call whose number of arguments must be `arity`. -/
def withArity (arity : Nat) (arguments : List (Value Names)) (line : Nat) (call : Run (Value Names)) :
    Run (Value Names) :=
  if arguments.length = arity then call
  else fail line (.wrongArgumentCount arity arguments.length)

/-- Calls a value with arguments. -/
def call (execute : Executor) (callee : Value Names) (arguments : List (Value Names))
    (line : Nat) : Run (Value Names) :=
  match callee with
  | .native host => withArity host.arity arguments line (ofHost (host.call arguments line))
  | .function _ closure =>
    withArity closure.arity arguments line (callClosure execute closure arguments line)
  | .classOf _ description =>
    withArity description.arity arguments line (instantiate execute description arguments line)
  | _ => fail line .notCallable

/-- A method of a class as a value, bound to an object. -/
def boundMethod (c : Class Names) (name : Token) (object : Value Names) : Run (Value Names) :=
  match c.method? name.lexeme with
  | none => fail name.line (.undefinedProperty name.lexeme)
  | some method => do
    let bound ← bind method object
    return .function (← newIdentity) bound

/-- The property of a value: a field of an object, else a method of its class. -/
def property (value : Value Names) (name : Token) : Run (Value Names) := do
  match value with
  | .object id description =>
    match ← field? id name.lexeme with
    | some field => return field
    | none => boundMethod description name value
  | _ => fail name.line .notAnObject

/-- The method that `super` gives: that of the class the name `super` stands for, bound to the
object that `this` stands for. -/
def superMethod (names : Names) (keyword method : Token) : Run (Value Names) := do
  match ← read names "super" keyword.line with
  | .classOf _ ancestor =>
    match ← read names "this" keyword.line with
    | .object object description => boundMethod ancestor method (.object object description)
    | _ => fail keyword.line .notAnObject
  | _ => fail keyword.line .superclassNotAClass

/-! ### Declarations -/

/-- Declares a function, which may call itself by its name. -/
def declareFunction (names : Names) (routine : Routine) : Run Names := do
  let names ← declare names routine.name.lexeme
  settle names routine.name.lexeme (.function (← newIdentity) ⟨routine, names, false⟩)
  return names

/-- Declares a class, whose superclass, if it has one, has been evaluated. Its methods see its name
and, in a class with a superclass, `super`. -/
def declareClass (names : Names) (name : Token) (superclass : Option (Value Names × Class Names))
    (methods : List Routine) : Run Names := do
  let names ← declare names name.lexeme
  settle names name.lexeme .nil
  let inside ← match superclass with
    | none => pure names
    | some (value, _) => declareEach names.enter [("super", value)]
  let inherited := match superclass with
    | none => []
    | some (_, description) => description.layers
  let description := ⟨name.lexeme, methodLayer inside methods :: inherited⟩
  settle names name.lexeme (.classOf (← newIdentity) description)
  return names

/-- A value that stands as a superclass must be a class. -/
def asSuperclass (line : Nat) (value : Value Names) : Run (Value Names × Class Names) :=
  match value with
  | .classOf _ description => pure (value, description)
  | _ => fail line .superclassNotAClass

/-! ### Expressions and statements -/

/-- Executes a body as long as a condition holds and nothing returns. -/
def executeWhile (condition : Run (Value Names)) (body : Run (Names × Completion Names)) :
    Nat → Run (Completion Names)
  | 0 => throw .outOfFuel
  | fuel + 1 => do
    if (← condition).isTruthy then
      match ← body with
      | (_, .normal) => executeWhile condition body fuel
      | (_, .returned value) => return .returned value
    else return .normal

/-- Evaluates an expression: `evaluate` evaluates those in it, and `execute` executes the statements
of the functions it calls. -/
def evaluateBy (evaluate : Names → Expr → Run (Value Names)) (execute : Executor)
    (names : Names) : Expr → Run (Value Names)
  | .literal _ value => return .ofLiteral value
  | .grouping _ inner => evaluate names inner
  | .unary _ operator right => do
    let value ← evaluate names right
    ofExcept operator.line (value.unary operator)
  | .binary _ left operator right => do
    let a ← evaluate names left
    let b ← evaluate names right
    ofExcept operator.line (a.binary operator b)
  | .logical _ left operator right => do
    let value ← evaluate names left
    if value.decides operator then return value else evaluate names right
  | .var _ name => read names name.lexeme name.line
  | .this _ keyword => read names keyword.lexeme keyword.line
  | .assign _ name right => do
    let value ← evaluate names right
    write names name value
    return value
  | .call _ callee paren arguments => do
    let value ← evaluate names callee
    let values ← arguments.mapM (evaluate names)
    call execute value values paren.line
  | .get _ object name => do
    let value ← evaluate names object
    property value name
  | .set _ object name right => do
    match ← evaluate names object with
    | .object id _ =>
      let value ← evaluate names right
      setField id name.lexeme value
      return value
    | _ => fail name.line .notAnObject
  | .super _ keyword method => superMethod names keyword method

/-- Executes a statement: `evaluate` evaluates the expressions and `execute` executes the statements
in it. Only a declaration changes the names in force after it. -/
def executeBy (evaluate : Names → Expr → Run (Value Names)) (execute : Executor) (rounds : Nat)
    (names : Names) : Stmt → Run (Names × Completion Names)
  | .expression value => do
    let _ ← evaluate names value
    return (names, .normal)
  | .varDecl name initializer => do
    let names ← declare names name.lexeme
    let value ← match initializer with
      | some e => evaluate names e
      | none => pure .nil
    settle names name.lexeme value
    return (names, .normal)
  | .block body => do
    let completion ← executeEach execute names.enter body
    return (names, completion)
  | .ifThen condition thenBranch => do
    if (← evaluate names condition).isTruthy then
      let (_, completion) ← execute names thenBranch
      return (names, completion)
    else return (names, .normal)
  | .ifElse condition thenBranch elseBranch => do
    let branch := if (← evaluate names condition).isTruthy then thenBranch else elseBranch
    let (_, completion) ← execute names branch
    return (names, completion)
  | .whileLoop condition body => do
    let completion ← executeWhile (evaluate names condition) (execute names body) rounds
    return (names, completion)
  | .funDecl routine => do
    let names ← declareFunction names routine
    return (names, .normal)
  | .returnValue _ value => do
    let value ← match value with
      | some e => evaluate names e
      | none => pure .nil
    return (names, .returned value)
  | .classDecl name superclass methods => do
    let ancestor ← match superclass with
      | some e => some <$> (evaluate names e >>= asSuperclass (e.line?.getD name.line))
      | none => pure none
    let names ← declareClass names name ancestor methods
    return (names, .normal)

mutual

/-- Evaluates an expression where these names are in force. -/
def evaluate : Nat → Names → Expr → Run (Value Names)
  | 0, _, _ => throw .outOfFuel
  | fuel + 1, names, e => evaluateBy (evaluate fuel) (execute fuel) names e

/-- Executes a statement where these names are in force. -/
def execute : Nat → Names → Stmt → Run (Names × Completion Names)
  | 0, _, _ => throw .outOfFuel
  | fuel + 1, names, s => executeBy (evaluate fuel) (execute fuel) fuel names s

end

/-- Runs all statements of a program, outside of which no name is local, and then flushes the
output. -/
def interpret (fuel : Nat) (program : Program) (st : State) : Answer Unit × State :=
  let (answer, st) := Run.answer (program.forM fun s => discard (execute fuel none s)) st
  (answer.flushed st.toHost, st)

end Lox.Lexical
