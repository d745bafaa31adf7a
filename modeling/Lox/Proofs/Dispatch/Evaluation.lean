import Lox.Proofs.Lexical.Evaluation

/-!
A meaning of programs in which `this` and `super` are no names. Each part of a program stands at a
`Place`, which keeps, beside the local names in force, the object that the method around it is bound
to, and the class that the class around this method was declared with as its superclass. Nothing
changes either of them: a method gets the object when it is bound, its class the superclass when it
is declared, and whatever is nested in a method keeps both. `this` is the object and `super` looks in
the class, so that neither of them ever depends on what the memory holds.
-/

namespace Lox.Dispatch

open Lexical (Location Names)

/-- What makes up a class: its name, and the methods declared in it and in each class it descends
from, its own methods first. -/
structure Lineage (E : Type) where
  name : String
  layers : List (List (String × Closure E))

namespace Lineage

variable {E : Type}

def toClass (l : Lineage E) : Class E := ⟨l.name, l.layers⟩

def ofClass (c : Class E) : Lineage E := ⟨c.name, c.layers⟩

@[simp] theorem toClass_ofClass (c : Class E) : (ofClass c).toClass = c := rfl

end Lineage

/-- Where a part of a program stands. -/
structure Place where
  names : Names
  /-- The object that the method around it is bound to, with the class of the object. -/
  receiver : Option (Nat × Lineage Place) := none
  /-- The superclass of the class that the method around it is declared in. -/
  ancestor : Option (Lineage Place) := none

namespace Place

/-- Outside of all blocks, bodies and classes. -/
def outermost : Place := { names := none }

/-- Where a block or a body starts. -/
def enter (place : Place) : Place :=
  { place with names := place.names.enter }

/-- Where the body of a method starts that is bound to an object. -/
def bindTo (place : Place) (object : Nat) (description : Class Place) : Place :=
  { place with receiver := some (object, .ofClass description) }

/-- Where the methods of a class are declared that has this superclass, or none. -/
def inherit (place : Place) (superclass : Option (Class Place)) : Place :=
  { place with ancestor := superclass.map .ofClass }

end Place

/-- The state of a running program. -/
structure State extends Host where
  memory : Array (Value Place) := #[]
  globals : Bindings (Value Place)
  /-- The fields of all objects. -/
  objects : Array (Bindings (Value Place)) := #[]
  /-- The identity of the next function or class. -/
  nextIdentity : Nat := 0

/-- The state before any program has run. -/
def State.fresh (console : Console) (clock : Nat → Float) : State where
  globals := Native.all.map fun host => (host.name, .native host)
  console := console
  clock := clock

/-- A run of a part of a program. -/
abbrev Run := EStateM Stop State

/-! ### Elementary steps -/

section

variable {α : Type}

/-- Stops at a fault. -/
def fail (line : Nat) (cause : RuntimeFault) : Run α :=
  throw (.fault line cause)

/-- The result of a computation; its fault is one of the given line. -/
def ofExcept (line : Nat) : Except RuntimeFault α → Run α
  | .ok a => pure a
  | .error cause => fail line cause

/-- Uses the host and nothing else. -/
def ofHost (use : EStateM Stop Host α) : Run α := fun st =>
  match use st.toHost with
  | .ok a host => .ok a { st with toHost := host }
  | .error stop host => .error stop { st with toHost := host }

end

/-- The value of a name: what its location holds, or what it is bound to in the globals. -/
def read (place : Place) (name : String) (line : Nat) : Run (Value Place) := fun st =>
  match place.names.find? name with
  | some l => .ok (st.memory[l]?.getD .nil) st
  | none => ofExcept line ((st.globals.get? name).elim (.error (.undefinedVariable name)) .ok) st

/-- Gives a name that is declared a new value. -/
def write (place : Place) (name : Token) (value : Value Place) : Run Unit := fun st =>
  match place.names.find? name.lexeme with
  | some l => .ok () { st with memory := st.memory.setIfInBounds l value }
  | none =>
    if st.globals.binds name.lexeme then
      .ok () { st with globals := st.globals.set name.lexeme value }
    else .error (.fault name.line (.undefinedVariable name.lexeme)) st

/-- Allocates a location for a name that is declared, unless it is a global one. -/
def declare (place : Place) (name : String) : Run Place := fun st =>
  match place.names with
  | none => .ok place st
  | some locations =>
    .ok { place with names := some ((name, st.memory.size) :: locations) }
      { st with memory := st.memory.push .nil }

/-- Gives a name that has just been declared its first value. -/
def settle (place : Place) (name : String) (value : Value Place) : Run Unit := fun st =>
  match place.names.find? name with
  | some l => .ok () { st with memory := st.memory.setIfInBounds l value }
  | none => .ok () { st with globals := st.globals.set name value }

/-- Declares names with their values, one after the other. -/
def declareEach (place : Place) : List (String × Value Place) → Run Place
  | [] => pure place
  | (name, value) :: rest => do
    let place ← declare place name
    settle place name value
    declareEach place rest

/-- The object that the method around this place is bound to. -/
def receiver (place : Place) (line : Nat) : Run (Value Place) :=
  match place.receiver with
  | some (object, description) => pure (.object object description.toClass)
  | none => fail line (.undefinedVariable "this")

/-- An identity that nothing has yet. -/
def newIdentity : Run Nat := fun st =>
  .ok st.nextIdentity { st with nextIdentity := st.nextIdentity + 1 }

/-- Adds an object without fields, and gives its place. -/
def newObject : Run Nat := fun st =>
  .ok st.objects.size { st with objects := st.objects.push [] }

/-- A field of an object, if it is set. -/
def field? (object : Nat) (name : String) : Run (Option (Value Place)) := fun st =>
  .ok ((st.objects[object]?.getD []).get? name) st

/-- Sets a field of an object. -/
def setField (object : Nat) (name : String) (value : Value Place) : Run Unit := fun st =>
  .ok () { st with objects := st.objects.modify object (·.set name value) }

/-! ### Calls and properties -/

/-- What executes one statement: it gives the place after it, and how it is completed. -/
abbrev Executor := Place → Stmt → Run (Place × Completion Place)

/-- Executes statements up to one that returns. -/
def executeEach (execute : Executor) (place : Place) : List Stmt → Run (Completion Place)
  | [] => pure .normal
  | s :: rest => do
    match ← execute place s with
    | (place, .normal) => executeEach execute place rest
    | (_, .returned value) => return .returned value

/-- Calls a function: its parameters are declared where it stands. -/
def callClosure (execute : Executor) (c : Closure Place) (arguments : List (Value Place))
    (line : Nat) : Run (Value Place) := do
  let params := c.routine.params.map Token.lexeme
  let inside ← declareEach c.environment.enter (params.zip arguments)
  let completion ← executeEach execute inside c.routine.body
  if c.isInitializer then receiver c.environment line
  else match completion with
    | .returned value => return value
    | .normal => return .nil

/-- A method as a function of its own, bound to an object of a class. -/
def bind (c : Closure Place) (object : Nat) (description : Class Place) : Closure Place :=
  { c with environment := c.environment.bindTo object description }

/-- Makes an instance of a class and sets it up. -/
def instantiate (execute : Executor) (c : Class Place) (arguments : List (Value Place))
    (line : Nat) : Run (Value Place) := do
  let object ← newObject
  match c.initializer? with
  | none => return .object object c
  | some initializer =>
    let _ ← callClosure execute (bind initializer object c) arguments line
    return .object object c

/-- A call whose number of arguments must be `arity`. -/
def withArity (arity : Nat) (arguments : List (Value Place)) (line : Nat) (call : Run (Value Place)) :
    Run (Value Place) :=
  if arguments.length = arity then call
  else fail line (.wrongArgumentCount arity arguments.length)

/-- Calls a value with arguments. -/
def call (execute : Executor) (callee : Value Place) (arguments : List (Value Place))
    (line : Nat) : Run (Value Place) :=
  match callee with
  | .native host => withArity host.arity arguments line (ofHost (host.call arguments line))
  | .function _ closure =>
    withArity closure.arity arguments line (callClosure execute closure arguments line)
  | .classOf _ description =>
    withArity description.arity arguments line (instantiate execute description arguments line)
  | _ => fail line .notCallable

/-- The nearest method of that name, from a class on, bound to an object of some class. -/
def boundMethod (c : Class Place) (name : Token) (object : Nat) (description : Class Place) :
    Run (Value Place) :=
  match c.method? name.lexeme with
  | none => fail name.line (.undefinedProperty name.lexeme)
  | some method => return .function (← newIdentity) (bind method object description)

/-- The property of a value: a field of an object, else the nearest method, from its class on, bound
to the object. -/
def property (value : Value Place) (name : Token) : Run (Value Place) := do
  match value with
  | .object object description =>
    match ← field? object name.lexeme with
    | some field => return field
    | none => boundMethod description name object description
  | _ => fail name.line .notAnObject

/-- The method that `super` gives: the nearest one, from the superclass of the class around this place
on, bound to the object that the method around this place is bound to. -/
def superMethod (place : Place) (keyword method : Token) : Run (Value Place) :=
  match place.ancestor, place.receiver with
  | some ancestor, some (object, description) =>
    boundMethod ancestor.toClass method object description.toClass
  | _, _ => fail keyword.line .superOutsideSubclass

/-! ### Declarations -/

/-- Declares a function, which may call itself by its name. -/
def declareFunction (place : Place) (routine : Routine) : Run Place := do
  let place ← declare place routine.name.lexeme
  settle place routine.name.lexeme (.function (← newIdentity) ⟨routine, place, false⟩)
  return place

/-- Declares a class, whose superclass, if it has one, has been evaluated: its methods inherit from
it, and find it where they stand. -/
def declareClass (place : Place) (name : Token) (superclass : Option (Class Place))
    (methods : List Routine) : Run Place := do
  let place ← declare place name.lexeme
  settle place name.lexeme .nil
  let own := methodLayer (place.inherit superclass) methods
  let inherited := (superclass.map Class.layers).getD []
  settle place name.lexeme (.classOf (← newIdentity) ⟨name.lexeme, own :: inherited⟩)
  return place

/-- A value that stands as a superclass must be a class. -/
def asSuperclass (line : Nat) (value : Value Place) : Run (Class Place) :=
  match value with
  | .classOf _ description => pure description
  | _ => fail line .superclassNotAClass

/-! ### Expressions and statements -/

/-- Executes a body as long as a condition holds and nothing returns. -/
def executeWhile (condition : Run (Value Place)) (body : Run (Place × Completion Place)) :
    Nat → Run (Completion Place)
  | 0 => throw .outOfFuel
  | fuel + 1 => do
    if (← condition).isTruthy then
      match ← body with
      | (_, .normal) => executeWhile condition body fuel
      | (_, .returned value) => return .returned value
    else return .normal

/-- Evaluates an expression: `evaluate` evaluates those in it, and `execute` executes the statements
of the functions it calls. -/
def evaluateBy (evaluate : Place → Expr → Run (Value Place)) (execute : Executor)
    (place : Place) : Expr → Run (Value Place)
  | .literal _ value => return .ofLiteral value
  | .grouping _ inner => evaluate place inner
  | .unary _ operator right => do
    let value ← evaluate place right
    ofExcept operator.line (value.unary operator)
  | .binary _ left operator right => do
    let a ← evaluate place left
    let b ← evaluate place right
    ofExcept operator.line (a.binary operator b)
  | .logical _ left operator right => do
    let value ← evaluate place left
    if value.decides operator then return value else evaluate place right
  | .var _ name => read place name.lexeme name.line
  | .this _ keyword => receiver place keyword.line
  | .assign _ name right => do
    let value ← evaluate place right
    write place name value
    return value
  | .call _ callee paren arguments => do
    let value ← evaluate place callee
    let values ← arguments.mapM (evaluate place)
    call execute value values paren.line
  | .get _ object name => do
    let value ← evaluate place object
    property value name
  | .set _ object name right => do
    match ← evaluate place object with
    | .object id _ =>
      let value ← evaluate place right
      setField id name.lexeme value
      return value
    | _ => fail name.line .notAnObject
  | .super _ keyword method => superMethod place keyword method

/-- Executes a statement: `evaluate` evaluates the expressions and `execute` executes the statements
in it. Only a declaration changes the names in force after it. -/
def executeBy (evaluate : Place → Expr → Run (Value Place)) (execute : Executor) (rounds : Nat)
    (place : Place) : Stmt → Run (Place × Completion Place)
  | .expression value => do
    let _ ← evaluate place value
    return (place, .normal)
  | .varDecl name initializer => do
    let place ← declare place name.lexeme
    let value ← match initializer with
      | some e => evaluate place e
      | none => pure .nil
    settle place name.lexeme value
    return (place, .normal)
  | .block body => do
    let completion ← executeEach execute place.enter body
    return (place, completion)
  | .ifThen condition thenBranch => do
    if (← evaluate place condition).isTruthy then
      let (_, completion) ← execute place thenBranch
      return (place, completion)
    else return (place, .normal)
  | .ifElse condition thenBranch elseBranch => do
    let branch := if (← evaluate place condition).isTruthy then thenBranch else elseBranch
    let (_, completion) ← execute place branch
    return (place, completion)
  | .whileLoop condition body => do
    let completion ← executeWhile (evaluate place condition) (execute place body) rounds
    return (place, completion)
  | .funDecl routine => do
    let place ← declareFunction place routine
    return (place, .normal)
  | .returnValue _ value => do
    let value ← match value with
      | some e => evaluate place e
      | none => pure .nil
    return (place, .returned value)
  | .classDecl name superclass methods => do
    let ancestor ← match superclass with
      | some e => some <$> (evaluate place e >>= asSuperclass (e.line?.getD name.line))
      | none => pure none
    let place ← declareClass place name ancestor methods
    return (place, .normal)

mutual

/-- Evaluates an expression that stands at this place. -/
def evaluate : Nat → Place → Expr → Run (Value Place)
  | 0, _, _ => throw .outOfFuel
  | fuel + 1, place, e => evaluateBy (evaluate fuel) (execute fuel) place e

/-- Executes a statement that stands at this place. -/
def execute : Nat → Place → Stmt → Run (Place × Completion Place)
  | 0, _, _ => throw .outOfFuel
  | fuel + 1, place, s => executeBy (evaluate fuel) (execute fuel) fuel place s

end

/-- Runs all statements of a program, which stand outside of everything, and then flushes the
output. -/
def interpret (fuel : Nat) (program : Program) (st : State) : Answer Unit × State :=
  let (answer, st) := Run.answer (program.forM fun s => discard (execute fuel .outermost s)) st
  (answer.flushed st.toHost, st)

/-! ### Places -/

/-- Whenever the run succeeds, its result satisfies a condition. -/
def Gives {α : Type} (run : Run α) (post : α → Prop) : Prop :=
  ∀ st a st', run st = .ok a st' → post a

namespace Gives

variable {α β : Type} {run : Run α} {mid : α → Prop} {post : β → Prop}

protected theorem pure {b : β} (h : post b) : Gives (pure b) post := by
  intro st b' st' hb
  cases hb
  exact h

protected theorem bind {next : α → Run β} (h : Gives run mid)
    (hnext : ∀ a, mid a → Gives (next a) post) : Gives (run >>= next) post := by
  intro st b st' hb
  simp only [Bind.bind, EStateM.bind] at hb
  split at hb
  · rename_i a st₁ ha
    exact hnext a (h st a st₁ ha) st₁ b st' hb
  · cases hb

/-- Whatever comes first, what comes last gives the result. -/
theorem after {next : α → Run β} (h : ∀ a, Gives (next a) post) : Gives (run >>= next) post := by
  have hany : Gives run fun _ => True := fun _ _ _ _ => trivial
  exact hany.bind fun a _ => h a

end Gives

/-- The second place is within the same method as the first one. -/
def Place.SameMethod (place place' : Place) : Prop :=
  place'.receiver = place.receiver ∧ place'.ancestor = place.ancestor

theorem declare_sameMethod (place : Place) (name : String) :
    Gives (declare place name) place.SameMethod := by
  intro st place' st' h
  unfold declare at h
  split at h <;> cases h <;> exact ⟨rfl, rfl⟩

theorem declareFunction_sameMethod (place : Place) (routine : Routine) :
    Gives (declareFunction place routine) place.SameMethod :=
  (declare_sameMethod place _).bind fun _ h => .after fun _ => .after fun _ => .pure h

theorem declareClass_sameMethod (place : Place) (name : Token) (superclass : Option (Class Place))
    (methods : List Routine) : Gives (declareClass place name superclass methods) place.SameMethod :=
  (declare_sameMethod place _).bind fun _ h =>
    .after fun _ => .after fun _ => .after fun _ => .pure h

/-- No statement changes what `this` and `super` are for the ones after it. -/
theorem execute_sameMethod (fuel : Nat) (place : Place) (s : Stmt) :
    Gives (execute fuel place s) fun result => place.SameMethod result.1 := by
  have hsame : place.SameMethod place := ⟨rfl, rfl⟩
  cases fuel with
  | zero =>
    intro st result st' h
    cases h
  | succ fuel =>
    show Gives (executeBy (evaluate fuel) (execute fuel) fuel place s) _
    cases s with
    | varDecl name initializer =>
      refine (declare_sameMethod place _).bind fun _ h => ?_
      cases initializer <;> exact .after fun _ => .after fun _ => .pure h
    | funDecl routine => exact (declareFunction_sameMethod place routine).bind fun _ h => .pure h
    | classDecl name superclass methods =>
      have hdeclared (ancestor : Option (Class Place)) :
          Gives (declareClass place name ancestor methods >>= fun place' =>
              pure (place', Completion.normal))
            fun result : Place × Completion Place => place.SameMethod result.1 :=
        (declareClass_sameMethod place name ancestor methods).bind fun _ h => .pure h
      cases superclass <;> exact .after hdeclared
    | ifThen condition thenBranch =>
      refine .after fun v => ?_
      split
      · exact .after fun _ => .pure hsame
      · exact .pure hsame
    | ifElse => exact .after fun _ => .after fun _ => .pure hsame
    | returnValue keyword value => cases value <;> exact .after fun _ => .pure hsame
    | expression | block | whileLoop => exact .after fun _ => .pure hsame

end Lox.Dispatch
