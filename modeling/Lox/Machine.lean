import Lox.Host
import Lox.Program.Scoping
import Lox.Store

/-!
The machine that runs programs: its state, and the elementary steps that read and change it.
-/

namespace Lox

/-- The environment of the globals alone. -/
def Environment.globals : Environment := [0]

/-- The state of a running program. -/
structure Machine extends Host where
  store : Store
  /-- The environment of the part of the program that is running. -/
  environment : Environment := .globals
  distances : Distances := ∅
  /-- The identity of the next function or class. -/
  nextIdentity : Nat := 0

/-- A run of a part of a program. -/
abbrev Run := EStateM Stop Machine

namespace Machine

/-- The globals before any program has run: they bind the native functions. -/
def initialGlobals : Bindings Value :=
  Native.all.map fun host => (host.name, .native host)

/-- A machine that has run nothing. -/
def fresh (console : Console) (clock : Nat → Float) : Machine where
  store := { scopes := #[initialGlobals] }
  console := console
  clock := clock

/-- Adds the distances of one more program. -/
def addDistances (m : Machine) (distances : Distances) : Machine :=
  { m with distances := m.distances.insertMany distances.toList }

/-- What the name in the expression with this number is bound to: at its distance if it has one,
else in the globals. -/
def lookUp (m : Machine) (id : Nat) (name : String) : Except RuntimeFault Value :=
  match m.distances[id]? with
  | some distance => m.store.getAt m.environment distance name
  | none => m.store.get .globals name

/-- The scope in which the assignment with this number binds the name: the one at its distance if
it has one, else the globals. -/
def assignee (m : Machine) (id : Nat) (name : String) : Except RuntimeFault ScopeId :=
  match m.distances[id]? with
  | some distance => m.environment.scopeAt distance
  | none => m.store.owner .globals name

end Machine

namespace Run

variable {α : Type}

/-- Stops at a fault. -/
def fail (line : Nat) (cause : RuntimeFault) : Run α :=
  throw (.fault line cause)

/-- The result of a computation; its fault is one of the given line. -/
def ofExcept (line : Nat) : Except RuntimeFault α → Run α
  | .ok a => pure a
  | .error cause => fail line cause

/-! ### Scopes -/

/-- Runs something in an environment, and leaves the machine in the one it was in, however the run
ends. -/
def within (environment : Environment) (run : Run α) : Run α := fun m =>
  let outer := m.environment
  match run { m with environment } with
  | .ok a m => .ok a { m with environment := outer }
  | .error stop m => .error stop { m with environment := outer }

/-- The environment that is running. -/
def environment : Run Environment := fun m =>
  .ok m.environment m

/-- Adds a scope inside an environment, and gives the environment within. -/
def extend (outer : Environment) (bindings : Bindings Value) : Run Environment := fun m =>
  .ok (m.store.scopes.size :: outer) { m with store := m.store.push bindings }

/-- Binds a name in the innermost scope that is running. -/
def define (name : String) (value : Value) : Run Unit := fun m =>
  .ok () { m with store := m.store.define m.environment name value }

/-- The distance of the name in the expression with this number. -/
def distance? (id : Nat) : Run (Option Nat) := fun m =>
  .ok m.distances[id]? m

/-- The value of a name that is read by the expression with this number. -/
def lookUp (id : Nat) (name : Token) : Run Value := fun m =>
  ofExcept name.line (m.lookUp id name.lexeme) m

/-- Binds a name as the assignment with this number does. -/
def assign (id : Nat) (name : Token) (value : Value) : Run Unit := fun m =>
  match m.assignee id name.lexeme with
  | .ok i => .ok () { m with store := m.store.setIn i name.lexeme value }
  | .error cause => .error (.fault name.line cause) m

/-- What a name is bound to exactly `distance` scopes further out. -/
def getAt (environment : Environment) (distance : Nat) (name : String) (line : Nat) : Run Value :=
  fun m => ofExcept line (m.store.getAt environment distance name) m

/-! ### Identities and objects -/

/-- An identity that nothing has yet. -/
def newIdentity : Run Nat := fun m =>
  .ok m.nextIdentity { m with nextIdentity := m.nextIdentity + 1 }

/-- Adds an object without fields, and gives its place. -/
def newObject : Run Nat := fun m =>
  .ok m.store.objects.size { m with store := m.store.pushObject }

/-- A field of an object, if it is set. -/
def field? (object : Nat) (name : String) : Run (Option Value) := fun m =>
  .ok ((m.store.fields object).get? name) m

/-- Sets a field of an object. -/
def setField (object : Nat) (name : String) (value : Value) : Run Unit := fun m =>
  .ok () { m with store := m.store.setField object name value }

/-! ### The host -/

/-- Uses the host and nothing else. -/
def ofHost (use : EStateM Stop Host α) : Run α := fun m =>
  match use m.toHost with
  | .ok a host => .ok a { m with toHost := host }
  | .error stop host => .error stop { m with toHost := host }

end Run

end Lox
