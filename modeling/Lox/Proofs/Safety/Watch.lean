import Lox.Session

/-!
Watched runs. A `Watch` is a condition that is checked whenever an expression is about to be
evaluated, wherever that happens in the run of a program; where it does not hold the run is stopped.
A watched run that is the same as the run itself says that the condition held at each of these
moments; one that is stopped says that there was a moment when it did not.
-/

namespace Lox

/-! ### What can be seen when an expression is about to be evaluated -/

namespace Value

def isObject : Value → Bool
  | object _ _ => true
  | _ => false

def isClass : Value → Bool
  | classOf _ _ => true
  | _ => false

end Value

namespace Machine

/-- What the scope that stands `distance` scopes further out binds a name to. -/
def bound? (m : Machine) (distance : Nat) (name : String) : Option Value :=
  m.environment[distance]?.bind fun i => (m.store.scope i).get? name

/-- The distances that the table has for the expression lead to what the expression reads: for a
name to a binding, for `this` to an object, and for `super` to a class, around the scope that binds
`this`. Only a name may be without a distance. -/
def readsSafely (m : Machine) : Expr → Bool
  | .var id name => m.distances[id]?.all fun d => (m.bound? d name.lexeme).isSome
  | .this id _ => m.distances[id]?.any fun d => (m.bound? d "this").any Value.isObject
  | .super id _ _ =>
    match m.distances[id]? with
    | some (d + 1) =>
      (m.bound? (d + 1) "super").any Value.isClass && (m.bound? d "this").any Value.isObject
    | _ => false
  | _ => true

/-- The expression reads or assigns a name at a line, has no distance in the table, and the globals
do not bind the name. -/
def misses (m : Machine) (name : String) (line : Nat) : Expr → Bool
  | .var id token | .assign id token _ =>
    token.lexeme = name && token.line = line && m.distances[id]?.isNone
      && !(m.store.scope 0).binds name
  | _ => false

end Machine

/-! ### Watched runs -/

/-- The answer of a run that ends so. -/
def Stop.answer {α : Type} : Stop → Answer α
  | .fault line cause => .failure [.runtime line cause]
  | .outOfFuel => .outOfFuel

/-- A condition, and the stop that ends a run where it does not hold. -/
structure Watch where
  holds : Machine → Expr → Bool
  stop : Stop

namespace Watch

/-- Stops the run unless the condition holds. -/
def check (k : Watch) (e : Expr) : Run Unit := fun m =>
  if k.holds m e then .ok () m else .error k.stop m

mutual

/-- Evaluates an expression and checks the condition before that, also for those in it. -/
def evaluate (k : Watch) : Nat → Expr → Run Value
  | 0, _ => throw .outOfFuel
  | fuel + 1, e => do
    k.check e
    e.evaluateBy (k.evaluate fuel) (k.execute fuel)

/-- Executes a statement and checks the condition before each expression. -/
def execute (k : Watch) : Nat → Stmt → Run Completion
  | 0, _ => throw .outOfFuel
  | fuel + 1, s => s.executeBy (k.evaluate fuel) (k.execute fuel) fuel

end

/-- The watch that stops nothing. -/
def idle : Watch where
  holds _ _ := true
  stop := .outOfFuel

theorem idle_eq (fuel : Nat) : idle.evaluate fuel = Lox.evaluate fuel
    ∧ idle.execute fuel = Lox.execute fuel := by
  induction fuel with
  | zero => exact ⟨rfl, rfl⟩
  | succ fuel ih =>
    obtain ⟨hv, hx⟩ := ih
    constructor
    · funext e
      show (idle.check e >>= fun _ => e.evaluateBy (idle.evaluate fuel) (idle.execute fuel)) = _
      rw [hv, hx]
      rfl
    · funext s
      rw [Watch.execute, hv, hx]
      rfl

/-- The run has been stopped where the condition did not hold, and what is read there is read
safely. -/
def Stopped {α : Type} (k : Watch) (watched : EStateM.Result Stop Machine α) : Prop :=
  (∃ m, watched = .error k.stop m) ∧ ∃ m e, m.readsSafely e = true ∧ k.holds m e = false

/-- The fault is none that scoping rules out, and one of a name without a binding has been raised
where the globals did not bind the name; the condition held there, unless `excused`. -/
def Blames (k : Watch) (excused : Prop) (globals : Bindings Value) : Stop → Prop
  | .outOfFuel => True
  | .fault _ .scopeChainTooShort | .fault _ .superOutsideSubclass => False
  | .fault line (.undefinedVariable name) =>
    name ≠ "this" ∧ name ≠ "super" ∧ globals.binds name = false
      ∧ (excused ∨ ∃ m e, m.misses name line e = true ∧ k.holds m e = true)
  | .fault _ _ => True

theorem Blames.imp {k : Watch} {excused excused' : Prop} {globals : Bindings Value} {stop : Stop}
    (h : k.Blames excused globals stop) (he : excused → excused') :
    k.Blames excused' globals stop := by
  unfold Blames at *
  split
  · trivial
  · exact h
  · exact h
  · exact ⟨h.1, h.2.1, h.2.2.1, h.2.2.2.imp_left he⟩
  · trivial

theorem Blames.excuse {k k' : Watch} {excused excused' : Prop} {globals : Bindings Value}
    {stop : Stop} (h : k.Blames excused globals stop) (he : excused') :
    k'.Blames excused' globals stop := by
  unfold Blames at *
  split
  · trivial
  · exact h
  · exact h
  · exact ⟨h.1, h.2.1, h.2.2.1, .inl he⟩
  · trivial

end Watch

end Lox
