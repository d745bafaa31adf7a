import Lox.Diagnostic
import Lox.Value

/-!
The store: what the variables of all scopes and the fields of all objects are bound to. Scopes are
never taken away, and an environment, which lists the scopes from the innermost outward, never
changes; what changes is what a scope binds.
-/

namespace Lox

/-- What variables and fields are bound to. -/
structure Store where
  scopes : Array (Bindings Value) := #[]
  objects : Array (Bindings Value) := #[]

namespace Store

/-! ### Scopes -/

/-- What a scope binds. -/
def scope (st : Store) (i : ScopeId) : Bindings Value :=
  st.scopes[i]?.getD []

/-- Adds a scope, whose place is the number of scopes there were. -/
def push (st : Store) (bindings : Bindings Value) : Store :=
  { st with scopes := st.scopes.push bindings }

/-- Binds a name in one scope. -/
def setIn (st : Store) (i : ScopeId) (name : String) (value : Value) : Store :=
  { st with scopes := st.scopes.modify i (·.set name value) }

theorem scope_setIn (st : Store) (i j : ScopeId) (name : String) (value : Value) :
    (st.setIn i name value).scope j =
      if i = j ∧ j < st.scopes.size then (st.scope j).set name value else st.scope j := by
  unfold setIn scope
  rw [Array.getElem?_modify]
  by_cases hij : i = j
  · by_cases hj : j < st.scopes.size <;> simp [hij, hj]
  · simp [hij]

@[simp] theorem size_setIn (st : Store) (i : ScopeId) (name : String) (value : Value) :
    (st.setIn i name value).scopes.size = st.scopes.size := by
  simp [setIn]

@[simp] theorem size_push (st : Store) (b : Bindings Value) :
    (st.push b).scopes.size = st.scopes.size + 1 := by
  simp [push]

theorem scope_push (st : Store) (b : Bindings Value) (i : ScopeId) :
    (st.push b).scope i = if i = st.scopes.size then b else st.scope i := by
  unfold push scope
  rw [Array.getElem?_push]
  split <;> rfl

theorem scope_eq_nil (st : Store) {i : ScopeId} (h : st.scopes.size ≤ i) : st.scope i = [] := by
  simp [scope, Array.getElem?_eq_none h]

theorem get?_scope_setIn (st : Store) {i : ScopeId} (hi : i < st.scopes.size) (name : String)
    (value : Value) (j : ScopeId) (other : String) :
    ((st.setIn i name value).scope j).get? other =
      if i = j ∧ name = other then some value else (st.scope j).get? other := by
  rw [scope_setIn]
  by_cases hj : i = j
  · subst hj
    simp [hi, Bindings.get?_set]
  · simp [hj]

/-- Binds a name in the innermost scope of an environment. -/
def define (st : Store) (environment : Environment) (name : String) (value : Value) : Store :=
  match environment with
  | [] => st
  | i :: _ => st.setIn i name value

/-- The nearest scope that binds a name. -/
def owner? (st : Store) : Environment → String → Option ScopeId
  | [], _ => none
  | i :: outer, name => if (st.scope i).binds name then some i else st.owner? outer name

/-- The nearest scope that binds a name, a name that is not bound being a fault. -/
def owner (st : Store) (environment : Environment) (name : String) : Except RuntimeFault ScopeId :=
  match st.owner? environment name with
  | some i => .ok i
  | none => .error (.undefinedVariable name)

/-- What a name is bound to in one scope. -/
def getIn (st : Store) (i : ScopeId) (name : String) : Except RuntimeFault Value :=
  match (st.scope i).get? name with
  | some value => .ok value
  | none => .error (.undefinedVariable name)

/-- What a name is bound to in the nearest scope that binds it. -/
def get (st : Store) (environment : Environment) (name : String) : Except RuntimeFault Value := do
  st.getIn (← st.owner environment name) name

/-- Binds a name anew in the nearest scope that binds it. -/
def assign (st : Store) (environment : Environment) (name : String) (value : Value) :
    Except RuntimeFault Store := do
  return st.setIn (← st.owner environment name) name value

end Store

/-- The environment that starts `distance` scopes further out. -/
def Environment.ancestor (environment : Environment) (distance : Nat) :
    Except RuntimeFault Environment :=
  match environment.drop distance with
  | [] => .error .scopeChainTooShort
  | ancestor => .ok ancestor

/-- The scope that stands `distance` scopes further out. -/
def Environment.scopeAt (environment : Environment) (distance : Nat) :
    Except RuntimeFault ScopeId :=
  match environment[distance]? with
  | some i => .ok i
  | none => .error .scopeChainTooShort

/-- The scope at a distance is the innermost one of the ancestor at that distance. -/
theorem Environment.scopeAt_eq_ancestor (environment : Environment) (distance : Nat) :
    environment.scopeAt distance =
      (environment.ancestor distance).bind fun ancestor => ancestor.scopeAt 0 := by
  unfold scopeAt ancestor
  rw [← List.head?_drop]
  cases h : environment.drop distance <;> simp [Except.bind]

namespace Store

/-- What a name is bound to exactly `distance` scopes further out. -/
def getAt (st : Store) (environment : Environment) (distance : Nat) (name : String) :
    Except RuntimeFault Value := do
  st.getIn (← environment.scopeAt distance) name

/-- What a scope at a distance binds is what is read there. -/
theorem getAt_eq_ok {st : Store} {env : Environment} {d : Nat} {name : String} {v : Value}
    (h : env[d]?.bind (fun i => (st.scope i).get? name) = some v) : st.getAt env d name = .ok v := by
  obtain ⟨i, hi, hv⟩ := Option.bind_eq_some_iff.1 h
  simp [getAt, Environment.scopeAt, hi, getIn, hv, Bind.bind, Except.bind]

/-- Binds a name exactly `distance` scopes further out. -/
def assignAt (st : Store) (environment : Environment) (distance : Nat) (name : String)
    (value : Value) : Except RuntimeFault Store := do
  return st.setIn (← environment.scopeAt distance) name value

/-! ### Objects -/

/-- The fields of an object. -/
def fields (st : Store) (id : Nat) : Bindings Value :=
  st.objects[id]?.getD []

/-- Adds an object without fields, whose place is the number of objects there were. -/
def pushObject (st : Store) : Store :=
  { st with objects := st.objects.push [] }

/-- Sets a field of an object. -/
def setField (st : Store) (id : Nat) (name : String) (value : Value) : Store :=
  { st with objects := st.objects.modify id (·.set name value) }

end Store

end Lox
