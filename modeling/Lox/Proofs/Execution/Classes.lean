import Lox.Evaluation

/-!
Classes and what they give to objects. A class body declares a method by the last of its routines
with that name, and what it does not declare is the superclass's (`Class.method?_declared`). A property
is a field, else a method that is bound to the object in a scope of its own (`Value.property_object`).
-/

namespace Lox

/-! ### Methods -/

/-- The routine that a class body declares a method of this name by. -/
def lastNamed (methods : List Routine) (name : String) : Option Routine :=
  (methods.filter fun r => r.name.lexeme = name).getLast?

section

variable {E : Type}

theorem lastNamed_eq_find? (methods : List Routine) (name : String) :
    lastNamed methods name = methods.reverse.find? fun r => r.name.lexeme = name := by
  rw [lastNamed, List.getLast?_eq_head?_reverse, ← List.filter_reverse, List.head?_filter]

theorem mem_of_lastNamed {methods : List Routine} {name : String} {r : Routine}
    (h : lastNamed methods name = some r) : r ∈ methods ∧ r.name.lexeme = name := by
  have hmem := List.mem_of_getLast? h
  rw [List.mem_filter] at hmem
  exact ⟨hmem.1, of_decide_eq_true hmem.2⟩

/-- A class body binds each name to the last routine of that name. -/
theorem get?_methodLayer (e : E) (methods : List Routine) (name : String) :
    (methodLayer e methods).get? name
      = (lastNamed methods name).map fun r => ⟨r, e, r.isInitializer⟩ := by
  rw [methodLayer, Bindings.get?_foldl_set_eq_find?, ← lastNamed_eq_find?, Bindings.get?_nil,
    Option.or_none]

/-- A class with these methods of its own, and all others of a superclass. -/
def Class.declared (name : String) (e : E) (methods : List Routine)
    (superclass : Option (Class E)) : Class E :=
  ⟨name, methodLayer e methods :: (superclass.map Class.layers).getD []⟩

theorem Class.method?_declared (className : String) (e : E) (methods : List Routine)
    (superclass : Option (Class E)) (name : String) :
    (Class.declared className e methods superclass).method? name
      = ((lastNamed methods name).map fun r => ⟨r, e, r.isInitializer⟩).or
          (superclass.bind (·.method? name)) := by
  unfold Class.method? Class.declared
  rw [List.findSome?_cons, get?_methodLayer]
  cases lastNamed methods name with
  | some r => rfl
  | none => cases superclass <;> rfl

end

/-! ### Properties -/

/-- A property of an object is a field, else the nearest method, bound to the object in a scope of
its own; that neither is there is a fault. -/
theorem Value.property_object (id : Nat) (c : Class) (name : Token) (m : Machine) :
    (Value.object id c).property name m =
      match (m.store.fields id).get? name.lexeme, c.method? name.lexeme with
      | some field, _ => .ok field m
      | none, some method =>
        .ok (.function m.nextIdentity
            { method with environment := m.store.scopes.size :: method.environment })
          { m with
            store := m.store.push [("this", .object id c)]
            nextIdentity := m.nextIdentity + 1 }
      | none, none => .error (.fault name.line (.undefinedProperty name.lexeme)) m := by
  simp only [Value.property, Class.boundMethod, Bind.bind, EStateM.bind, Run.field?]
  cases (m.store.fields id).get? name.lexeme with
  | some field => rfl
  | none => cases c.method? name.lexeme <;> rfl

/-! ### Declarations -/

namespace Machine

variable (m : Machine) (name : Token) (superclass : Option (Value × Class))

/-- The environment of the methods of a class that is declared. -/
def methodEnvironment : Environment :=
  match superclass with
  | none => m.environment
  | some _ => m.store.scopes.size :: m.environment

/-- The store once the scope of `super` is there, if the class has a superclass. -/
def methodStore : Store :=
  let st := m.store.define m.environment name.lexeme .nil
  match superclass with
  | none => st
  | some (value, _) => st.push [("super", value)]

end Machine

section

variable {m : Machine} {i : ScopeId} {outer : Environment}

theorem declareClass_eq (m : Machine) (name : Token) (superclass : Option (Value × Class))
    (methods : List Routine) :
    declareClass name superclass methods m = .ok ()
      { m with
        store := (m.methodStore name superclass).define m.environment name.lexeme
          (.classOf m.nextIdentity (.declared name.lexeme (m.methodEnvironment superclass) methods
            (superclass.map Prod.snd)))
        nextIdentity := m.nextIdentity + 1 } := by
  cases superclass with
  | none => rfl
  | some p =>
    have hsize : (m.store.define m.environment name.lexeme .nil).scopes.size
        = m.store.scopes.size := by
      unfold Store.define
      split <;> simp
    unfold Machine.methodEnvironment
    dsimp only
    rw [← hsize]
    rfl

theorem Machine.lt_size_methodStore (he : m.environment = i :: outer)
    (hi : i < m.store.scopes.size) (name : Token) (superclass : Option (Value × Class)) :
    i < (m.methodStore name superclass).scopes.size := by
  unfold methodStore
  cases superclass with
  | none => simpa [he, Store.define] using hi
  | some p => simpa [he, Store.define] using Nat.lt_succ_of_lt hi

/-- What a class declaration does: the name is bound to a class that has the methods of the body, and
all others of the superclass; and the methods of the body see the superclass as `super`. -/
theorem declareClass_ok (he : m.environment = i :: outer) (hi : i < m.store.scopes.size)
    (name : Token) (superclass : Option (Value × Class)) (methods : List Routine) :
    ∃ m' c, declareClass name superclass methods m = .ok () m'
      ∧ (m'.store.scope i).get? name.lexeme = some (.classOf m.nextIdentity c)
      ∧ (∀ n, c.method? n = ((lastNamed methods n).map fun r =>
          ⟨r, m.methodEnvironment superclass, r.isInitializer⟩).or
            (superclass.bind (·.2.method? n)))
      ∧ ∀ p ∈ superclass, m'.store.getAt (m.methodEnvironment superclass) 0 "super" = .ok p.1 := by
  refine ⟨_, .declared name.lexeme (m.methodEnvironment superclass) methods
    (superclass.map Prod.snd), declareClass_eq m name superclass methods, ?_, fun n => ?_, ?_⟩
  · simp [he, Store.define, Store.get?_scope_setIn, Machine.lt_size_methodStore he hi]
  · rw [Class.method?_declared, Option.bind_map]
    rfl
  · rintro ⟨value, description⟩ rfl
    refine Store.getAt_eq_ok ?_
    have hne : i ≠ m.store.scopes.size := Nat.ne_of_lt hi
    simp [Machine.methodEnvironment, Machine.methodStore, he, Store.define, Store.scope_setIn,
      Store.scope_push, hne, Bindings.get?_cons]

end

end Lox
