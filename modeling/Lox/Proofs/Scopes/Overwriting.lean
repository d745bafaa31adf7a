import Lox.Proofs.Scopes.Sealed

/-!
Assignments declare nothing, with one exception. Whenever an assignment is carried out, the scope in
which it binds the name binds it already, or the name is none of the globals, and then the assignment
fails and changes nothing. The exception is an assignment to a local variable in its own initializer,
as in `var a = a = 1;` inside of a block: the resolver refuses to read the variable there, but not to
assign it, so that the assignment binds the name before the declaration does. That no other assignment
does so is said of a run that stops if one does: it is the run itself
(`Session.Reachable.run_overwriting`).
-/

namespace Lox

/-! ### Names that are bound -/

/-- The scope in which the assignment with this number binds the name binds it already, or the name is
none of the globals. -/
def Machine.overwrites (m : Machine) (id : Nat) (name : String) : Bool :=
  match m.assignee id name with
  | .ok i => (m.store.scope i).binds name
  | .error cause => cause = .undefinedVariable name

/-- What comes of an assignment that declares nothing. -/
inductive Assigned (m : Machine) (name : Token) (value : Value) :
    EStateM.Result Stop Machine Unit → Prop where
  /-- The name is bound anew in a scope that bound it. -/
  | overwritten {i : ScopeId} (bound : (m.store.scope i).binds name.lexeme = true) :
    Assigned m name value (.ok () { m with store := m.store.setIn i name.lexeme value })
  /-- The name is not bound, and everything stays as it was. -/
  | undefined : Assigned m name value (.error (.fault name.line (.undefinedVariable name.lexeme)) m)

theorem Run.assigned_of_overwrites {m : Machine} {id : Nat} {name : Token}
    (h : m.overwrites id name.lexeme = true) (value : Value) :
    Assigned m name value (Run.assign id name value m) := by
  unfold Machine.overwrites at h
  unfold Run.assign
  cases ha : m.assignee id name.lexeme with
  | ok i =>
    rw [ha] at h
    exact .overwritten h
  | error cause =>
    rw [ha] at h
    obtain rfl : cause = .undefinedVariable name.lexeme := of_decide_eq_true h
    exact .undefined

/-- No scope binds a name that it did not bind before. -/
theorem Assigned.sameNames {m : Machine} {name : Token} {value : Value}
    {result : EStateM.Result Stop Machine Unit} (h : Assigned m name value result) :
    m.store.SameNames none (machineOf result).store := by
  intro i _ _
  cases h with
  | overwritten bound =>
    simp only [machineOf, Store.scope_setIn]
    split
    · rename_i hi
      exact Bindings.names_set_of_binds value (hi.1 ▸ bound)
    · rfl
  | undefined => rfl

/-! ### The evaluator that stops -/

/-- An assignment that would declare its name stops the run, unless it is one to the local variable in
whose initializer it stands. -/
def Variant.overwriting (stop : Stop) : Variants := fun own =>
  { assign := fun id name value m =>
      if m.overwrites id name.lexeme ∨ own = some name.lexeme ∧ m.distances[id]? = some 0 then
        Run.assign id name value m
      else .error stop m }

namespace Scopes

/-- An assignment whose name may be read overwrites. -/
theorem Conforms.overwrites {ordered : Prop} {t : Table} {w : World} {m : Machine} {site : Site}
    {id : Nat} {name : String} (hm : Conforms ordered t w m) (hc : Chain w site.scopes m.environment)
    (hg : t.Gives id (site.distanceOf? name)) (hread : site.MayRead name) :
    m.overwrites id name = true := by
  unfold Machine.overwrites
  rcases hm.assignee_cases hc hg with ⟨i, ha, -, hbinds, -⟩ | ha
  · rw [ha]
    exact hm.binds_iff.1 (hbinds hread)
  · rw [ha]
    exact decide_eq_true rfl

/-- No run is stopped. -/
theorem Faithful.overwriting (stop : Stop) : Faithful False (Variant.overwriting stop) where
  lookUp _ _ _ _ _ := rfl
  assign := by
    intro own t w m site id name hm hc hg hassign _ v
    -- What may be read is bound; what may not is the variable in whose initializer the run is.
    refine if_pos (hassign.imp (hm.overwrites hc hg) fun h => ⟨h.1, ?_⟩)
    rw [hm.distances, hg.2, h.2]
  superMethod _ _ _ _ := rfl
  call _ := rfl
  block _ := rfl
  body _ := rfl

end Scopes

namespace Session

variable {s : Session}

/-- In no run of any session does an assignment declare its name, but for those to a local variable in
its own initializer. -/
theorem Reachable.run_overwriting (h : s.Reachable) (fuel : Nat) (source : String) :
    (∀ stop, s.runBy ((Variant.overwriting stop).execute fuel) source = s.run fuel source)
      ∧ ∀ (m : Machine) (id : Nat) (name : Token) (value : Value),
        m.overwrites id name.lexeme = true →
          Assigned m name value (Run.assign id name value m)
            ∧ m.store.SameNames none (machineOf (Run.assign id name value m)).store := by
  refine ⟨fun stop => h.scoped.runBy (.overwriting stop) fuel source, ?_⟩
  intro m id name value hm
  have hassigned := Run.assigned_of_overwrites hm value
  exact ⟨hassigned, hassigned.sameNames⟩

/-- A block assigns its variable what a function gives that assigns one of its own, and then it assigns
a global that is not there. -/
theorem Reachable.run_overwriting_counting :
    let s := (({ machine := .fresh {} fun _ => 0 } : Session).run 12 counting).2
    let source := "\x7b var c = g(); c = g(); b = c; \x7d"
    s.Reachable
      ∧ ((∀ stop, s.runBy ((Variant.overwriting stop).execute 12) source = s.run 12 source)
        ∧ ∀ (m : Machine) (id : Nat) (name : Token) (value : Value),
          m.overwrites id name.lexeme = true →
            Assigned m name value (Run.assign id name value m)
              ∧ m.store.SameNames none (machineOf (Run.assign id name value m)).store)
      ∧ (s.run 12 source).1 = .failure [.runtime 1 (.undefinedVariable "b")] := by
  have h : (({ machine := .fresh {} fun _ => 0 } : Session).run 12 counting).2.Reachable :=
    .run 12 counting (.fresh {} {} fun _ => 0)
  exact ⟨h, h.run_overwriting 12 _, by decide +kernel⟩

/-- The text `( var a = a = 1; )`, with braces for the parentheses. -/
def selfAssigning : String := "\x7b var a = a = 1; \x7d"

/-- The program runs to its end, although its assignment declares the variable: a run that makes no
exception for initializers stops there. -/
theorem run_ne_overwriting_selfAssigning :
    let s : Session := { machine := .fresh {} fun _ => 0 }
    let strict := Variant.overwriting (.fault 1 (.undefinedVariable "a")) none
    s.Reachable ∧ (s.run 9 selfAssigning).1 = .success ()
      ∧ (s.runBy (strict.execute 9) selfAssigning).1
        = .failure [.runtime 1 (.undefinedVariable "a")] := by
  refine ⟨.fresh {} {} fun _ => 0, ?_, ?_⟩ <;> decide +kernel

end Session

end Lox
