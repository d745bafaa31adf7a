import Lox.Proofs.Environments.Chains
import Lox.Proofs.Execution.Classes
import Lox.Proofs.Execution.Kept
import Lox.Proofs.Session.Numbering

/-!
The environment in force is always restored. A block and a call put another environment in force, and
so does the declaration of a class with a superclass while its methods are declared
(`declareClass_eq_entering`). Whatever the tree, the table of distances and the state of the machine
are, the environment is the one from before when the statement, the expression or the call has ended,
by whichever of its ends; so every run of a session begins in the globals. In the environment that is
put back, the class is assigned to the name that was declared for it (`declareClass_eq_assigning`).
-/

namespace Lox

/-- However the run ends, the machine is in the environment in which the run began. -/
def Run.Restores {α : Type} (run : Run α) : Prop :=
  ∀ m, (machineOf (run m)).environment = m.environment

/-! ### Class declarations -/

/-- Puts an environment in force, and does not come back from it. -/
def Run.enter (environment : Environment) : Run Unit := fun m =>
  .ok () { m with environment }

/-- Declares a class as `declareClass` does. The environment around `super` is in force while the
methods are declared, and the one outside is put in force again after that. -/
def declareClassEntering (name : Token) (superclass : Option (Value × Class))
    (methods : List Routine) : Run Unit := do
  Run.define name.lexeme .nil
  let outer ← Run.environment
  match superclass with
  | none => pure ()
  | some (value, _) => Run.enter (← Run.extend outer [("super", value)])
  let own := methodLayer (← Run.environment) methods
  Run.enter outer
  let inherited := match superclass with
    | none => []
    | some (_, description) => description.layers
  Run.define name.lexeme (.classOf (← Run.newIdentity) ⟨name.lexeme, own :: inherited⟩)

theorem declareClass_eq_entering (name : Token) (superclass : Option (Value × Class))
    (methods : List Routine) :
    declareClass name superclass methods = declareClassEntering name superclass methods := by
  funext m
  cases superclass <;> rfl

/-- Assigns to a name where a walk outward from the environment in force finds it. -/
def Run.assignNearest (name : Token) (value : Value) : Run Unit := fun m =>
  match m.store.assign m.environment name.lexeme value with
  | .ok store => .ok () { m with store }
  | .error cause => .error (.fault name.line cause) m

/-- Declares a class, and assigns it to the name that has been bound to `nil` before. -/
def declareClassAssigning (name : Token) (superclass : Option (Value × Class))
    (methods : List Routine) : Run Unit := do
  Run.define name.lexeme .nil
  let outer ← Run.environment
  match superclass with
  | none => pure ()
  | some (value, _) => Run.enter (← Run.extend outer [("super", value)])
  let own := methodLayer (← Run.environment) methods
  Run.enter outer
  let inherited := match superclass with
    | none => []
    | some (_, description) => description.layers
  Run.assignNearest name (.classOf (← Run.newIdentity) ⟨name.lexeme, own :: inherited⟩)

/-- A walk outward ends at once if the innermost scope binds the name. -/
theorem Run.assignNearest_eq_define {m : Machine} {i : ScopeId} {outer : Environment} {name : Token}
    (he : m.environment = i :: outer) (hbinds : (m.store.scope i).binds name.lexeme = true)
    (value : Value) : Run.assignNearest name value m = Run.define name.lexeme value m := by
  have howner : m.store.owner? m.environment name.lexeme = some i := by
    rw [he, Store.owner?, if_pos hbinds]
  rw [Run.assignNearest, Store.assign_eq_of_owner? howner, Run.define, he]
  rfl

/-- In an environment with an innermost scope, the class that is bound there is assigned to its name:
the walk outward from there finds the `nil` that has been bound first. -/
theorem declareClass_eq_assigning {m : Machine} {i : ScopeId} {outer : Environment}
    (he : m.environment = i :: outer) (hi : i < m.store.scopes.size) (name : Token)
    (superclass : Option (Value × Class)) (methods : List Routine) :
    declareClass name superclass methods m = declareClassAssigning name superclass methods m := by
  have hbinds : ((m.methodStore name superclass).scope i).binds name.lexeme = true := by
    have hne : i ≠ m.store.scopes.size := Nat.ne_of_lt hi
    cases superclass <;>
      simp [Machine.methodStore, he, Store.define, Store.scope_setIn, Store.scope_push, hne, hi,
        Bindings.binds_set]
  -- both bind the same class, on the machine on which the methods have been declared
  let before : Machine :=
    { m with store := m.methodStore name superclass, nextIdentity := m.nextIdentity + 1 }
  rw [declareClass_eq_entering]
  cases superclass with
  | none => exact (Run.assignNearest_eq_define (m := before) he hbinds _).symm
  | some p => exact (Run.assignNearest_eq_define (m := before) he hbinds _).symm

/-! ### Runs -/

/-- The invariant that asks for nothing. -/
def Invariant.top : Invariant :=
  .ofStore (fun _ => True) (fun _ => trivial) (fun _ => trivial) (fun _ => trivial) fun _ => trivial

theorem Invariant.satisfies_top (st : Store) (v : Lox.Value) : Invariant.top.Value st v :=
  v.satisfies_any

/-- A run that keeps an invariant in every environment restores it. -/
theorem Invariant.Keeps.restores {α : Type} {run : Run α} {post : Store → α → Prop}
    (h : ∀ st env, Invariant.top.Keeps st env run post) : Run.Restores run := by
  intro m
  obtain ⟨-, -, hrestored, -⟩ := h m.store m.environment m rfl rfl trivial
  exact hrestored

section

variable (fuel : Nat)

theorem execute_restores (s : Stmt) : Run.Restores (execute fuel s) :=
  Invariant.Keeps.restores fun st env => (Invariant.top.keeps fuel).2 env trivial s trivial st

theorem evaluate_restores (e : Expr) : Run.Restores (evaluate fuel e) :=
  Invariant.Keeps.restores fun st env => (Invariant.top.keeps fuel).1 env trivial e trivial st

/-- A block or a body is executed in an environment of its own. -/
theorem block_restores (inside : Environment) (body : List Stmt) :
    Run.Restores (Run.within inside (executeEach (execute fuel) body)) :=
  Invariant.Keeps.restores fun _ _ => .within
    (.executeEach (Invariant.top.keeps fuel).2 trivial fun _ _ => trivial)

theorem call_restores (callee : Value) (arguments : List Value) (line : Nat) :
    Run.Restores (callee.call (executeEach (execute fuel)) arguments line) :=
  Invariant.Keeps.restores fun st _ => .call (Invariant.top.keeps fuel).2
    (Invariant.satisfies_top st callee) (fun v _ => Invariant.satisfies_top st v) line

theorem callClosure_restores (c : Closure) (arguments : List Value) (line : Nat) :
    Run.Restores (c.call (executeEach (execute fuel)) arguments line) :=
  Invariant.Keeps.restores fun st _ => .callClosure (Invariant.top.keeps fuel).2 ⟨trivial, trivial⟩
    (fun v _ => Invariant.satisfies_top st v) line

theorem instantiate_restores (c : Class) (arguments : List Value) (line : Nat) :
    Run.Restores (c.instantiate (executeEach (execute fuel)) arguments line) :=
  Invariant.Keeps.restores fun st _ => .instantiate (Invariant.top.keeps fuel).2
    (Invariant.satisfies_top st (.classOf 0 c)) (fun v _ => Invariant.satisfies_top st v) line

theorem callNative_restores (native : Native) (arguments : List Value) (line : Nat) :
    Run.Restores (Run.ofHost (native.call arguments line)) := by
  have hcall st env : Invariant.top.Keeps st env (Run.ofHost (native.call arguments line))
      Invariant.top.Value := .callNative native arguments line
  exact Invariant.Keeps.restores hcall

theorem program_restores (p : Program) :
    Run.Restores (p.forM fun s => discard (execute fuel s)) :=
  Invariant.Keeps.restores fun st _ =>
    (Invariant.top.keeps fuel).2.program trivial (fun _ _ => trivial) st

end

/-! ### Sessions -/

/-- The machine after an answer is the one that the run left. -/
theorem Run.answer_machine {α : Type} (run : Run α) (m : Machine) :
    (Run.answer run m).2 = machineOf (run m) := by
  unfold Run.answer
  generalize run m = r
  cases r with
  | ok a m' => rfl
  | error stop m' => cases stop <;> rfl

namespace Session

/-- A run of a session leaves its machine in the environment it was in. -/
theorem environment_run (s : Session) (fuel : Nat) (source : String) :
    (s.run fuel source).2.machine.environment = s.machine.environment := by
  rcases s.run_cases source with ⟨faults, n, -, -, hrun⟩ | ⟨p, d, n, -, hrun⟩
  · rw [Session.run, hrun]
  · rw [Session.run, hrun]
    show (Run.answer (p.forM fun s => discard (execute fuel s))
      (s.machine.addDistances d)).2.environment = _
    rw [Run.answer_machine]
    exact program_restores fuel p (s.machine.addDistances d)

theorem environment_after (s : Session) (runs : List (Nat × String)) :
    (s.after runs).machine.environment = s.machine.environment := by
  induction runs generalizing s with
  | nil => rfl
  | cons entry rest ih =>
    show ((s.run entry.1 entry.2).2.after rest).machine.environment = _
    rw [ih, environment_run]

/-- Statements, blocks, expressions and calls restore the environment however they end, also where
the declaration of a class puts the one around `super` in force; and after any runs, whatever they
failed at, the next one begins in the globals. -/
theorem environment_restored (fuel : Nat) :
    (∀ s, Run.Restores (execute fuel s))
      ∧ (∀ inside body, Run.Restores (Run.within inside (executeEach (execute fuel) body)))
      ∧ (∀ e, Run.Restores (Lox.evaluate fuel e))
      ∧ (∀ (callee : Value) arguments line,
        Run.Restores (callee.call (executeEach (execute fuel)) arguments line))
      ∧ (∀ (c : Closure) arguments line,
        Run.Restores (c.call (executeEach (execute fuel)) arguments line))
      ∧ (∀ (c : Class) arguments line,
        Run.Restores (c.instantiate (executeEach (execute fuel)) arguments line))
      ∧ (∀ (native : Native) (arguments : List Value) line,
        Run.Restores (Run.ofHost (native.call arguments line)))
      ∧ (∀ name superclass methods,
        declareClass name superclass methods = declareClassEntering name superclass methods)
      ∧ ∀ (limit : Limit) (console : Console) (clock : Nat → Float) (runs : List (Nat × String)),
        (({ limit, machine := .fresh console clock } : Session).after runs).machine.environment
          = .globals := by
  refine ⟨execute_restores fuel, block_restores fuel, evaluate_restores fuel, call_restores fuel,
    callClosure_restores fuel, instantiate_restores fuel, callNative_restores,
    declareClass_eq_entering, ?_⟩
  intro limit console clock runs
  exact environment_after _ runs

end Session

end Lox
