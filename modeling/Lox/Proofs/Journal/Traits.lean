import Lox.Proofs.Journal.Journaled

/-!
What all journaled runs have in common. A `Trait` is a condition on journaled runs that holds of the
elementary ones and is kept when runs are put together; then it holds of every evaluation and of every
execution (`Trait.evaluate`, `Trait.execute`), whatever the tree, the table and the machine are. The
elementary runs that list nothing are `Offline`: they do not touch the host.
-/

namespace Lox

/-! ### Runs that do not touch the host -/

/-- The machine with another host. -/
def Machine.withHost (h : Host) (m : Machine) : Machine :=
  { m with toHost := h }

/-- The same result, with another machine. -/
def mapMachine {α : Type} (f : Machine → Machine) :
    EStateM.Result Stop Machine α → EStateM.Result Stop Machine α
  | .ok a m => .ok a (f m)
  | .error stop m => .error stop (f m)

/-- With another host the run does the same, and leaves the host alone. -/
def Run.Offline {α : Type} (r : Run α) : Prop :=
  ∀ h m, r (m.withHost h) = mapMachine (Machine.withHost h) (r m)

namespace Run.Offline

variable {α β : Type} {r : Run α}

/-- What is changed of the host before such a run may as well be changed after it. -/
theorem with_host (hr : r.Offline) (f : Host → Host) (m : Machine) :
    r (m.withHost (f m.toHost)) = mapMachine (fun n => n.withHost (f n.toHost)) (r m) := by
  have hkept : mapMachine (Machine.withHost m.toHost) (r m) = r m := (hr m.toHost m).symm
  rw [hr, ← hkept]
  cases r m <;> rfl

protected theorem pure {a : α} : (pure a : Run α).Offline :=
  fun _ _ => rfl

protected theorem throw (stop : Stop) : (throw stop : Run α).Offline :=
  fun _ _ => rfl

protected theorem fail (line : Nat) (cause : RuntimeFault) : (Run.fail line cause : Run α).Offline :=
  .throw _

protected theorem ofExcept (line : Nat) (x : Except RuntimeFault α) :
    (Run.ofExcept line x).Offline := by
  cases x with
  | ok a => exact .pure
  | error cause => exact .fail line cause

protected theorem bind {next : α → Run β} (hr : r.Offline) (hnext : ∀ a, (next a).Offline) :
    (r >>= next).Offline := by
  intro h m
  have hfirst := hr h m
  cases hm : r m with
  | ok a n =>
    rw [hm] at hfirst
    rw [bind_ok hfirst, bind_ok hm]
    exact hnext a h n
  | error stop n =>
    rw [hm] at hfirst
    rw [bind_error hfirst, bind_error hm]
    rfl

protected theorem map (f : α → β) (hr : r.Offline) : (f <$> r).Offline := by
  rw [map_eq_pure_bind]
  exact hr.bind fun _ => .pure

protected theorem environment : Run.environment.Offline :=
  fun _ _ => rfl

protected theorem extend (outer : Environment) (b : Bindings Value) :
    (Run.extend outer b).Offline :=
  fun _ _ => rfl

protected theorem define (name : String) (v : Value) : (Run.define name v).Offline :=
  fun _ _ => rfl

protected theorem lookUp (id : Nat) (name : Token) : (Run.lookUp id name).Offline :=
  fun h m => Offline.ofExcept name.line (m.lookUp id name.lexeme) h m

protected theorem assign (id : Nat) (name : Token) (v : Value) : (Run.assign id name v).Offline := by
  intro h m
  have hsame : (m.withHost h).assignee id name.lexeme = m.assignee id name.lexeme := rfl
  unfold Run.assign
  rw [hsame]
  cases m.assignee id name.lexeme <;> rfl

protected theorem getAt (environment : Environment) (distance : Nat) (name : String) (line : Nat) :
    (Run.getAt environment distance name line).Offline :=
  fun h m => Offline.ofExcept line (m.store.getAt environment distance name) h m

protected theorem newIdentity : Run.newIdentity.Offline :=
  fun _ _ => rfl

protected theorem newObject : Run.newObject.Offline :=
  fun _ _ => rfl

protected theorem setField (object : Nat) (name : String) (v : Value) :
    (Run.setField object name v).Offline :=
  fun _ _ => rfl

protected theorem boundMethod (c : Class) (name : Token) (object : Value) :
    (c.boundMethod name object).Offline := by
  unfold Class.boundMethod
  split
  · exact .fail name.line _
  · exact ((Offline.extend _ _).bind fun _ => .pure).bind fun _ =>
      Offline.newIdentity.bind fun _ => .pure

protected theorem property (v : Value) (name : Token) : (v.property name).Offline := by
  cases v with
  | object id c =>
    refine Offline.bind (r := Run.field? id name.lexeme) (fun _ _ => rfl) fun field => ?_
    cases field with
    | none => exact .boundMethod c name _
    | some field => exact .pure
  | nil | boolean | number | string | native | function | classOf => exact .fail name.line _

protected theorem superMethod (id : Nat) (keyword method : Token) :
    (superMethod id keyword method).Offline := by
  refine Offline.bind (r := Run.distance? id) (fun _ _ => rfl) fun distance => ?_
  cases distance with
  | none => exact .fail keyword.line _
  | some distance =>
    refine Offline.environment.bind fun e =>
      (Offline.getAt e distance "super" keyword.line).bind fun ancestor => ?_
    cases ancestor with
    | classOf _ ancestor =>
      refine (Offline.getAt e (distance - 1) "this" keyword.line).bind fun object => ?_
      cases object with
      | object id c => exact .boundMethod ancestor method _
      | nil | boolean | number | string | native | function | classOf => exact .fail keyword.line _
    | nil | boolean | number | string | native | function | object => exact .fail keyword.line _

protected theorem declareFunction (routine : Routine) : (declareFunction routine).Offline :=
  Offline.environment.bind fun _ => Offline.newIdentity.bind fun _ => .define _ _

protected theorem declareClass (name : Token) (superclass : Option (Value × Class))
    (methods : List Routine) : (declareClass name superclass methods).Offline := by
  refine (Offline.define name.lexeme .nil).bind fun _ => Offline.environment.bind fun outer => ?_
  cases superclass with
  | none => exact Offline.pure.bind fun _ => Offline.newIdentity.bind fun _ => .define _ _
  | some p => exact (Offline.extend outer _).bind fun _ => Offline.newIdentity.bind fun _ => .define _ _

protected theorem asSuperclass (line : Nat) (v : Value) : (asSuperclass line v).Offline := by
  cases v with
  | classOf _ c => exact .pure
  | nil | boolean | number | string | native | function | object => exact .fail line _

end Run.Offline

/-! ### Traits -/

open Journaled (quiet note)

/-- A condition that holds of the elementary journaled runs and of what is put together from runs of
which it holds. -/
structure Trait where
  Holds : ∀ {α : Type}, Journaled α → Prop
  quiet : ∀ {α : Type} {r : Run α}, r.Offline → Holds (quiet r)
  bind : ∀ {α β : Type} {t : Journaled α} {next : α → Journaled β},
    Holds t → (∀ a, Holds (next a)) → Holds (t >>= next)
  within : ∀ {α : Type} {t : Journaled α} (inside : Environment), Holds t → Holds (t.within inside)
  evaluated : ∀ e, Holds (note (.evaluated e))
  executed : ∀ s, Holds (note (.executed s))
  /-- A function or a class is called. -/
  invoked : ∀ (callee : Callable) (arguments : List Value) (line : Nat),
    (∀ host, callee ≠ .native host) → arguments.length = callee.arity →
      Holds (note (.invoked callee arguments line))
  native : ∀ (host : Native) (arguments : List Value) (line : Nat), arguments.length = host.arity →
    Holds (host.journal arguments line)

namespace Trait

variable (T : Trait)

protected theorem pure {α : Type} (a : α) : T.Holds (pure a : Journaled α) :=
  T.quiet Run.Offline.pure

section

variable {T} {evaluate : Expr → Journaled Value} {execute : Stmt → Journaled Completion}

theorem evaluateEach (hv : ∀ e, T.Holds (evaluate e)) (es : List Expr) :
    T.Holds (Journaled.evaluateEach evaluate es) := by
  induction es with
  | nil => exact T.pure []
  | cons e rest ih => exact T.bind (hv e) fun v => T.bind ih fun vs => T.pure _

theorem executeEach (hx : ∀ s, T.Holds (execute s)) (body : List Stmt) :
    T.Holds (Journaled.executeEach execute body) := by
  induction body with
  | nil => exact T.pure _
  | cons s rest ih =>
    refine T.bind (hx s) fun c => ?_
    cases c with
    | normal => exact ih
    | returned v => exact T.pure _

theorem executeWhile {condition : Journaled Value} {body : Journaled Completion}
    (hcondition : T.Holds condition) (hbody : T.Holds body) (rounds : Nat) :
    T.Holds (Journaled.executeWhile condition body rounds) := by
  induction rounds with
  | zero => exact T.quiet (.throw _)
  | succ rounds ih =>
    refine T.bind hcondition fun v => ?_
    split
    · refine T.bind hbody fun c => ?_
      cases c with
      | normal => exact ih
      | returned v => exact T.pure _
    · exact T.pure _

/-- A function that is called with as many arguments as it has parameters. -/
theorem callClosure (hx : ∀ s, T.Holds (execute s)) (c : Closure) {arguments : List Value}
    (harity : arguments.length = c.arity) (line : Nat) :
    T.Holds (c.journal (Journaled.executeEach execute) arguments line) := by
  refine T.bind (T.invoked (.function c) arguments line nofun harity) fun _ =>
    T.bind (T.quiet (.extend _ _)) fun inside =>
      T.bind (T.within inside (executeEach hx c.routine.body)) fun completion => T.quiet ?_
  split
  · exact .getAt _ _ _ line
  · cases completion <;> exact .pure

/-- A class that is called with as many arguments as its initializer has parameters, if it has one. -/
theorem callClass (hx : ∀ s, T.Holds (execute s)) (c : Class) {arguments : List Value}
    (harity : arguments.length = c.arity) (line : Nat) :
    T.Holds (c.journal (Journaled.executeEach execute) arguments line) := by
  refine T.bind (T.invoked (.classOf c) arguments line nofun harity) fun _ =>
    T.bind (T.quiet .newObject) fun id => ?_
  cases hinit : c.initializer? with
  | none => exact T.pure _
  | some initializer =>
    have harity : arguments.length = initializer.arity := by
      rw [harity, Class.arity, hinit]
      rfl
    exact T.bind (T.quiet (.extend _ _)) fun inside =>
      T.bind (callClosure hx { initializer with environment := inside } harity line) fun _ =>
        T.pure _

theorem call (hx : ∀ s, T.Holds (execute s)) (callee : Value) (arguments : List Value)
    (line : Nat) : T.Holds (callee.journal (Journaled.executeEach execute) arguments line) := by
  unfold Value.journal
  cases callee.callable? with
  | none => exact T.quiet (.fail line _)
  | some c =>
    dsimp only
    split
    · rename_i harity
      cases c with
      | native host => exact T.native host arguments line harity
      | function c => exact callClosure hx c harity line
      | classOf c => exact callClass hx c harity line
    · exact T.quiet (.fail line _)

theorem evaluateBy (hv : ∀ e, T.Holds (evaluate e)) (hx : ∀ s, T.Holds (execute s)) (e : Expr) :
    T.Holds (e.journalBy evaluate execute) := by
  cases e with
  | literal id value => exact T.pure _
  | grouping id inner => exact hv inner
  | unary id operator right =>
    exact T.bind (hv right) fun _ => T.quiet (.ofExcept operator.line _)
  | binary id left operator right =>
    exact T.bind (hv left) fun _ => T.bind (hv right) fun _ => T.quiet (.ofExcept operator.line _)
  | logical id left operator right =>
    refine T.bind (hv left) fun v => ?_
    split
    · exact T.pure _
    · exact hv right
  | var id name => exact T.quiet (.lookUp id name)
  | this id keyword => exact T.quiet (.lookUp id keyword)
  | assign id name right =>
    exact T.bind (hv right) fun v => T.bind (T.quiet (.assign id name v)) fun _ => T.pure _
  | call id callee paren arguments =>
    exact T.bind (hv callee) fun v => T.bind (evaluateEach hv arguments) fun vs =>
      call hx v vs paren.line
  | get id object name => exact T.bind (hv object) fun v => T.quiet (.property v name)
  | set id object name right =>
    refine T.bind (hv object) fun v => ?_
    cases v with
    | object place c =>
      exact T.bind (hv right) fun u => T.bind (T.quiet (.setField place _ u)) fun _ => T.pure _
    | nil | boolean | number | string | native | function | classOf =>
      exact T.quiet (.fail name.line _)
  | super id keyword method => exact T.quiet (.superMethod id keyword method)

theorem executeBy (hv : ∀ e, T.Holds (evaluate e)) (hx : ∀ s, T.Holds (execute s)) (rounds : Nat)
    (s : Stmt) : T.Holds (s.journalBy evaluate execute rounds) := by
  cases s with
  | expression value => exact T.bind (hv value) fun _ => T.pure _
  | varDecl name initializer =>
    have hrest (v : Value) : T.Holds (Journaled.quiet (Run.define name.lexeme v) >>= fun _ =>
        (pure .normal : Journaled Completion)) :=
      T.bind (T.quiet (.define _ v)) fun _ => T.pure _
    cases initializer with
    | none => exact T.bind (T.pure _) hrest
    | some e => exact T.bind (hv e) hrest
  | block body =>
    exact T.bind (T.quiet .environment) fun outer => T.bind (T.quiet (.extend outer [])) fun inside =>
      T.within inside (executeEach hx body)
  | ifThen condition thenBranch =>
    refine T.bind (hv condition) fun v => ?_
    split
    · exact hx thenBranch
    · exact T.pure _
  | ifElse condition thenBranch elseBranch =>
    refine T.bind (hv condition) fun v => ?_
    split
    · exact hx thenBranch
    · exact hx elseBranch
  | whileLoop condition body => exact executeWhile (hv condition) (hx body) rounds
  | funDecl routine => exact T.bind (T.quiet (.declareFunction routine)) fun _ => T.pure _
  | returnValue keyword value =>
    cases value with
    | none => exact T.pure _
    | some e => exact T.bind (hv e) fun _ => T.pure _
  | classDecl name superclass methods =>
    have hrest (p : Option (Value × Class)) : T.Holds
        (Journaled.quiet (declareClass name p methods) >>= fun _ =>
          (pure .normal : Journaled Completion)) :=
      T.bind (T.quiet (.declareClass name p methods)) fun _ => T.pure _
    cases superclass with
    | none => exact T.bind (T.pure _) hrest
    | some e =>
      exact T.bind (hv e) fun v => T.bind (T.quiet ((Run.Offline.asSuperclass _ v).map some)) hrest

end

theorem holds (fuel : Nat) :
    (∀ e, T.Holds (Journaled.evaluate fuel e)) ∧ ∀ s, T.Holds (Journaled.execute fuel s) := by
  induction fuel with
  | zero => exact ⟨fun _ => T.quiet (.throw _), fun _ => T.quiet (.throw _)⟩
  | succ fuel ih =>
    obtain ⟨hv, hx⟩ := ih
    exact ⟨fun e => T.bind (T.evaluated e) fun _ => evaluateBy hv hx e,
      fun s => T.bind (T.executed s) fun _ => executeBy hv hx fuel s⟩

/-- Every evaluation has the trait. -/
theorem evaluate (fuel : Nat) (e : Expr) : T.Holds (Journaled.evaluate fuel e) :=
  (T.holds fuel).1 e

/-- Every execution has the trait. -/
theorem execute (fuel : Nat) (s : Stmt) : T.Holds (Journaled.execute fuel s) :=
  (T.holds fuel).2 s

/-- Every run of a program has the trait. -/
theorem program (fuel : Nat) (p : Program) : T.Holds (Journaled.program fuel p) := by
  induction p with
  | nil => exact T.pure ()
  | cons s rest ih => exact T.bind (T.execute fuel s) fun _ => ih

end Trait

end Lox
