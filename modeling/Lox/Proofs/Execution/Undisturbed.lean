import Lox.Proofs.Lexical.Simulation
import Lox.Proofs.Safety.Watch

/-!
What no step of a program changes: the table of distances, and which flushes of its output fail.
`Undisturbed d` is said of a watched run and the run itself: from a machine where these are `d`, they do
the same, and these are `d` after them. So a watch whose condition holds of every machine with this
table never stops a run, whatever the tree of the program is (`Machine.interpretBy_undisturbed`).
-/

namespace Lox

/-- The machine that a result leaves. -/
def machineOf {α : Type} : EStateM.Result Stop Machine α → Machine
  | .ok _ m | .error _ m => m

/-- The host that a result leaves. -/
def hostOf {α : Type} : EStateM.Result Stop Host α → Host
  | .ok _ h | .error _ h => h

/-- Native functions write to the output, and leave it as it is otherwise. -/
theorem Native.flushFails_call (native : Native) (arguments : List Value) (line : Nat) (h : Host) :
    (hostOf (native.call arguments line h)).console.output.flushFails
      = h.console.output.flushFails := by
  have hprint (text : String) :
      (hostOf ((Host.print text line >>= fun _ => (pure .nil : EStateM Stop Host Value)) h)
        ).console.output.flushFails = h.console.output.flushFails := by
    simp only [Bind.bind, EStateM.bind, Host.print]
    cases (h.console.print text).1 <;> rfl
  unfold Native.call
  cases native with
  | clock => rfl
  | print | println => exact hprint _
  | readln =>
    simp only [Bind.bind, EStateM.bind, Host.readLine]
    cases (h.console.readLine).1 <;> rfl
  | parseNum =>
    dsimp only
    cases (arguments.headD .nil).parseNum <;> rfl

/-- The part of a machine that no step of a program changes. -/
structure Machine.Fixed where
  distances : Distances
  flushFails : FlushFaults

/-- The fixed part of the machine. -/
def Machine.fixed (m : Machine) : Machine.Fixed :=
  ⟨m.distances, m.console.output.flushFails⟩

/-- From a machine with this fixed part the watched run does what the run does, and leaves this part
as it is. -/
def Undisturbed (d : Machine.Fixed) {α : Type} (watched run : Run α) : Prop :=
  ∀ m, m.fixed = d → watched m = run m ∧ (machineOf (run m)).fixed = d

namespace Undisturbed

variable {d : Machine.Fixed} {α β : Type} {watched run : Run α}

/-! ### Rules for all runs -/

/-- A run without expressions in it, which leaves the fixed part as it is. -/
theorem of_steady (h : ∀ m, (machineOf (run m)).fixed = m.fixed) : Undisturbed d run run :=
  fun m hm => ⟨rfl, (h m).trans hm⟩

protected theorem pure {a : α} : Undisturbed d (pure a) (pure a) :=
  of_steady fun _ => rfl

protected theorem fail (line : Nat) (cause : RuntimeFault) :
    Undisturbed d (Run.fail line cause : Run α) (Run.fail line cause) :=
  of_steady fun _ => rfl

theorem outOfFuel : Undisturbed d (throw .outOfFuel : Run α) (throw .outOfFuel) :=
  of_steady fun _ => rfl

theorem ofExcept (line : Nat) (x : Except RuntimeFault α) :
    Undisturbed d (Run.ofExcept line x) (Run.ofExcept line x) :=
  of_steady fun _ => by cases x <;> rfl

/-- One run after the other. -/
protected theorem bind {watched' run' : α → Run β} (h : Undisturbed d watched run)
    (hnext : ∀ a, Undisturbed d (watched' a) (run' a)) :
    Undisturbed d (watched >>= watched') (run >>= run') := by
  intro m hm
  obtain ⟨hsame, hafter⟩ := h m hm
  cases hr : run m with
  | ok a n =>
    rw [hr] at hsame hafter
    rw [bind_ok hsame, bind_ok hr]
    exact hnext a n hafter
  | error stop n =>
    rw [hr] at hsame hafter
    rw [bind_error hsame, bind_error hr]
    exact ⟨rfl, hafter⟩

theorem map (f : α → β) (h : Undisturbed d watched run) :
    Undisturbed d (f <$> watched) (f <$> run) := by
  rw [map_eq_pure_bind, map_eq_pure_bind]
  exact h.bind fun a => .pure

protected theorem discard (h : Undisturbed d watched run) :
    Undisturbed d (discard watched) (discard run) :=
  h.map _

/-- A run inside another environment. -/
theorem within (environment : Environment) (h : Undisturbed d watched run) :
    Undisturbed d (Run.within environment watched) (Run.within environment run) := by
  intro m hm
  obtain ⟨hsame, hafter⟩ := h { m with environment } hm
  cases hr : run { m with environment } with
  | ok a n =>
    rw [hr] at hsame hafter
    rw [within_ok hsame, within_ok hr]
    exact ⟨rfl, hafter⟩
  | error stop n =>
    rw [hr] at hsame hafter
    rw [within_error hsame, within_error hr]
    exact ⟨rfl, hafter⟩

/-- The same runs on all members of a list. -/
theorem mapM {σ : Type} {k k' : σ → Run α} (h : ∀ x, Undisturbed d (k x) (k' x)) (xs : List σ) :
    Undisturbed d (xs.mapM k) (xs.mapM k') := by
  induction xs with
  | nil => exact .pure
  | cons x xs ih =>
    rw [List.mapM_cons, List.mapM_cons]
    exact (h x).bind fun a => ih.bind fun as => .pure

theorem forM {σ : Type} {k k' : σ → Run Unit} (h : ∀ x, Undisturbed d (k x) (k' x))
    (xs : List σ) : Undisturbed d (xs.forM k) (xs.forM k') := by
  induction xs with
  | nil => exact .pure
  | cons x xs ih => exact (h x).bind fun _ => ih

/-! ### Steps of the machine -/

theorem environment : Undisturbed d Run.environment Run.environment :=
  of_steady fun _ => rfl

theorem extend (outer : Environment) (b : Bindings Value) :
    Undisturbed d (Run.extend outer b) (Run.extend outer b) :=
  of_steady fun _ => rfl

theorem define (name : String) (v : Value) :
    Undisturbed d (Run.define name v) (Run.define name v) :=
  of_steady fun _ => rfl

theorem lookUp (id : Nat) (name : Token) :
    Undisturbed d (Run.lookUp id name) (Run.lookUp id name) :=
  fun m => ofExcept name.line (m.lookUp id name.lexeme) m

theorem assign (id : Nat) (name : Token) (v : Value) :
    Undisturbed d (Run.assign id name v) (Run.assign id name v) := by
  refine of_steady fun m => ?_
  unfold Run.assign
  split <;> rfl

theorem getAt (environment : Environment) (distance : Nat) (name : String) (line : Nat) :
    Undisturbed d (Run.getAt environment distance name line)
      (Run.getAt environment distance name line) :=
  fun m => ofExcept line (m.store.getAt environment distance name) m

theorem newIdentity : Undisturbed d Run.newIdentity Run.newIdentity :=
  of_steady fun _ => rfl

theorem ofHost {use : EStateM Stop Host α}
    (hu : ∀ h, (hostOf (use h)).console.output.flushFails = h.console.output.flushFails) :
    Undisturbed d (Run.ofHost use) (Run.ofHost use) := by
  refine of_steady fun m => ?_
  have hflush := hu m.toHost
  unfold Run.ofHost
  cases hr : use m.toHost with
  | ok a h | error stop h =>
    rw [hr] at hflush
    exact congrArg (Machine.Fixed.mk m.distances) hflush

/-! ### Calls and properties -/

variable {watch exec : Stmt → Run Completion}

theorem executeEach (hx : ∀ s, Undisturbed d (watch s) (exec s)) (body : List Stmt) :
    Undisturbed d (Lox.executeEach watch body) (Lox.executeEach exec body) := by
  induction body with
  | nil => exact .pure
  | cons s rest ih =>
    refine (hx s).bind fun c => ?_
    cases c with
    | normal => exact ih
    | returned v => exact .pure

theorem callClosure (hx : ∀ s, Undisturbed d (watch s) (exec s)) (c : Closure)
    (arguments : List Value) (line : Nat) :
    Undisturbed d (c.call (Lox.executeEach watch) arguments line)
      (c.call (Lox.executeEach exec) arguments line) := by
  refine (Undisturbed.extend _ _).bind fun environment => ?_
  refine ((Undisturbed.executeEach hx c.routine.body).within environment).bind fun completion => ?_
  split
  · exact .getAt _ _ _ line
  · cases completion with
    | normal => exact .pure
    | returned v => exact .pure

theorem bindMethod (c : Closure) (object : Value) :
    Undisturbed d (c.bind object) (c.bind object) :=
  (Undisturbed.extend _ _).bind fun _ => .pure

theorem instantiate (hx : ∀ s, Undisturbed d (watch s) (exec s)) (c : Class)
    (arguments : List Value) (line : Nat) :
    Undisturbed d (c.instantiate (Lox.executeEach watch) arguments line)
      (c.instantiate (Lox.executeEach exec) arguments line) := by
  have hobject : Undisturbed d Run.newObject Run.newObject := of_steady fun _ => rfl
  refine hobject.bind fun id => ?_
  cases c.initializer? with
  | none => exact .pure
  | some initializer =>
    refine (bindMethod initializer (.object id c)).bind fun bound => ?_
    exact (callClosure hx bound arguments line).bind fun _ => .pure

theorem withArity (arity : Nat) (arguments : List Value) (line : Nat) {call call' : Run Value}
    (h : Undisturbed d call call') :
    Undisturbed d (Run.withArity arity arguments line call)
      (Run.withArity arity arguments line call') := by
  unfold Run.withArity
  split
  · exact h
  · exact .fail line _

theorem call (hx : ∀ s, Undisturbed d (watch s) (exec s)) (callee : Value)
    (arguments : List Value) (line : Nat) :
    Undisturbed d (callee.call (Lox.executeEach watch) arguments line)
      (callee.call (Lox.executeEach exec) arguments line) := by
  cases callee with
  | native host => exact withArity _ _ line (ofHost (host.flushFails_call arguments line))
  | function id c => exact withArity _ _ line (callClosure hx c arguments line)
  | classOf id c => exact withArity _ _ line (instantiate hx c arguments line)
  | _ => exact .fail line _

theorem boundMethod (c : Class) (name : Token) (object : Value) :
    Undisturbed d (c.boundMethod name object) (c.boundMethod name object) := by
  unfold Class.boundMethod
  cases c.method? name.lexeme with
  | none => exact .fail name.line _
  | some method => exact (bindMethod method object).bind fun _ => newIdentity.bind fun _ => .pure

theorem property (v : Value) (name : Token) :
    Undisturbed d (v.property name) (v.property name) := by
  cases v with
  | object id c =>
    have hfield : Undisturbed d (Run.field? id name.lexeme) (Run.field? id name.lexeme) :=
      of_steady fun _ => rfl
    refine hfield.bind fun field => ?_
    cases field with
    | none => exact boundMethod c name (.object id c)
    | some field => exact .pure
  | _ => exact .fail name.line _

theorem superMethod (id : Nat) (keyword method : Token) :
    Undisturbed d (Lox.superMethod id keyword method) (Lox.superMethod id keyword method) := by
  have hdistance : Undisturbed d (Run.distance? id) (Run.distance? id) := of_steady fun _ => rfl
  refine hdistance.bind fun distance => ?_
  cases distance with
  | none => exact .fail keyword.line _
  | some distance =>
    refine environment.bind fun e => (getAt e distance "super" keyword.line).bind fun ancestor => ?_
    cases ancestor with
    | classOf _ ancestor =>
      refine (getAt e (distance - 1) "this" keyword.line).bind fun object => ?_
      cases object with
      | object id c => exact boundMethod ancestor method (.object id c)
      | _ => exact .fail keyword.line _
    | _ => exact .fail keyword.line _

/-! ### Declarations -/

theorem declareClass (name : Token) (superclass : Option (Value × Class))
    (methods : List Routine) :
    Undisturbed d (Lox.declareClass name superclass methods)
      (Lox.declareClass name superclass methods) := by
  refine (define name.lexeme .nil).bind fun _ => environment.bind fun outer => ?_
  cases superclass with
  | none =>
    exact Undisturbed.pure.bind fun _ => newIdentity.bind fun id => define name.lexeme _
  | some p =>
    exact (extend outer [("super", p.1)]).bind fun _ =>
      newIdentity.bind fun id => define name.lexeme _

theorem asSuperclass (line : Nat) (v : Value) :
    Undisturbed d (Lox.asSuperclass line v) (Lox.asSuperclass line v) := by
  cases v with
  | classOf id c => exact .pure
  | _ => exact .fail line _

/-! ### Expressions and statements -/

variable {see eval : Expr → Run Value}

theorem evaluateBy (hv : ∀ e, Undisturbed d (see e) (eval e))
    (hx : ∀ s, Undisturbed d (watch s) (exec s)) (e : Expr) :
    Undisturbed d (e.evaluateBy see watch) (e.evaluateBy eval exec) := by
  cases e with
  | literal id value => exact .pure
  | grouping id inner => exact hv inner
  | unary id operator right => exact (hv right).bind fun _ => .ofExcept operator.line _
  | binary id left operator right =>
    exact (hv left).bind fun _ => (hv right).bind fun _ => .ofExcept operator.line _
  | logical id left operator right =>
    refine (hv left).bind fun v => ?_
    split
    · exact .pure
    · exact hv right
  | var id name => exact .lookUp id name
  | this id keyword => exact .lookUp id keyword
  | assign id name value =>
    exact (hv value).bind fun v => (assign id name v).bind fun _ => .pure
  | call id callee paren arguments =>
    exact (hv callee).bind fun v => (mapM hv arguments).bind fun args => call hx v args paren.line
  | get id object name => exact (hv object).bind fun v => property v name
  | set id object name value =>
    refine (hv object).bind fun v => ?_
    cases v with
    | object place c =>
      refine (hv value).bind fun u => ?_
      have hset : Undisturbed d (Run.setField place name.lexeme u)
          (Run.setField place name.lexeme u) := of_steady fun _ => rfl
      exact hset.bind fun _ => .pure
    | _ => exact .fail name.line _
  | super id keyword method => exact .superMethod id keyword method

theorem executeWhile {condition condition' : Run Value} {body body' : Run Completion}
    (hcondition : Undisturbed d condition condition') (hbody : Undisturbed d body body')
    (rounds : Nat) :
    Undisturbed d (Lox.executeWhile condition body rounds)
      (Lox.executeWhile condition' body' rounds) := by
  induction rounds with
  | zero => exact .outOfFuel
  | succ rounds ih =>
    refine hcondition.bind fun v => ?_
    split
    · refine hbody.bind fun c => ?_
      cases c with
      | normal => exact ih
      | returned v => exact .pure
    · exact .pure

theorem executeBy (hv : ∀ e, Undisturbed d (see e) (eval e))
    (hx : ∀ s, Undisturbed d (watch s) (exec s)) (rounds : Nat) (s : Stmt) :
    Undisturbed d (s.executeBy see watch rounds) (s.executeBy eval exec rounds) := by
  cases s with
  | expression value => exact (hv value).bind fun _ => .pure
  | varDecl name initializer =>
    have hrest (v : Value) : Undisturbed d
        (Run.define name.lexeme v >>= fun _ => pure (.normal : Completion))
        (Run.define name.lexeme v >>= fun _ => pure .normal) :=
      (define name.lexeme v).bind fun _ => .pure
    cases initializer with
    | none => exact Undisturbed.pure.bind hrest
    | some e => exact (hv e).bind hrest
  | block body =>
    exact environment.bind fun e => (extend e []).bind fun inside =>
      (executeEach hx body).within inside
  | ifThen condition thenBranch =>
    refine (hv condition).bind fun v => ?_
    split
    · exact hx thenBranch
    · exact .pure
  | ifElse condition thenBranch elseBranch =>
    refine (hv condition).bind fun v => ?_
    split
    · exact hx thenBranch
    · exact hx elseBranch
  | whileLoop condition body => exact executeWhile (hv condition) (hx body) rounds
  | funDecl routine =>
    refine Undisturbed.bind ?_ fun _ => .pure
    exact environment.bind fun e => newIdentity.bind fun id => define routine.name.lexeme _
  | returnValue keyword value =>
    cases value with
    | none => exact .pure
    | some e => exact (hv e).bind fun _ => .pure
  | classDecl name superclass methods =>
    have hrest (p : Option (Value × Class)) : Undisturbed d
        (Lox.declareClass name p methods >>= fun _ => pure (.normal : Completion))
        (Lox.declareClass name p methods >>= fun _ => pure .normal) :=
      (declareClass name p methods).bind fun _ => .pure
    cases superclass with
    | none => exact Undisturbed.pure.bind hrest
    | some e => exact (((hv e).bind fun v => asSuperclass _ v).map some).bind hrest

end Undisturbed

/-! ### Programs -/

section

variable {d : Machine.Fixed} {k : Watch}

/-- All expressions and statements, if the condition holds of every machine with this table. -/
theorem undisturbed (hk : ∀ m e, m.distances = d.distances → k.holds m e = true) (fuel : Nat) :
    (∀ e, Undisturbed d (k.evaluate fuel e) (evaluate fuel e))
      ∧ ∀ s, Undisturbed d (k.execute fuel s) (execute fuel s) := by
  induction fuel with
  | zero => exact ⟨fun _ => .outOfFuel, fun _ => .outOfFuel⟩
  | succ fuel ih =>
    obtain ⟨hv, hx⟩ := ih
    refine ⟨fun e m hm => ?_, fun s => .executeBy hv hx fuel s⟩
    have hcheck : k.check e m = .ok () m := if_pos (hk m e (congrArg Machine.Fixed.distances hm))
    show (k.check e >>= fun _ => e.evaluateBy (k.evaluate fuel) (k.execute fuel)) m = _ ∧ _
    rw [bind_ok hcheck]
    exact Undisturbed.evaluateBy hv hx e m hm

/-- A watch whose condition holds of every machine with the table of this one never stops a program,
and the fixed part is the same after it. -/
theorem Machine.interpretBy_undisturbed {m : Machine}
    (hk : ∀ n e, n.distances = m.distances → k.holds n e = true) (fuel : Nat) (p : Program) :
    m.interpretBy (k.execute fuel) p = m.interpret fuel p
      ∧ (m.interpret fuel p).2.fixed = m.fixed := by
  obtain ⟨hsame, hafter⟩ :=
    Undisturbed.forM (fun s => ((undisturbed (d := m.fixed) hk fuel).2 s).discard) p m rfl
  unfold Machine.interpret Machine.interpretBy Run.answer
  refine ⟨by rw [hsame], ?_⟩
  generalize (p.forM fun s => discard (execute fuel s)) m = r at hafter ⊢
  cases r with
  | ok _ _ => exact hafter
  | error stop _ => cases stop <;> exact hafter

/-- No run of a program changes the fixed part. -/
theorem Machine.fixed_interpret (m : Machine) (fuel : Nat) (p : Program) :
    (m.interpret fuel p).2.fixed = m.fixed :=
  (interpretBy_undisturbed (k := ⟨fun _ _ => true, .outOfFuel⟩) (fun _ _ _ => rfl) fuel p).2

end

end Lox
