import Lox.Proofs.Journal.Sessions

/-!
Arguments and parameters. Whatever is called in a run, it is called with as many arguments as it takes
(`arguments_match`): natives find what they read, the parameters of a function and its arguments are
paired one to one, and the initializer of a class gets what the class was called with. A call that does
not come to that ends in the machine that the evaluation of its parts has left, and nothing else is done
for it.
-/

namespace Lox

/-! ### What a callee does with its arguments -/

/-- The call of a native function that reads its arguments by their places; nothing if there is none at
a place that it reads. -/
def Native.indexed? (host : Native) (arguments : List Value) (line : Nat) :
    Option (EStateM Stop Host Value) :=
  match host with
  | .clock | .readln => some (host.call [] line)
  | .print | .println | .parseNum => arguments[0]?.map fun argument => host.call [argument] line

/-- With as many arguments as it takes, a native function finds all that it reads. -/
theorem Native.indexed?_eq {host : Native} {arguments : List Value}
    (h : arguments.length = host.arity) (line : Nat) :
    host.indexed? arguments line = some (host.call arguments line) := by
  cases host with
  | clock | readln =>
    obtain rfl := List.eq_nil_of_length_eq_zero h
    rfl
  | print | println | parseNum =>
    obtain ⟨argument, rfl⟩ := List.length_eq_one_iff.1 h
    rfl

/-- The parameters of a function and the arguments are paired one to one. A name is bound to the argument
of the last parameter with this name, and every parameter is bound. -/
structure Closure.Pairs (c : Closure) (arguments : List Value) : Prop where
  unzip : (c.routine.params.zip arguments).unzip = (c.routine.params, arguments)
  get? : ∀ name, (c.frame arguments).get? name
    = ((c.routine.params.zip arguments).reverse.find? fun entry => entry.1.lexeme = name).map Prod.snd
  binds : ∀ p ∈ c.routine.params, (c.frame arguments).binds p.lexeme = true

theorem Closure.pairs {c : Closure} {arguments : List Value} (h : arguments.length = c.arity) :
    c.Pairs arguments := by
  have hlength : c.routine.params.length = arguments.length := h.symm
  have hget (name : String) : (c.frame arguments).get? name
      = ((c.routine.params.zip arguments).reverse.find? fun entry =>
          entry.1.lexeme = name).map Prod.snd := by
    rw [Closure.frame, Bindings.get?_foldl_set_eq_find?, Bindings.get?_nil, Option.or_none]
  refine ⟨List.unzip_zip hlength, hget, fun p hp => ?_⟩
  rw [← List.map_fst_zip (Nat.le_of_eq hlength)] at hp
  obtain ⟨entry, hentry, rfl⟩ := List.mem_map.1 hp
  rw [Bindings.binds, hget, Option.isSome_map, List.find?_isSome]
  exact ⟨entry, List.mem_reverse.2 hentry, decide_eq_true rfl⟩

/-- The callee takes these arguments: there are as many as its arity says, and each of them has its
place. -/
def Callable.Takes (callee : Callable) (arguments : List Value) : Prop :=
  arguments.length = callee.arity ∧
    match callee with
    | .native host => ∀ line, host.indexed? arguments line = some (host.call arguments line)
    | .function closure => closure.Pairs arguments
    | .classOf description =>
      match description.initializer? with
      | none => arguments = []
      | some initializer => initializer.Pairs arguments

theorem Callable.takes {callee : Callable} {arguments : List Value}
    (h : arguments.length = callee.arity) : callee.Takes arguments := by
  refine ⟨h, ?_⟩
  cases callee with
  | native host => exact Native.indexed?_eq h
  | function closure => exact Closure.pairs h
  | classOf description =>
    have harity : arguments.length = (description.initializer?.map Closure.arity).getD 0 := h
    dsimp only
    cases hinit : description.initializer? with
    | none =>
      rw [hinit] at harity
      exact List.eq_nil_of_length_eq_zero harity
    | some initializer =>
      rw [hinit] at harity
      exact Closure.pairs harity

/-! ### Everything that is called -/

/-- Everything that is called takes its arguments. -/
def TakesAll (events : List Event) : Prop :=
  ∀ callee arguments line, .invoked callee arguments line ∈ events → callee.Takes arguments

theorem TakesAll.nil : TakesAll [] :=
  fun _ _ _ h => nomatch h

theorem TakesAll.append {events later : List Event} (h : TakesAll events) (h' : TakesAll later) :
    TakesAll (events ++ later) :=
  fun callee arguments line hmem =>
    (List.mem_append.1 hmem).elim (h callee arguments line) (h' callee arguments line)

theorem TakesAll.invoked {callee : Callable} {arguments : List Value} (line : Nat)
    (h : arguments.length = callee.arity) : TakesAll [.invoked callee arguments line] := by
  intro callee' arguments' line' hmem
  cases List.mem_singleton.1 hmem
  exact Callable.takes h

/-- In a run everything that is called takes its arguments. -/
def Trait.takesAll : Trait where
  Holds t := ∀ m, TakesAll (t m).2
  quiet _ _ := .nil
  bind {_ _ t next} ht hnext m := by
    have hfirst := ht m
    rcases hm : t m with ⟨r, events⟩
    rw [hm] at hfirst
    cases r with
    | ok a n =>
      rw [Journaled.bind_ok hm]
      exact hfirst.append (hnext a n)
    | error stop n =>
      rw [Journaled.bind_error hm]
      exact hfirst
  within _ ht m := ht _
  evaluated e _ _ _ _ hmem := nomatch List.mem_singleton.1 hmem
  executed s _ _ _ _ hmem := nomatch List.mem_singleton.1 hmem
  invoked _ _ line _ harity _ := .invoked line harity
  native _ _ line harity _ := .invoked line harity

/-! ### Calls -/

/-- The evaluation of the parts of a call: its callee, and then its arguments. -/
def Journaled.parts (fuel : Nat) (callee : Expr) (arguments : List Expr) :
    Journaled (Value × List Value) := do
  let value ← evaluate fuel callee
  let values ← evaluateEach (evaluate fuel) arguments
  return (value, values)

/-- A call, with what comes of the evaluation of its parts. If that ends, the call ends. If the callee
cannot be called or takes another number of arguments, that is the fault, nothing else is done, and the
machine is the one that the evaluation of the parts has left. Else the callee is called. -/
def CallOutcome (call : Expr) (line : Nat) (parts : EStateM.Result Stop Machine (Value × List Value))
    (events : List Event) (outcome : EStateM.Result Stop Machine Value × List Event) : Prop :=
  match parts with
  | .error stop n => outcome = (.error stop n, .evaluated call :: events)
  | .ok (value, values) n =>
    match value.callable? with
    | none => outcome = (.error (.fault line .notCallable) n, .evaluated call :: events)
    | some c =>
      if values.length = c.arity then
        ∃ r later, outcome = (r, .evaluated call :: (events ++ .invoked c values line :: later))
      else
        outcome = (.error (.fault line (.wrongArgumentCount c.arity values.length)) n,
          .evaluated call :: events)

/-- Of each thing that can be called, the call is listed first. -/
theorem Callable.journal_eq (execute : List Stmt → Journaled Completion) (c : Callable)
    (arguments : List Value) (line : Nat) (m : Machine) :
    ∃ r later, c.journal execute arguments line m = (r, .invoked c arguments line :: later) := by
  cases c <;> exact ⟨_, _, rfl⟩

theorem Journaled.evaluate_call (fuel id : Nat) (callee : Expr) (paren : Token)
    (arguments : List Expr) (m : Machine) :
    CallOutcome (.call id callee paren arguments) paren.line (parts fuel callee arguments m).1
      (parts fuel callee arguments m).2 (evaluate (fuel + 1) (.call id callee paren arguments) m) := by
  have hcall : (Expr.call id callee paren arguments).journalBy (evaluate fuel) (execute fuel)
      = parts fuel callee arguments >>= fun p =>
        p.1.journal (executeEach (execute fuel)) p.2 paren.line := by
    simp only [parts, Expr.journalBy, bind_assoc, pure_bind]
  rw [evaluate, note_bind, hcall]
  rcases hparts : parts fuel callee arguments m with ⟨r, events⟩
  cases r with
  | error stop n =>
    rw [bind_error hparts]
    rfl
  | ok p n =>
    obtain ⟨value, values⟩ := p
    rw [bind_ok hparts]
    unfold CallOutcome Value.journal
    dsimp only
    cases value.callable? with
    | none => exact congrArg (fun later => (_, _ :: later)) (List.append_nil events)
    | some c =>
      dsimp only
      split
      · obtain ⟨r, later, hc⟩ := c.journal_eq (executeEach (execute fuel)) values paren.line n
        rw [hc]
        exact ⟨r, later, rfl⟩
      · exact congrArg (fun later => (_, _ :: later)) (List.append_nil events)

/-- In every run, of whatever tree and from whatever machine, everything that is called is called with
exactly the arguments that it takes, in evaluations, in programs and in sessions. A call whose callee
cannot be called, or takes another number of arguments, is a fault; nothing of the callee is executed,
and nothing is changed once the callee and the arguments have been evaluated. -/
theorem arguments_match (fuel : Nat) :
    (∀ e, (Journaled.evaluate fuel e).run = evaluate fuel e)
      ∧ (∀ (m : Machine) e, TakesAll (Journaled.evaluate fuel e m).2)
      ∧ (∀ (m : Machine) p, TakesAll (Journaled.program fuel p m).2)
      ∧ (∀ (s : Session) source, TakesAll (s.journal fuel source))
      ∧ ∀ (m : Machine) id callee paren arguments,
        CallOutcome (.call id callee paren arguments) paren.line
          (Journaled.parts fuel callee arguments m).1 (Journaled.parts fuel callee arguments m).2
          (Journaled.evaluate (fuel + 1) (.call id callee paren arguments) m) := by
  refine ⟨Journaled.run_evaluate fuel, fun m e => Trait.takesAll.evaluate fuel e m,
    fun m p => Trait.takesAll.program fuel p m, fun s source => ?_,
    fun m id callee paren arguments => Journaled.evaluate_call fuel id callee paren arguments m⟩
  unfold Session.journal
  split
  · exact .nil
  · exact Trait.takesAll.program fuel _ _

/-- How many arguments are taken, and how many are given. -/
def Event.count? : Event → Option (Nat × Nat)
  | .invoked callee arguments _ => some (callee.arity, arguments.length)
  | .evaluated _ | .executed _ => none

/-- A class that inherits its initializer is called, then the initializer, and then a native function;
the last call has too many arguments, and nothing is called for it. -/
theorem arguments_match_inheriting :
    let source := "class A { init(x) { this.x = x; } } class B : A {} print(B(7).x); B(1, 2);"
    let s : Session := { machine := .fresh {} fun _ => 0 }
    (s.journal 20 source).filterMap Event.count? = [(1, 1), (1, 1), (1, 1)]
      ∧ (s.run 20 source).1 = .failure [.runtime 1 (.wrongArgumentCount 1 2)]
      ∧ TakesAll (s.journal 20 source) := by
  intro source s
  exact ⟨by decide +kernel, by decide +kernel, (arguments_match 20).2.2.2.1 s source⟩

end Lox
