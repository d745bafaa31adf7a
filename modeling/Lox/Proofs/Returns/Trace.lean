import Lox.Proofs.Execution.Code
import Lox.Proofs.Session.Restored

/-!
Traces of executions. `trace` executes a statement and lists the statements that are executed for it by
the same activation of a function, each with the machine at which it begins; without the list it is
`execute` (`run_trace`). However the execution ends, nothing is listed after a `return`: if this gives a
value, the statement is completed with that, and else the execution stops (`trace_lists`).
-/

namespace Lox

/-- A statement is executed, from this machine on. -/
structure Step where
  statement : Stmt
  machine : Machine

/-- A run that lists what is executed on the way. -/
def Trace (α : Type) : Type :=
  Machine → EStateM.Result Stop Machine α × List Step

namespace Trace

variable {α β : Type}

instance : Monad Trace where
  pure a := fun m => (.ok a m, [])
  bind first next := fun m =>
    match first m with
    | (.ok a n, steps) => ((next a n).1, steps ++ (next a n).2)
    | (.error stop n, steps) => (.error stop n, steps)

/-- The run without the list. -/
def run (t : Trace α) : Run α := fun m => (t m).1

/-- A run on the way of which no statement is listed. -/
def quiet (r : Run α) : Trace α := fun m => (r m, [])

/-- Lists a statement. -/
def step (s : Stmt) : Trace Unit := fun m => (.ok () m, [⟨s, m⟩])

/-- Runs in an environment, and puts the one in force again that was there before. -/
def within (inside : Environment) (t : Trace α) : Trace α := fun m =>
  (Run.within inside t.run m, (t { m with environment := inside }).2)

theorem bind_ok {t : Trace α} {next : α → Trace β} {m n : Machine} {a : α} {steps : List Step}
    (h : t m = (.ok a n, steps)) : (t >>= next) m = ((next a n).1, steps ++ (next a n).2) := by
  simp only [Bind.bind, h]

theorem bind_error {t : Trace α} {next : α → Trace β} {m n : Machine} {stop : Stop}
    {steps : List Step} (h : t m = (.error stop n, steps)) :
    (t >>= next) m = (.error stop n, steps) := by
  simp only [Bind.bind, h]

theorem run_bind (t : Trace α) (next : α → Trace β) :
    (t >>= next).run = t.run >>= fun a => (next a).run := by
  funext m
  rcases ht : t m with ⟨r, steps⟩
  have hrun : t.run m = r := congrArg Prod.fst ht
  show ((t >>= next) m).1 = _
  cases r with
  | ok a n =>
    rw [bind_ok ht, Lox.bind_ok hrun]
    rfl
  | error stop n => rw [bind_error ht, Lox.bind_error hrun]

end Trace

/-! ### The traced execution -/

/-- Traces statements up to one that returns. -/
def traceEach (trace : Stmt → Trace Completion) : List Stmt → Trace Completion
  | [] => pure .normal
  | s :: rest => do
    match ← trace s with
    | .normal => traceEach trace rest
    | .returned value => return .returned value

/-- Traces a body as long as a condition holds and nothing returns. -/
def traceWhile (condition : Run Value) (body : Trace Completion) : Nat → Trace Completion
  | 0 => Trace.quiet (throw .outOfFuel)
  | fuel + 1 => do
    if (← Trace.quiet condition).isTruthy then
      match ← body with
      | .normal => traceWhile condition body fuel
      | .returned value => return .returned value
    else return .normal

/-- Traces what a statement executes. -/
def Stmt.traceBy (evaluate : Expr → Run Value) (trace : Stmt → Trace Completion) (rounds : Nat) :
    Stmt → Trace Completion
  | .block body => do
    let outer ← Trace.quiet Run.environment
    let inside ← Trace.quiet (Run.extend outer [])
    Trace.within inside (traceEach trace body)
  | .ifThen condition thenBranch => do
    if (← Trace.quiet (evaluate condition)).isTruthy then trace thenBranch else return .normal
  | .ifElse condition thenBranch elseBranch => do
    if (← Trace.quiet (evaluate condition)).isTruthy then trace thenBranch else trace elseBranch
  | .whileLoop condition body => traceWhile (evaluate condition) (trace body) rounds
  | s => Trace.quiet (s.executeBy evaluate (fun _ => pure .normal) rounds)

/-- Executes a statement and lists it with what it executes. -/
def trace : Nat → Stmt → Trace Completion
  | 0, _ => Trace.quiet (throw .outOfFuel)
  | fuel + 1, s => do
    Trace.step s
    s.traceBy (evaluate fuel) (trace fuel) fuel

/-! ### Without the list -/

section

variable {trace : Stmt → Trace Completion}

theorem run_traceEach (body : List Stmt) :
    (traceEach trace body).run = executeEach (fun s => (trace s).run) body := by
  induction body with
  | nil => rfl
  | cons s rest ih =>
    rw [traceEach, executeEach, Trace.run_bind]
    refine bind_congr fun c => ?_
    cases c with
    | normal => exact ih
    | returned v => rfl

theorem run_traceWhile (condition : Run Value) (body : Trace Completion) (rounds : Nat) :
    (traceWhile condition body rounds).run = executeWhile condition body.run rounds := by
  induction rounds with
  | zero => rfl
  | succ rounds ih =>
    rw [traceWhile, executeWhile, Trace.run_bind]
    refine bind_congr fun v => ?_
    split
    · rw [Trace.run_bind]
      refine bind_congr fun c => ?_
      cases c with
      | normal => exact ih
      | returned v => rfl
    · rfl

theorem Stmt.run_traceBy (evaluate : Expr → Run Value) (rounds : Nat) (s : Stmt) :
    (s.traceBy evaluate trace rounds).run
      = s.executeBy evaluate (fun s => (trace s).run) rounds := by
  cases s with
  | block body =>
    rw [traceBy, executeBy, Trace.run_bind]
    refine bind_congr fun outer => ?_
    rw [Trace.run_bind]
    refine bind_congr fun inside => ?_
    rw [← run_traceEach]
    rfl
  | ifThen condition thenBranch | ifElse condition thenBranch elseBranch =>
    rw [traceBy, executeBy, Trace.run_bind]
    refine bind_congr fun v => ?_
    split <;> rfl
  | whileLoop condition body => exact run_traceWhile (evaluate condition) (trace body) rounds
  | expression | varDecl | funDecl | returnValue | classDecl => rfl

end

/-- A trace is made of what is executed. -/
theorem run_trace (fuel : Nat) (s : Stmt) : (trace fuel s).run = execute fuel s := by
  induction fuel generalizing s with
  | zero => rfl
  | succ fuel ih =>
    have hby : (s.traceBy (evaluate fuel) (trace fuel) fuel).run = _ :=
      s.run_traceBy (evaluate fuel) fuel
    rw [show (fun t => (trace fuel t).run) = execute fuel from funext ih] at hby
    rw [trace, Trace.run_bind, execute, ← hby]
    rfl

/-! ### How traces end -/

/-- The first statement is the second one, or stands in it and in none of its functions. -/
inductive Stmt.StandsIn (s : Stmt) : Stmt → Prop
  | self : StandsIn s s
  | inside {outer inner : Stmt} (hmem : inner ∈ outer.executed) (h : StandsIn s inner) :
      StandsIn s outer

/-- What a `return` gives that is executed at the first machine, and the machine it leaves. -/
inductive Returned (m : Machine) : Option Expr → Value → Machine → Prop
  | nothing : Returned m none .nil m
  | value {fuel : Nat} {e : Expr} {v : Value} {n : Machine} (h : evaluate fuel e m = .ok v n) :
      Returned m (some e) v n

/-- The last of the steps is a `return`, and the only one. It has given the value and left the machine,
but for the environment that is then in force. -/
def ReturnedLast (steps : List Step) (v : Value) (n : Machine) : Prop :=
  ∃ earlier keyword value m n',
    steps = earlier ++ [⟨.returnValue keyword value, m⟩]
      ∧ (∀ step ∈ earlier, step.statement.isReturn = false)
      ∧ Returned m value v n' ∧ n = { n' with environment := n.environment }

/-- There is no `return` among the steps, unless the last one is one whose value has not been found. -/
def StoppedLast (steps : List Step) : Prop :=
  ∃ earlier last, steps = earlier ++ last ∧ (∀ step ∈ earlier, step.statement.isReturn = false)
    ∧ (last = [] ∨ ∃ keyword e m fuel stop n,
        last = [⟨.returnValue keyword (some e), m⟩] ∧ evaluate fuel e m = .error stop n)

/-- All steps are of such statements. They are completed normally if there is no `return` among them, and
by a `return` if it is the last one. -/
def TraceEnds (inside : Stmt → Prop) (r : EStateM.Result Stop Machine Completion)
    (steps : List Step) : Prop :=
  (∀ step ∈ steps, inside step.statement) ∧
    match r with
    | .ok .normal _ => ∀ step ∈ steps, step.statement.isReturn = false
    | .ok (.returned v) n => ReturnedLast steps v n
    | .error _ _ => StoppedLast steps

/-- From every machine on, such statements are listed, and nothing after a `return`. -/
def Trace.Lists (inside : Stmt → Prop) (t : Trace Completion) : Prop :=
  ∀ m, TraceEnds inside (t m).1 (t m).2

namespace TraceEnds

variable {inside inside' : Stmt → Prop} {r : EStateM.Result Stop Machine Completion}
  {steps more : List Step}

theorem mono (h : TraceEnds inside r steps) (himp : ∀ s, inside s → inside' s) :
    TraceEnds inside' r steps :=
  ⟨fun step hstep => himp _ (h.1 step hstep), h.2⟩

theorem completed (n : Machine) : TraceEnds inside (.ok .normal n) [] :=
  ⟨by simp, by simp⟩

theorem stopped (stop : Stop) (n : Machine) : TraceEnds inside (.error stop n) [] :=
  ⟨by simp, [], [], rfl, by simp, .inl rfl⟩

/-- Steps before them that are no `return`. -/
theorem append (h : TraceEnds inside r more)
    (hsteps : ∀ step ∈ steps, inside step.statement ∧ step.statement.isReturn = false) :
    TraceEnds inside r (steps ++ more) := by
  have hboth {later : List Step} (hlater : ∀ step ∈ later, step.statement.isReturn = false) :
      ∀ step ∈ steps ++ later, step.statement.isReturn = false :=
    List.forall_mem_append.2 ⟨fun step hstep => (hsteps step hstep).2, hlater⟩
  obtain ⟨hinside, hends⟩ := h
  refine ⟨List.forall_mem_append.2 ⟨fun step hstep => (hsteps step hstep).1, hinside⟩, ?_⟩
  split at hends
  · exact hboth hends
  · obtain ⟨earlier, keyword, value, m, n', rfl, hearlier, hreturned⟩ := hends
    exact ⟨steps ++ earlier, keyword, value, m, n', (List.append_assoc ..).symm, hboth hearlier,
      hreturned⟩
  · obtain ⟨earlier, last, rfl, hearlier, hlast⟩ := hends
    exact ⟨steps ++ earlier, last, (List.append_assoc ..).symm, hboth hearlier, hlast⟩

end TraceEnds

namespace Trace.Lists

variable {inside inside' : Stmt → Prop} {t : Trace Completion}

theorem mono (h : t.Lists inside) (himp : ∀ s, inside s → inside' s) : t.Lists inside' :=
  fun m => (h m).mono himp

theorem completed : Lists inside (pure .normal) :=
  fun m => .completed m

theorem quiet {r : Run Completion} (h : ∀ m n c, r m = .ok c n → c = .normal) :
    Lists inside (Trace.quiet r) := by
  intro m
  show TraceEnds inside (r m) []
  cases hr : r m with
  | ok c n =>
    rw [h m n c hr]
    exact .completed n
  | error stop n => exact .stopped stop n

/-- Something is run before it. -/
theorem after {α : Type} {first : Run α} {next : α → Trace Completion}
    (h : ∀ a, (next a).Lists inside) : Lists inside (Trace.quiet first >>= next) := by
  intro m
  cases hr : first m with
  | ok a n =>
    rw [bind_ok (show Trace.quiet first m = (.ok a n, []) from Prod.ext hr rfl)]
    exact h a n
  | error stop n =>
    rw [bind_error (show Trace.quiet first m = (.error stop n, []) from Prod.ext hr rfl)]
    exact .stopped stop n

/-- Another environment is in force meanwhile. -/
theorem within (h : t.Lists inside) (environment : Environment) :
    Lists inside (t.within environment) := by
  intro m
  have hends := h { m with environment }
  refine ⟨hends.1, ?_⟩
  have hlast := hends.2
  show match Run.within environment t.run m with
    | .ok .normal _ => _
    | .ok (.returned v) n => ReturnedLast _ v n
    | .error _ _ => _
  cases hr : t.run { m with environment } with
  | ok c n =>
    rw [within_ok hr]
    rw [show (t { m with environment }).1 = .ok c n from hr] at hlast
    cases c with
    | normal => exact hlast
    | returned v =>
      obtain ⟨earlier, keyword, value, m', n', hsteps, hearlier, hreturned, hn⟩ := hlast
      refine ⟨earlier, keyword, value, m', n', hsteps, hearlier, hreturned, ?_⟩
      rw [hn]
  | error stop n =>
    rw [within_error hr]
    rwa [show (t { m with environment }).1 = .error stop n from hr] at hlast

/-- Something is traced after it if it is completed normally. -/
theorem andThen (h : t.Lists inside) {next : Trace Completion} (hnext : next.Lists inside) :
    Lists inside (t >>= fun c =>
      match c with
      | .normal => next
      | .returned v => pure (.returned v)) := by
  intro m
  rcases ht : t m with ⟨r, steps⟩
  have hends := h m
  rw [ht] at hends
  cases r with
  | error stop n =>
    rw [bind_error ht]
    exact hends
  | ok c n =>
    rw [bind_ok ht]
    cases c with
    | normal => exact (hnext n).append fun step hstep => ⟨hends.1 step hstep, hends.2 step hstep⟩
    | returned v =>
      show TraceEnds inside (.ok (.returned v) n) (steps ++ [])
      rwa [List.append_nil]

theorem each {trace : Stmt → Trace Completion} (body : List Stmt)
    (h : ∀ s ∈ body, (trace s).Lists inside) : (traceEach trace body).Lists inside := by
  induction body with
  | nil => exact .completed
  | cons s rest ih =>
    have hrest := ih fun t ht => h t (List.mem_cons_of_mem s ht)
    exact (h s List.mem_cons_self).andThen hrest

theorem loop {condition : Run Value} (h : t.Lists inside) (rounds : Nat) :
    (traceWhile condition t rounds).Lists inside := by
  induction rounds with
  | zero => exact fun m => .stopped .outOfFuel m
  | succ rounds ih =>
    refine .after fun v => ?_
    split
    · exact h.andThen ih
    · exact .completed

end Trace.Lists

/-- Statements that only evaluate and declare are completed normally. -/
theorem Stmt.normal_of_executeBy {s : Stmt} (hs : s.isReturn = false) (hnone : s.executed = [])
    {evaluate : Expr → Run Value} {execute : Stmt → Run Completion} {rounds : Nat} {m n : Machine}
    {c : Completion} (hc : s.executeBy evaluate execute rounds m = .ok c n) : c = .normal := by
  cases s with
  | expression value =>
    obtain ⟨_, _, -, hc⟩ := exists_of_bind_ok hc
    cases hc
    rfl
  | varDecl name initializer =>
    cases initializer <;>
    · obtain ⟨_, _, -, hc⟩ := exists_of_bind_ok hc
      obtain ⟨_, _, -, hc⟩ := exists_of_bind_ok hc
      cases hc
      rfl
  | block body =>
    cases show body = [] from hnone
    obtain ⟨_, _, -, hc⟩ := exists_of_bind_ok hc
    obtain ⟨_, _, -, hc⟩ := exists_of_bind_ok hc
    obtain ⟨_, hc, -⟩ := exists_of_within_ok hc
    cases hc
    rfl
  | funDecl routine =>
    obtain ⟨_, _, -, hc⟩ := exists_of_bind_ok hc
    cases hc
    rfl
  | classDecl name superclass methods =>
    cases superclass <;>
    · obtain ⟨_, _, -, hc⟩ := exists_of_bind_ok hc
      obtain ⟨_, _, -, hc⟩ := exists_of_bind_ok hc
      cases hc
      rfl
  | ifThen | ifElse | whileLoop => cases hnone
  | returnValue => cases hs

/-- What a statement other than a `return` executes is listed as it should be if that of its parts is. -/
theorem Stmt.traceBy_lists {evaluate : Expr → Run Value} {trace : Stmt → Trace Completion}
    {inside : Stmt → Prop} {s : Stmt} (hs : s.isReturn = false)
    (h : ∀ t ∈ s.executed, (trace t).Lists inside) (rounds : Nat) :
    (s.traceBy evaluate trace rounds).Lists inside := by
  cases s with
  | block body =>
    exact .after fun outer => .after fun inside => (Trace.Lists.each body h).within inside
  | ifThen condition thenBranch =>
    refine .after fun v => ?_
    split
    · exact h thenBranch (by simp [executed])
    · exact .completed
  | ifElse condition thenBranch elseBranch =>
    refine .after fun v => ?_
    split
    · exact h thenBranch (by simp [executed])
    · exact h elseBranch (by simp [executed])
  | whileLoop condition body => exact (h body (by simp [executed])).loop rounds
  | returnValue => cases hs
  | expression | varDecl | funDecl | classDecl =>
    exact .quiet fun m n c hc => normal_of_executeBy hs rfl hc

/-- A `return` gives what it evaluates. -/
theorem returnValue_ends (fuel : Nat) (keyword : Token) (value : Option Expr) (m : Machine) :
    TraceEnds (fun t => t.StandsIn (.returnValue keyword value))
      (execute (fuel + 1) (.returnValue keyword value) m) [⟨.returnValue keyword value, m⟩] := by
  have hinside : ∀ step ∈ [(⟨.returnValue keyword value, m⟩ : Step)],
      step.statement.StandsIn (.returnValue keyword value) := by
    intro step hstep
    cases List.mem_singleton.1 hstep
    exact .self
  refine ⟨hinside, ?_⟩
  cases value with
  | none => exact ⟨[], keyword, none, m, m, rfl, by simp, .nothing, rfl⟩
  | some e =>
    cases hv : evaluate fuel e m with
    | ok v n =>
      have hreturned : execute (fuel + 1) (.returnValue keyword (some e)) m = .ok (.returned v) n :=
        bind_ok hv
      rw [hreturned]
      exact ⟨[], keyword, some e, m, n, rfl, by simp, .value hv, rfl⟩
    | error stop n =>
      have hstopped : execute (fuel + 1) (.returnValue keyword (some e)) m = .error stop n :=
        bind_error hv
      rw [hstopped]
      exact ⟨[], _, rfl, by simp, .inr ⟨keyword, e, m, fuel, stop, n, rfl, hv⟩⟩

/-- For a statement those are executed that stand in it, and none after a `return`. -/
theorem trace_lists (fuel : Nat) (s : Stmt) : (trace fuel s).Lists fun t => t.StandsIn s := by
  induction fuel generalizing s with
  | zero => exact fun m => .stopped .outOfFuel m
  | succ fuel ih =>
    intro m
    by_cases hs : s.isReturn = true
    · cases s with
      | returnValue keyword value => exact returnValue_ends fuel keyword value m
      | _ => cases hs
    · rw [Bool.not_eq_true] at hs
      have hinside : ∀ t ∈ s.executed, (trace fuel t).Lists fun t => t.StandsIn s :=
        fun t ht => (ih t).mono fun u hu => .inside ht hu
      have hends : TraceEnds _ (s.traceBy (evaluate fuel) (trace fuel) fuel m).1 _ :=
        Stmt.traceBy_lists hs hinside fuel m
      rw [trace, Trace.bind_ok (show Trace.step s m = (.ok () m, [⟨s, m⟩]) from rfl)]
      refine hends.append fun step hstep => ?_
      cases List.mem_singleton.1 hstep
      exact ⟨.self, hs⟩

end Lox
