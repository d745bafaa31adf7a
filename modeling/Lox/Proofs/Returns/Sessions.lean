import Lox.Program.Equality
import Lox.Proofs.Dispatch.Construction
import Lox.Proofs.Returns.Pruned
import Lox.Proofs.Returns.Trace

/-!
What a `return` leaves. For a statement, and for the body of a function, nothing is executed after a
`return` in it, however the execution ends. If the `return` gives a value, then the call of the function
ends at once, and gives that value, or the object that is set up. Outside of all functions nothing is
completed by a `return`, and in an initializer by none with a value. So it makes no difference to leave
out what follows a `return` (`Session.Reachable.leaves_calls`).
-/

namespace Lox

/-! ### Statements -/

/-- How an execution ends is how its trace ends. -/
theorem execute_ends (fuel : Nat) (s : Stmt) (m : Machine) :
    TraceEnds (fun t => t.StandsIn s) (execute fuel s m) (trace fuel s m).2 := by
  rw [← run_trace]
  exact trace_lists fuel s m

theorem Stmt.StandsIn.accepted {s t : Stmt} (h : t.StandsIn s) {body : Option BodyKind}
    (hs : s.Accepted body) : t.Accepted body := by
  induction h with
  | self => exact hs
  | inside hmem _ ih => exact ih (hs.executed hmem)

/-- What a `return` gives that stands in accepted code is given in a function, and is `nil` in an
initializer. -/
theorem ReturnedLast.kind {steps : List Step} {v : Value} {n : Machine} (h : ReturnedLast steps v n)
    {body : Option BodyKind} (hsteps : ∀ step ∈ steps, step.statement.Accepted body) :
    ∃ kind, body = some kind ∧ (kind = .initializer → v = .nil) := by
  obtain ⟨earlier, keyword, value, m', n', rfl, -, hreturned, -⟩ := h
  obtain ⟨kind, rfl, hnone⟩ := (hsteps ⟨.returnValue keyword value, m'⟩ (by simp)).returnValue
  refine ⟨kind, rfl, fun hkind => ?_⟩
  cases hnone hkind
  cases hreturned
  rfl

/-- A statement is completed by a `return` only in a function. -/
theorem Stmt.Accepted.returned {s : Stmt} {body : Option BodyKind} (hs : s.Accepted body)
    {fuel : Nat} {m n : Machine} {v : Value} (h : execute fuel s m = .ok (.returned v) n) :
    body ≠ none := by
  have hends := execute_ends fuel s m
  rw [h] at hends
  obtain ⟨kind, rfl, -⟩ := ReturnedLast.kind hends.2 fun step hstep =>
    (hends.1 step hstep).accepted hs
  exact Option.some_ne_none kind

/-! ### Bodies -/

/-- The statements of a body are executed as they are traced. -/
theorem run_traceEach_trace (fuel : Nat) (body : List Stmt) :
    (traceEach (trace fuel) body).run = executeEach (execute fuel) body := by
  rw [run_traceEach]
  exact congrArg (executeEach · body) (funext (run_trace fuel))

theorem traceEach_lists (fuel : Nat) (body : List Stmt) :
    (traceEach (trace fuel) body).Lists fun t => ∃ s ∈ body, t.StandsIn s :=
  .each body fun s hs => (trace_lists fuel s).mono fun _ ht => ⟨s, hs, ht⟩

/-- The body of an accepted initializer is completed by no `return` with a value. -/
theorem Routine.Accepted.returned {r : Routine} (hr : r.Accepted .initializer) {fuel : Nat}
    {m n : Machine} {v : Value} (h : executeEach (execute fuel) r.body m = .ok (.returned v) n) :
    v = .nil := by
  have hends := traceEach_lists fuel r.body m
  rw [show (traceEach (trace fuel) r.body m).1 = .ok (.returned v) n by
    rw [← h, ← run_traceEach_trace]
    rfl] at hends
  obtain ⟨kind, hkind, hnil⟩ := ReturnedLast.kind hends.2 fun step hstep => by
    obtain ⟨s, hs, hstands⟩ := hends.1 step hstep
    exact hstands.accepted (hr.body s hs)
  exact hnil (Option.some.inj hkind).symm

/-! ### Calls -/

/-- What is executed for a call, how that ends, and how the call ends: when its body does, in the same
machine. -/
structure Closure.Leaves (c : Closure) (arguments : List Value) (fuel : Nat) (m : Machine)
    (steps : List Step) (body : EStateM.Result Stop Machine Completion)
    (call : EStateM.Result Stop Machine Value) : Prop where
  executed : Trace.within (m.store.scopes.size :: c.environment)
    (traceEach (trace fuel) c.routine.body) { m with store := m.store.push (c.frame arguments) }
      = (body, steps)
  ends : TraceEnds (fun t => ∃ s ∈ c.routine.body, t.StandsIn s) body steps
  stopped : ∀ stop n, body = .error stop n → call = .error stop n
  returned : c.isInitializer = false → ∀ v n, body = .ok (.returned v) n → call = .ok v n
  normal : c.isInitializer = false → ∀ n, body = .ok .normal n → call = .ok .nil n
  initializer : c.isInitializer = true → ∀ completion n v, body = .ok completion n →
    n.store.getAt c.environment 0 "this" = .ok v → call = .ok v n

/-- A call is its body, after which nothing is executed. -/
theorem Closure.call_leaves (c : Closure) (arguments : List Value) (line fuel : Nat) (m : Machine) :
    ∃ steps body, c.Leaves arguments fuel m steps body
      (c.call (executeEach (execute fuel)) arguments line m) := by
  let inside := m.store.scopes.size :: c.environment
  let m' : Machine := { m with store := m.store.push (c.frame arguments) }
  let t := Trace.within inside (traceEach (trace fuel) c.routine.body)
  have hcall : c.call (executeEach (execute fuel)) arguments line m
      = (t.run >>= c.result line) m' := by
    rw [c.call_eq, ← run_traceEach_trace]
    rfl
  have hends := (traceEach_lists fuel c.routine.body).within inside m'
  refine ⟨(t m').2, (t m').1, rfl, hends, fun stop n h => ?_, fun hflag v n h => ?_,
    fun hflag n h => ?_, fun hflag completion n v h hthis => ?_⟩
  · rw [hcall, bind_error h]
  · rw [hcall, bind_ok h, Closure.result.eq_def, if_neg (by simp [hflag])]
    rfl
  · rw [hcall, bind_ok h, Closure.result.eq_def, if_neg (by simp [hflag])]
    rfl
  · rw [hcall, bind_ok h, Closure.result.eq_def, if_pos hflag]
    show Run.ofExcept line (n.store.getAt c.environment 0 "this") n = _
    rw [hthis]
    rfl

/-- A function at hand that is called as an initializer: one that has been bound to an object, or a method
of a class at hand, or of an object, that is named `init`. -/
def Moment.Initializer (t : Moment) (init : Closure) : Prop :=
  (∃ id, .function id init ∈ t.values ∧ init.isInitializer = true)
    ∨ ∃ c id, (.classOf id c ∈ t.values ∨ .object id c ∈ t.values) ∧ c.method? "init" = some init

theorem Moment.Initializer.accepted {t : Moment} {init : Closure} (h : t.Initializer init)
    (ht : t.Accepted) :
    init.Satisfies .accepted (fun _ => True) ∧ init.isInitializer = true
      ∧ init.routine.Accepted .initializer := by
  have hboth : init.Satisfies .accepted (fun _ => True) ∧ init.isInitializer = true := by
    rcases h with ⟨id, hmem, hflag⟩ | ⟨c, id, hmem, hinit⟩
    · exact ⟨ht.2 _ hmem, hflag⟩
    · have hc : c.Satisfies .accepted fun _ => True := by
        rcases hmem with hmem | hmem
        · exact ht.2 _ hmem
        · exact (ht.2 _ hmem).2
      exact ⟨(hc.initializer hinit).1, (hc.initializer hinit).2.1⟩
  obtain ⟨kind, haccepted, hkind⟩ := hboth.1.2
  cases hkind.1 hboth.2
  exact ⟨hboth.1, hboth.2, haccepted⟩

/-- Wherever an initializer is bound to an object, all calls of it give that object. -/
theorem Moment.Initializer.bind {t : Moment} {init : Closure} (h : t.Initializer init)
    (ht : t.Accepted) {object : Value} (ho : object ∈ t.values) :
    ∃ bound m, init.bind object t.machine = .ok bound m
      ∧ ∀ u : Moment, Moment.Leads ⟨m, t.values⟩ u → ∀ (fuel line : Nat) arguments,
        (∀ v ∈ arguments, v ∈ u.values) →
          bound.call (executeEach (execute fuel)) arguments line u.machine =
            (Run.within (u.machine.store.scopes.size :: bound.environment)
              (executeEach (execute fuel) bound.routine.body) >>= fun _ => pure object)
                { u.machine with store := u.machine.store.push (bound.frame arguments) } := by
  obtain ⟨hsatisfies, hflag, -⟩ := h.accepted ht
  obtain ⟨hm, hle⟩ := Machine.Accepted.bindingThis ht.1 (ht.2 object ho)
  refine ⟨init.boundIn t.machine.store, t.machine.bindingThis object, rfl, ?_⟩
  intro u hu fuel line arguments ha
  exact Closure.call_bound (c := init.boundIn t.machine.store) (ht.later hm hle) hu hsatisfies hflag
    rfl (t.machine.this_bindingThis object) ha fuel line

/-! ### Sessions -/

/-- Programs that are the same on such lines are so without what follows a `return`. -/
theorem Program.SameOn.pruned {f : Nat → Nat} {p p' : Program} (h : p.SameOn f p') :
    Program.SameOn f (Stmt.prunedEach p) (Stmt.prunedEach p') := by
  have hpruned := congrArg Stmt.prunedEach h
  unfold Program.SameOn Stmt.AlikeEach
  simp only [Stmt.prunedEach_relabelEach] at hpruned
  exact hpruned

namespace Session

/-- A `return` leaves the call of the function in which it stands, and no more. -/
structure LeavesCalls (s : Session) : Prop where
  /-- A statement is completed by a `return` exactly if one in it was executed and gave a value, as the
  last of all that is executed for it. -/
  statement : ∀ fuel (st : Stmt) m, (trace fuel st m).1 = execute fuel st m
    ∧ TraceEnds (fun t => t.StandsIn st) (execute fuel st m) (trace fuel st m).2
    ∧ (machineOf (execute fuel st m)).environment = m.environment
  /-- So is the body of a function, and with it the call ends. -/
  call : ∀ (c : Closure) arguments line fuel m, ∃ steps body,
    c.Leaves arguments fuel m steps body (c.call (executeEach (execute fuel)) arguments line m)
  /-- A call of an initializer that is bound to an object gives the object. -/
  object : ∀ t : Moment, s.start.Leads t → ∀ init object, t.Initializer init → object ∈ t.values →
    ∃ bound m, init.bind object t.machine = .ok bound m
      ∧ ∀ u : Moment, Moment.Leads ⟨m, t.values⟩ u → ∀ (fuel line : Nat) arguments,
        (∀ v ∈ arguments, v ∈ u.values) →
          bound.call (executeEach (execute fuel)) arguments line u.machine =
            (Run.within (u.machine.store.scopes.size :: bound.environment)
              (executeEach (execute fuel) bound.routine.body) >>= fun _ => pure object)
                { u.machine with store := u.machine.store.push (bound.frame arguments) }
  /-- The body of an initializer is completed by no `return` with a value. -/
  initializer : ∀ t : Moment, s.start.Leads t → ∀ init, t.Initializer init → ∀ fuel m v n,
    executeEach (execute fuel) init.routine.body m = .ok (.returned v) n → v = .nil
  /-- The statements of a program are completed by no `return`. -/
  outside : ∀ source p d k, s.limit.Reads s.nextId source p d k → ∀ st ∈ p, ∀ fuel m v n,
    execute fuel st m ≠ .ok (.returned v) n
  /-- Without what follows a `return` a program is still accepted and does the same. -/
  pruned : ∀ source p d k, s.limit.Reads s.nextId source p d k →
    ∃ e, Program.distances (Stmt.prunedEach p) = .ok e ∧ ∀ fuel,
      let run := (s.machine.addDistances e).interpret fuel (Stmt.prunedEach p)
      run.1 = (s.run fuel source).1 ∧ run.2.toHost = (s.run fuel source).2.machine.toHost
  /-- A source that is read as what is left of a program, but for lines, does the same but for lines; and
  so does one of which as much is left. -/
  deleted : ∀ source source' p p' d d' k k', s.limit.Reads s.nextId source p d k →
    s.limit.Reads s.nextId source' p' d' k' → ∀ f : Nat → Nat,
      (p'.SameOn f (Stmt.prunedEach p) ∨ Program.SameOn f (Stmt.prunedEach p') (Stmt.prunedEach p)) →
        ∀ fuel, (s.run fuel source').1.relabel (.lines f) = (s.run fuel source).1.relabel (.lines f)
          ∧ (s.run fuel source').2.machine.toHost = (s.run fuel source).2.machine.toHost

/-- In every session a `return` leaves exactly one call, and what follows it in a list of statements makes
no difference. -/
theorem Reachable.leaves_calls {s : Session} (h : s.Reachable) : s.LeavesCalls where
  statement fuel st m :=
    ⟨congrFun (run_trace fuel st) m, execute_ends fuel st m, execute_restores fuel st m⟩
  call c arguments line fuel m := c.call_leaves arguments line fuel m
  object _ ht _ _ hinit ho := hinit.bind (h.accepted ht) ho
  initializer _ ht _ hinit _ _ _ _ hv := (hinit.accepted (h.accepted ht)).2.2.returned hv
  outside source p d k hr st hst fuel m v n hv :=
    (Program.accepted hr.made.2.proper hr.distances st hst).returned hv rfl
  pruned source p d k hr := by
    obtain ⟨e, he, -⟩ := Program.distances_pruned hr.made.2.numbered.nodup hr.distances
    refine ⟨e, he, fun fuel => ?_⟩
    rw [run_of_reads hr]
    exact h.interpret_pruned hr he fuel
  deleted source source' p p' d d' k k' hr hr' f hsame fuel := by
    have hboth : Program.SameOn f (Stmt.prunedEach p') (Stmt.prunedEach p) := by
      rcases hsame with hsame | hsame
      · have hpruned := hsame.pruned
        rwa [Stmt.prunedEach_prunedEach] at hpruned
      · exact hsame
    obtain ⟨hanswer, hhost⟩ := h.run_pruned hr' hr hboth fuel
    exact ⟨hanswer, hhost.symm⟩

/-- A function that returns out of a loop, with more behind the `return`, and a class whose initializer
returns. -/
def looping (more : String) : String :=
  "fun f(a) \x7b for (;; a = nil) \x7b return a; " ++ more ++ "\x7d \x7d " ++
    "class A \x7b init() \x7b return; \x7d \x7d print(f(true));"

/-- With and without more behind the `return` the text is accepted, and the one program is what is left of
the other. -/
theorem reads_looping :
    ∃ p d n p' d' n', Limit.Reads {} 0 (looping "a; ") p d n
      ∧ Limit.Reads {} 0 (looping "") p' d' n' ∧ p'.SameOn (fun line => line) (Stmt.prunedEach p) := by
  let w (kind : Kind) (lexeme : String) : Token := ⟨kind, lexeme, 1⟩
  let f := w .identifier "f"
  let a := w .identifier "a"
  let opening := w .leftParen "("
  let closing := w .rightParen ")"
  let brace := w .leftBrace "\x7b"
  let brace' := w .rightBrace "\x7d"
  let stop := w .semicolon ";"
  let before := [w .kwFun "fun", f, opening, a, closing, brace, w .kwFor "for", opening, stop, stop, a,
    w .equal "=", w .kwNil "nil", closing, brace, w .kwReturn "return", a, stop]
  let rest := [brace', brace', w .kwClass "class", w .identifier "A", brace, w .identifier "init",
    opening, closing, brace, w .kwReturn "return", stop, brace', brace', w .identifier "print",
    opening, f, opening, w .kwTrue "true", closing, closing, stop, w .eof ""]
  have hlong : tokens (looping "a; ") = .ok (before ++ ([a, stop] ++ rest)) := by decide +kernel
  have hshort : tokens (looping "") = .ok (before ++ rest) := by decide +kernel
  have hsame : (parseProgram {} 0 (before ++ rest)).result.map
        (fun p => Stmt.relabelEach (.numbers fun _ => 0) (Stmt.relabelEach (.lines fun line => line) p))
      = (parseProgram {} 0 (before ++ ([a, stop] ++ rest))).result.map
        fun p => Stmt.relabelEach (.numbers fun _ => 0)
          (Stmt.relabelEach (.lines fun line => line) (Stmt.prunedEach p)) := by
    decide +kernel
  have hread (us : List Token) (h : (parseProgram {} 0 us).result.toOption.any
      (fun p => decide ((Stmt.findingsEach {} p).faults = [])) = true) :
      ∃ p d n, parseProgram {} 0 us = ⟨.ok p, n⟩ ∧ p.distances = .ok d := by
    cases hp : (parseProgram {} 0 us).result with
    | error faults =>
      rw [hp] at h
      cases h
    | ok p =>
      rw [hp] at h
      obtain ⟨d, hd⟩ := Program.exists_distances_iff.2 (of_decide_eq_true h)
      exact ⟨p, d, (parseProgram {} 0 us).nextId, by rw [← hp], hd⟩
  obtain ⟨p, d, n, hp, hd⟩ := hread (before ++ ([a, stop] ++ rest)) (by decide +kernel)
  obtain ⟨p', d', n', hp', hd'⟩ := hread (before ++ rest) (by decide +kernel)
  rw [congrArg Parser.Parsed.result hp, congrArg Parser.Parsed.result hp'] at hsame
  exact ⟨p, d, n, p', d', n', ⟨⟨_, hlong, hp⟩, hd⟩, ⟨⟨_, hshort, hp'⟩, hd'⟩, Except.ok.inj hsame⟩

/-- The function gives what it returns and the initializer returns nothing; and the text prints the same
if nothing follows the first `return`. -/
theorem Reachable.leaves_calls_looping :
    let s : Session := { machine := .fresh {} fun _ => 0 }
    let t := (s.run 20 (looping "a; ")).2
    let get := fun name => (t.machine.store.contents (.scope 0)).get? name
    (∃ id f steps v n, get "f" = some (.function id f)
        ∧ f.Leaves [.boolean true] 20 t.machine steps (.ok (.returned v) n) (.ok v n)
        ∧ v.display = "true")
      ∧ (∃ id c init, get "A" = some (.classOf id c) ∧ c.method? "init" = some init
        ∧ ∀ fuel m v n, executeEach (execute fuel) init.routine.body m = .ok (.returned v) n →
          v = .nil)
      ∧ t.machine.console.output.written.data = "true".toUTF8.data
      ∧ ∀ fuel, (s.run fuel (looping "")).2.machine.toHost
        = (s.run fuel (looping "a; ")).2.machine.toHost := by
  intro s t get
  have hs : s.Reachable := .fresh {} {} fun _ => 0
  have ht : t.Reachable := .run 20 _ hs
  have hrun : (((get "f").bind Value.function?).any fun f =>
      ((get "A").bind Value.class?).any fun c =>
        decide (t.machine.console.output.written.data = "true".toUTF8.data)
          && !f.isInitializer && (c.method? "init").isSome
          && (valueOf? (f.call (executeEach (execute 20)) [.boolean true] 1 t.machine)).any
            fun v => v.display = "true") = true := by
    decide +kernel
  obtain ⟨f, hf, hrun⟩ := (Option.any_eq_true _ _).1 hrun
  obtain ⟨c, hc, hrun⟩ := (Option.any_eq_true _ _).1 hrun
  obtain ⟨value, hvalue, hfunction⟩ := Option.bind_eq_some_iff.1 hf
  obtain ⟨a, ha, hclass⟩ := Option.bind_eq_some_iff.1 hc
  obtain ⟨i, rfl⟩ := Value.function?_eq_some hfunction
  obtain ⟨k, rfl⟩ := Value.class?_eq_some hclass
  simp only [Bool.and_eq_true, Bool.not_eq_true', decide_eq_true_eq] at hrun
  obtain ⟨⟨⟨hprinted, hplain⟩, hinit⟩, hcall⟩ := hrun
  refine ⟨?_, ?_, hprinted, fun fuel => ?_⟩
  · obtain ⟨v, hv, hdisplay⟩ := (Option.any_eq_true _ _).1 hcall
    have hdisplay : v.display = "true" := of_decide_eq_true hdisplay
    obtain ⟨n, hn⟩ := valueOf?_eq_some hv
    obtain ⟨steps, body, hleaves⟩ := (leaves_calls ht).call f [.boolean true] 1 20 t.machine
    rw [hn] at hleaves
    have hbody : body = .ok (.returned v) n := by
      cases hbody : body with
      | error stop n' => cases hleaves.stopped stop n' hbody
      | ok completion n' =>
        cases completion with
        | normal =>
          cases hleaves.normal hplain n' hbody
          exact absurd hdisplay (by decide)
        | returned u =>
          cases hleaves.returned hplain u n' hbody
          rfl
    rw [hbody] at hleaves
    exact ⟨i, f, steps, v, n, hvalue, hleaves, hdisplay⟩
  · obtain ⟨init, hinit⟩ := Option.isSome_iff_exists.1 hinit
    have hleads : t.start.Leads ⟨t.machine, [.classOf k c]⟩ := .held .refl ha
    exact ⟨k, c, init, ha, hinit,
      (leaves_calls ht).initializer _ hleads init (.inr ⟨c, k, .inl (by simp), hinit⟩)⟩
  · obtain ⟨p, d, n, p', d', n', hr, hr', hdeleted⟩ := reads_looping
    exact ((leaves_calls hs).deleted _ _ p p' d d' n n' hr hr' _ (.inl hdeleted) fuel).2

end Session

end Lox
