import Lox.Proofs.Dispatch.Execution
import Lox.Proofs.Heap.Frame
import Lox.Proofs.Safety.Sessions
import Lox.Proofs.Session.Restored
import Lox.Proofs.Session.Shifted

/-!
Sessions dispatch methods as the meaning does in which `this` and `super` are no names. A session of
that meaning reads programs as any other, and executes them by `Dispatch.interpret`; whatever the two
have run, they are in step (`Dispatch.Session.InStep`), so that they give the same answers and leave
the same host. What a single read of a property gives, and what a class has from its declaration, is
said of the machine itself.
-/

namespace Lox

/-! ### Fields -/

/-- A field that is set stays set, however the run ends. -/
def Run.KeepsFields {α : Type} (run : Run α) : Prop :=
  ∀ m id name, (m.store.fields id).binds name = true →
    ((machineOf (run m)).store.fields id).binds name = true

/-- A field of one object is set. -/
def Invariant.fieldSet (id : Nat) (name : String) : Invariant :=
  .ofStore (fun st => (st.contents (.object id)).binds name = true) (fun h => h) (fun h => h)
    (fun {st id' name' v} h => by
      rw [Store.contents_setField]
      split
      · simp [Bindings.binds_set, h]
      · exact h)
    (fun {st} h => by
      rw [Store.contents_pushObject]
      split
      · rename_i hid
        have hbeyond : ¬ st.Has (.object id) := by
          rw [hid]
          exact Nat.lt_irrefl _
        rw [Store.contents_of_not_has hbeyond] at h
        cases h
      · exact h)

/-- A run that keeps what has been said of the fields keeps the fields. -/
theorem Invariant.Keeps.keepsFields {α : Type} {run : Run α}
    {post : Nat → String → Store → α → Prop}
    (h : ∀ id name st env, (Invariant.fieldSet id name).Keeps st env run (post id name)) :
    Run.KeepsFields run := by
  intro m id name hset
  obtain ⟨hkept, -⟩ := h id name m.store m.environment m rfl rfl hset
  exact hkept

theorem evaluate_keepsFields (fuel : Nat) (e : Expr) : Run.KeepsFields (evaluate fuel e) :=
  Invariant.Keeps.keepsFields fun id name st env =>
    ((Invariant.fieldSet id name).keeps fuel).1 env trivial e trivial st

theorem execute_keepsFields (fuel : Nat) (s : Stmt) : Run.KeepsFields (execute fuel s) :=
  Invariant.Keeps.keepsFields fun id name st env =>
    ((Invariant.fieldSet id name).keeps fuel).2 env trivial s trivial st

/-- A field that is set stays set through all later runs of a session. -/
theorem Session.binds_run {s : Session} {id : Nat} {name : String}
    (h : (s.machine.store.fields id).binds name = true) (fuel : Nat) (source : String) :
    ((s.run fuel source).2.machine.store.fields id).binds name = true := by
  rcases s.run_cases source with ⟨faults, n, -, -, hrun⟩ | ⟨p, d, n, -, hrun⟩
  · rw [Session.run, hrun]
    exact h
  · rw [Session.run, hrun]
    have hprogram : Run.KeepsFields (p.forM fun s => discard (execute fuel s)) :=
      Invariant.Keeps.keepsFields fun id name st _ =>
        ((Invariant.fieldSet id name).keeps fuel).2.program trivial (fun _ _ => trivial) st
    show ((Run.answer _ (s.machine.addDistances d)).2.store.fields id).binds name = true
    rw [Run.answer_machine]
    exact hprogram (s.machine.addDistances d) id name h

/-! ### Sessions -/

namespace Dispatch

/-- A session whose programs are executed by the meaning in which `this` and `super` are no names. -/
structure Session where
  limit : Limit := {}
  /-- The number of the next expression. -/
  nextId : Nat := 0
  state : State

namespace Session

/-- Runs a program, after the same three stages as in every session. -/
def run (fuel : Nat) (source : String) (s : Dispatch.Session) : Answer Unit × Dispatch.Session :=
  match tokens source with
  | .error faults => (.failure faults, s)
  | .ok ts =>
    let parsed := parseProgram s.limit s.nextId ts
    let s := { s with nextId := parsed.nextId }
    match parsed.result with
    | .error faults => (.failure faults, s)
    | .ok program =>
      match program.distances with
      | .error faults => (.failure faults, s)
      | .ok _ =>
        let (answer, state) := interpret fuel program s.state
        (answer, { s with state })

/-- What each of a number of runs answers, and what the host is after it. -/
def history : List (Nat × String) → Dispatch.Session → List (Answer Unit × Host)
  | [], _ => []
  | (fuel, source) :: later, s =>
    ((s.run fuel source).1, (s.run fuel source).2.state.toHost)
      :: history later (s.run fuel source).2

/-- The two sessions are in step: both agree with one state of the lexical meaning. -/
structure InStep (s : Lox.Session) (s' : Dispatch.Session) : Prop where
  limit : s'.limit = s.limit
  nextId : s'.nextId = s.nextId
  environment : s.machine.environment = .globals
  agrees : ∃ t w st w', t.bound = s.nextId ∧ Lexical.Agrees t w s.machine st
    ∧ Dispatch.Agrees w' st s'.state

variable {s : Lox.Session} {s' : Dispatch.Session}

theorem InStep.fresh (limit : Limit) (console : Console) (clock : Nat → Float) :
    InStep { limit, machine := .fresh console clock } { limit, state := .fresh console clock } :=
  ⟨rfl, rfl, rfl, .empty 0, .initial, .fresh console clock, [], rfl,
    .fresh (.empty 0) console clock, .fresh console clock⟩

theorem InStep.toHost (h : InStep s s') : s'.state.toHost = s.machine.toHost := by
  obtain ⟨t, w, st, w', -, ha, ha'⟩ := h.agrees
  rw [Dispatch.Agrees.host ha', ha.host]

/-- The numbers of expressions go on without a program. -/
theorem InStep.skip (h : InStep s s') {n : Nat} (hn : s.nextId ≤ n) :
    InStep { s with nextId := n } { limit := s.limit, nextId := n, state := s'.state } := by
  obtain ⟨t, w, st, w', ht, ha, ha'⟩ := h.agrees
  obtain ⟨t', ht', hskip⟩ := ha.skip (ht ▸ hn)
  exact ⟨rfl, rfl, h.environment, t', w, st, w', ht', hskip, ha'⟩

/-- A program that has been read is executed in step. -/
theorem InStep.interpret (h : InStep s s') {source : String} {p : Program} {d : Distances} {n : Nat}
    (hr : s.limit.Reads s.nextId source p d n) (fuel : Nat) :
    (Dispatch.interpret fuel p s'.state).1
        = ({ s with nextId := n }.interpretBy (Lox.execute fuel) p d).1
      ∧ InStep ({ s with nextId := n }.interpretBy (Lox.execute fuel) p d).2
        { limit := s.limit, nextId := n, state := (Dispatch.interpret fuel p s'.state).2 } := by
  obtain ⟨t, w, st, w', ht, ha, ha'⟩ := h.agrees
  obtain ⟨t', ht', hread, hl⟩ := ha.linked (ht ▸ hr)
  obtain ⟨hanswer, henv, w₁, hagrees⟩ := hread.interpret h.environment hl fuel
  obtain ⟨hanswer', w₂, hagrees'⟩ := ha'.interpret hl fuel
  exact ⟨hanswer'.trans hanswer, rfl, rfl, henv, t', w₁, _, w₂, ht', hagrees, hagrees'⟩

/-- Both sessions give the same answer to a source, and go on in step. -/
theorem InStep.run (h : InStep s s') (fuel : Nat) (source : String) :
    (s'.run fuel source).1 = (s.run fuel source).1
      ∧ InStep (s.run fuel source).2 (s'.run fuel source).2 := by
  unfold Session.run Lox.Session.run Lox.Session.runBy Lox.Session.parse
  rw [h.limit, h.nextId]
  cases hts : tokens source with
  | error faults => exact ⟨rfl, h⟩
  | ok ts =>
    obtain ⟨hle, -, -⟩ := parseProgram_made s.limit s.nextId (tokens_sound hts)
    have hskip := h.skip hle
    dsimp only
    cases hp : (parseProgram s.limit s.nextId ts).result with
    | error faults =>
      dsimp only
      exact ⟨rfl, hskip⟩
    | ok p =>
      dsimp only [Lox.Session.runProgramBy]
      cases hd : p.distances with
      | error faults =>
        dsimp only
        exact ⟨rfl, hskip⟩
      | ok d =>
        have hr : s.limit.Reads s.nextId source p d (parseProgram s.limit s.nextId ts).nextId :=
          ⟨⟨ts, hts, by rw [← hp]⟩, hd⟩
        dsimp only
        exact h.interpret hr fuel

theorem InStep.history (h : InStep s s') (runs : List (Nat × String)) :
    s'.history runs = s.history runs := by
  induction runs generalizing s s' with
  | nil => rfl
  | cons entry later ih =>
    obtain ⟨fuel, source⟩ := entry
    obtain ⟨hanswer, hnext⟩ := h.run fuel source
    rw [Session.history, Lox.Session.history, hanswer, hnext.toHost, ih hnext]

end Session

end Dispatch

/-! ### Dispatch -/

namespace Store

/-- A field holds what it was set to last. -/
theorem get?_setField (st : Store) {id : Nat} (hid : id < st.objects.size) (name : String)
    (v : Value) : ((st.setField id name v).fields id).get? name = some v := by
  show ((st.setField id name v).contents (.object id)).get? name = some v
  rw [contents_setField, if_pos ⟨rfl, hid⟩, Bindings.get?_set, if_pos rfl]

end Store

/-- Methods are dispatched as the meaning says in which a method keeps the object that it is bound to
and the superclass that its class was declared with: whatever programs a session is given, it gives the
answers and leaves the host of that meaning, in which no statement changes either of the two for those
after it. A property of an object is its field, once that has been set, which it then is for good; else
it is the nearest method, with the object as `this` around it, and else it is a fault. The nearest
method of a class is the last of that name in its body, and if there is none the nearest one of the
class that its superclass was when it was declared, which the methods in its body have as `super` around
them. -/
theorem Session.methods_dispatched (limit : Limit) (console : Console) (clock : Nat → Float) :
    (∀ runs, ({ limit, machine := .fresh console clock } : Session).history runs
        = ({ limit, state := .fresh console clock } : Dispatch.Session).history runs)
      ∧ (∀ fuel place s, Dispatch.Gives (Dispatch.execute fuel place s) fun result =>
        place.SameMethod result.1)
      ∧ (∀ (m : Machine) (id : Nat) (c : Class) (name : Token),
        (Value.object id c).property name m =
          match (m.store.fields id).get? name.lexeme, c.method? name.lexeme with
          | some field, _ => .ok field m
          | none, some method =>
            .ok (.function m.nextIdentity
                { method with environment := m.store.scopes.size :: method.environment })
              { m with
                store := m.store.push [("this", .object id c)]
                nextIdentity := m.nextIdentity + 1 }
          | none, none => .error (.fault name.line (.undefinedProperty name.lexeme)) m)
      ∧ (∀ (st : Store) (id : Nat) (name : String) (v : Value), id < st.objects.size →
        ((st.setField id name v).fields id).get? name = some v)
      ∧ (∀ fuel, (∀ e, Run.KeepsFields (Lox.evaluate fuel e))
        ∧ (∀ s, Run.KeepsFields (execute fuel s))
        ∧ ∀ (s : Session) (source : String) (id : Nat) (name : String),
          (s.machine.store.fields id).binds name = true →
            ((s.run fuel source).2.machine.store.fields id).binds name = true)
      ∧ ∀ (m : Machine) (i : ScopeId) (outer : Environment) (name : Token)
          (superclass : Option (Value × Class)) (methods : List Routine),
        m.environment = i :: outer → i < m.store.scopes.size →
          ∃ m' c, declareClass name superclass methods m = .ok () m'
            ∧ (m'.store.scope i).get? name.lexeme = some (.classOf m.nextIdentity c)
            ∧ (∀ n, c.method? n = ((lastNamed methods n).map fun r =>
                ⟨r, m.methodEnvironment superclass, r.isInitializer⟩).or
                  (superclass.bind (·.2.method? n)))
            ∧ ∀ p ∈ superclass,
              m'.store.getAt (m.methodEnvironment superclass) 0 "super" = .ok p.1 := by
  refine ⟨?_, Dispatch.execute_sameMethod, ?_, ?_, ?_, ?_⟩
  · intro runs
    exact ((Dispatch.Session.InStep.fresh limit console clock).history runs).symm
  · intro m id c name
    exact Value.property_object id c name m
  · intro st id name v hid
    exact st.get?_setField hid name v
  · intro fuel
    refine ⟨evaluate_keepsFields fuel, execute_keepsFields fuel, ?_⟩
    intro s source id name h
    exact Session.binds_run h fuel source
  · intro m i outer name superclass methods he hi
    exact declareClass_ok he hi name superclass methods

/-- A program that keeps a function in a field, which is nested in a method and calls the method of the
superclass, and then gives the name of the superclass another value. -/
def rebinding : String :=
  "class A \x7b m() \x7b return \"A\"; \x7d \x7d " ++
    "class B : A \x7b m() \x7b fun f() \x7b return super.m(); \x7d return f; \x7d \x7d " ++
    "var o = B(); o.x = o.m(); A = nil;"

/-- The function goes on calling the method of the class that the superclass was. -/
theorem Session.methods_dispatched_rebinding :
    let s : Session := { machine := .fresh {} fun _ => 0 }
    let s₁ := (s.run 20 rebinding).2
    let s₂ := (s₁.run 20 "print(o.x());").2
    let name : Token := ⟨.identifier, "C", 1⟩
    s.history [(20, rebinding), (20, "print(o.x());")]
        = ({ state := .fresh {} fun _ => 0 } : Dispatch.Session).history
          [(20, rebinding), (20, "print(o.x());")]
      ∧ s₂.machine.console.output.written.data = "A".toUTF8.data
      ∧ (s₂.machine.store.fields 0).binds "x" = true
      ∧ ((s₂.machine.store.setField 0 "x" .nil).fields 0).get? "x" = some .nil
      ∧ ∃ m' c, declareClass name none [] s.machine = .ok () m'
        ∧ (m'.store.scope 0).get? "C" = some (.classOf 0 c) := by
  intro s s₁ s₂ name
  obtain ⟨hhistory, -, -, hset, hkept, hdeclared⟩ := methods_dispatched {} {} fun _ => 0
  have hrun : (s₁.machine.store.fields 0).binds "x" = true ∧ 0 < s₂.machine.store.objects.size
      ∧ s₂.machine.console.output.written.data = "A".toUTF8.data := by
    decide +kernel
  obtain ⟨hx, hobject, hwritten⟩ := hrun
  obtain ⟨m', c, hm', hc, -⟩ := hdeclared s.machine 0 [] name none [] rfl (by decide)
  refine ⟨hhistory _, hwritten, (hkept 20).2.2 s₁ _ 0 "x" hx, ?_, m', c, hm', hc⟩
  exact hset s₂.machine.store 0 "x" .nil hobject

end Lox
