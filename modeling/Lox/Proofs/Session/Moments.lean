import Lox.Proofs.Heap.Frame
import Lox.Proofs.Safety.Watch
import Lox.Proofs.Scoping.Accepted
import Lox.Proofs.Session.Restored

/-!
The moments of a session. A moment is a machine with the values at hand, which are those that have been
computed; it leads to others by the evaluation of expressions and the execution of statements, as far as
these get, and by the single steps that come after them in a run that is under way (`Moment.Leads`). A
session is led to from a fresh machine, and leads to all moments of its next run
(`Session.Reachable.leads`). At every moment all code at hand has been accepted, all objects are there,
and what a scope has once bound `this` to it binds it to (`Moment.Leads.kept`).
-/

namespace Lox

/-! ### Moments -/

/-- A machine, and the values that have been computed and may still be used. -/
structure Moment where
  machine : Machine
  values : List Value := []

/-- The moments that a moment leads to: expressions are evaluated and statements that are accepted are
executed, each with any fuel, in any environment and with any table, to the end or to where a watch stops
it; and with the values at hand everything is done that a machine does in one step. -/
inductive Moment.Leads (t : Moment) : Moment → Prop
  | refl : Leads t t
  | shift {u} (h : Leads t u) (host : Host) (environment : Environment) (distances : Distances)
      (nextIdentity : Nat) :
      Leads t ⟨⟨host, u.machine.store, environment, distances, nextIdentity⟩, u.values⟩
  | evaluate {u} (h : Leads t u) (k : Watch) (fuel : Nat) {e : Expr} (he : e.Proper) :
      Leads t ⟨machineOf (k.evaluate fuel e u.machine), u.values⟩
  | value {u} (h : Leads t u) {fuel : Nat} {e : Expr} (he : e.Proper) {v : Value} {m : Machine}
      (hv : Lox.evaluate fuel e u.machine = .ok v m) : Leads t ⟨m, v :: u.values⟩
  | execute {u} (h : Leads t u) (k : Watch) (fuel : Nat) {body : Option BodyKind} {s : Stmt}
      (hs : s.Accepted body) : Leads t ⟨machineOf (k.execute fuel s u.machine), u.values⟩
  | constant {u} (h : Leads t u) (value : Literal) :
      Leads t ⟨u.machine, .ofLiteral value :: u.values⟩
  | held {u} (h : Leads t u) {p : Place} {name : String} {v : Value}
      (hv : (u.machine.store.contents p).get? name = some v) : Leads t ⟨u.machine, v :: u.values⟩
  | bind {u} (h : Leads t u) (i : ScopeId) {name : String} (hn : name ≠ "this") {v : Value}
      (hv : v ∈ u.values) :
      Leads t ⟨{ u.machine with store := u.machine.store.setIn i name v }, u.values⟩
  | extend {u} (h : Leads t u) {b : Bindings Value}
      (hb : ∀ name v, b.get? name = some v → v ∈ u.values) :
      Leads t ⟨{ u.machine with store := u.machine.store.push b }, u.values⟩
  | setField {u} (h : Leads t u) {id : Nat} {c : Class} (ho : .object id c ∈ u.values)
      (name : String) {v : Value} (hv : v ∈ u.values) :
      Leads t ⟨{ u.machine with store := u.machine.store.setField id name v }, u.values⟩
  | newObject {u} (h : Leads t u) {id : Nat} {c : Class} (hc : .classOf id c ∈ u.values) :
      Leads t ⟨{ u.machine with store := u.machine.store.pushObject },
        .object u.machine.store.objects.size c :: u.values⟩

/-- The moments of a session that has run what it has run. -/
def Session.start (s : Session) : Moment :=
  ⟨s.machine, []⟩

namespace Moment

variable {t u w : Moment}

theorem Leads.trans (h : t.Leads u) (h' : u.Leads w) : t.Leads w := by
  induction h' with
  | refl => exact h
  | shift _ host environment distances nextIdentity ih =>
    exact ih.shift host environment distances nextIdentity
  | evaluate _ k fuel he ih => exact ih.evaluate k fuel he
  | value _ he hv ih => exact ih.value he hv
  | execute _ k fuel hs ih => exact ih.execute k fuel hs
  | constant _ value ih => exact ih.constant value
  | held _ hv ih => exact ih.held hv
  | bind _ i hn hv ih => exact ih.bind i hn hv
  | extend _ hb ih => exact ih.extend hb
  | setField _ ho name hv ih => exact ih.setField ho name hv
  | newObject _ hc ih => exact ih.newObject hc

/-- The statements of a program lead from one to the next. -/
theorem Leads.program {m : Machine} {values : List Value} (h : t.Leads ⟨m, values⟩) (k : Watch)
    (fuel : Nat) {p : Program} (hp : ∀ s ∈ p, s.Accepted none) :
    t.Leads ⟨machineOf ((p.forM fun s => discard (k.execute fuel s)) m), values⟩ := by
  induction p generalizing m with
  | nil => exact h
  | cons s rest ih =>
    have hfirst := h.execute k fuel (hp s List.mem_cons_self)
    show t.Leads ⟨machineOf ((discard (k.execute fuel s) >>= fun _ =>
      rest.forM fun s => discard (k.execute fuel s)) m), values⟩
    cases hr : k.execute fuel s m with
    | ok c n =>
      rw [hr] at hfirst
      have hfirst' : discard (k.execute fuel s) m = .ok () n := by
        show EStateM.map _ (k.execute fuel s) m = _
        rw [EStateM.map, hr]
      rw [bind_ok hfirst']
      exact ih hfirst fun t ht => hp t (List.mem_cons_of_mem s ht)
    | error stop n =>
      rw [hr] at hfirst
      have hfirst' : discard (k.execute fuel s) m = .error stop n := by
        show EStateM.map _ (k.execute fuel s) m = _
        rw [EStateM.map, hr]
      rw [bind_error hfirst']
      exact hfirst

end Moment

/-! ### What stays as it is in all of them -/

/-- Everything that is bound satisfies a condition. -/
def Store.Holds (st : Store) (post : Value → Prop) : Prop :=
  ∀ p name v, (st.contents p).get? name = some v → post v

/-- Some place is bound anew. -/
theorem Store.Holds.set {st st' : Store} {post : Value → Prop} (h : st.Holds post) {p : Place}
    {name : String} {v : Value} (hcontents : ∀ q, st'.contents q =
      if q = p ∧ st.Has q then (st.contents q).set name v else st.contents q) (hv : post v) :
    st'.Holds post := by
  intro q n u hu
  rw [hcontents] at hu
  split at hu
  · rw [Bindings.get?_set] at hu
    split at hu
    · cases hu
      exact hv
    · exact h q n u hu
  · exact h q n u hu

/-- All code is accepted, all objects are there, and a scope that binds `this` binds it to the same
object for good. -/
def Invariant.accepted : Invariant where
  code := .accepted
  store st := st.Holds fun v => v.Satisfies .accepted (fun _ => True) (· < st.objects.size)
  le st st' := st.objects.size ≤ st'.objects.size
    ∧ ∀ i v, (st.scope i).get? "this" = some v → (st'.scope i).get? "this" = some v
  le_refl _ := ⟨Nat.le_refl _, fun _ _ h => h⟩
  le_trans h h' := ⟨Nat.le_trans h.1 h'.1, fun i v hv => h'.2 i v (h.2 i v hv)⟩
  environment _ := True
  object st id := id < st.objects.size
  object_mono h hid := Nat.lt_of_lt_of_le hid h.1
  globals := trivial
  getIn {st _ i name v} hs _ _ hget := hs (.scope i) name v hget
  setIn {st _ i name v} hs _ _ hv hn := by
    refine ⟨hs.set (fun q => st.contents_setIn q name v i) hv, Nat.le_refl _, ?_⟩
    intro j u hu
    rw [Store.scope_setIn]
    split
    · rw [Bindings.get?_set, if_neg hn]
      exact hu
    · exact hu
  push {st _ b} hs _ hb := by
    refine ⟨?_, ⟨Nat.le_refl _, ?_⟩, trivial⟩
    · intro p name v hv
      rw [Store.contents_push] at hv
      split at hv
      · exact hb name v hv
      · exact hs p name v hv
    · intro j u hu
      rw [Store.scope_push]
      split
      · rename_i hj
        rw [hj, st.scope_eq_nil (Nat.le_refl _)] at hu
        cases hu
      · exact hu
  field {_ id name v} hs _ hget := hs (.object id) name v hget
  setField {st id v} hs _ hv name := by
    have hsize : (st.setField id name v).objects.size = st.objects.size := by
      simp [Store.setField]
    refine ⟨?_, Nat.le_of_eq hsize.symm, fun _ _ h => h⟩
    rw [hsize]
    exact hs.set (fun q => st.contents_setField q name v id) hv
  pushObject {st} hs := by
    have hsize : st.pushObject.objects.size = st.objects.size + 1 := by
      simp [Store.pushObject]
    rw [hsize]
    refine ⟨?_, ⟨Nat.le_succ _, fun _ _ h => h⟩, Nat.lt_succ_self _⟩
    intro p name v hv
    rw [Store.contents_pushObject] at hv
    split at hv
    · cases hv
    · exact (hs p name v hv).mono fun _ hid => Nat.lt_succ_of_lt hid

namespace Machine

/-- All that is bound is accepted. -/
def Accepted (m : Machine) : Prop :=
  Invariant.accepted.store m.store

theorem fresh_accepted (console : Console) (clock : Nat → Float) :
    (Machine.fresh console clock).Accepted := by
  intro p name v hv
  -- Only the first scope binds something, and what it binds are native functions.
  have hnative : ∃ host, v = .native host := by
    cases p with
    | object id => cases hv
    | scope i =>
      cases i with
      | succ i => cases hv
      | zero =>
        obtain ⟨l, l', hl, -⟩ := List.lookup_eq_some_iff.1 hv
        have hmem : (name, v) ∈ Machine.initialGlobals := by
          rw [show Machine.initialGlobals = _ from hl]
          exact List.mem_append_right l List.mem_cons_self
        obtain ⟨host, -, hhost⟩ := List.mem_map.1 hmem
        cases hhost
        exact ⟨host, rfl⟩
  obtain ⟨host, rfl⟩ := hnative
  trivial

end Machine

namespace Moment

variable {t u : Moment}

/-- All that is bound or at hand is accepted. -/
def Accepted (t : Moment) : Prop :=
  t.machine.Accepted ∧ ∀ v ∈ t.values, Invariant.accepted.Value t.machine.store v

/-- What is at hand is accepted later on as well. -/
theorem Accepted.later (h : t.Accepted) {m : Machine} (hm : m.Accepted)
    (hle : Invariant.accepted.le t.machine.store m.store) : Accepted ⟨m, t.values⟩ :=
  ⟨hm, fun v hv => (h.2 v hv).later hle⟩

theorem Accepted.cons {m : Machine} {values : List Value} (h : Accepted ⟨m, values⟩) {v : Value}
    (hv : Invariant.accepted.Value m.store v) : Accepted ⟨m, v :: values⟩ := by
  refine ⟨h.1, fun w hw => ?_⟩
  rcases List.mem_cons.1 hw with rfl | hw
  · exact hv
  · exact h.2 w hw

/-- What is accepted is so at all moments that are led to, and what was there is there. -/
theorem Leads.kept (h : t.Leads u) (ht : t.Accepted) :
    u.Accepted ∧ Invariant.accepted.le t.machine.store u.machine.store := by
  -- A step after which the store satisfies the invariant, and to which it may change.
  have hstep {u : Moment} {m : Machine}
      (ih : u.Accepted ∧ Invariant.accepted.le t.machine.store u.machine.store) (hm : m.Accepted)
      (hle : Invariant.accepted.le u.machine.store m.store) :
      Accepted ⟨m, u.values⟩ ∧ Invariant.accepted.le t.machine.store m.store :=
    ⟨ih.1.later hm hle, Invariant.accepted.le_trans ih.2 hle⟩
  induction h with
  | refl => exact ⟨ht, Invariant.accepted.le_refl _⟩
  | shift _ _ _ _ _ ih => exact ih
  | @evaluate u _ k fuel e he ih =>
    have hkept := (Invariant.accepted.keeps_watched fuel k).1 u.machine.environment trivial e he
      u.machine.store
    obtain ⟨hm, hle, -⟩ := hkept u.machine rfl rfl ih.1.1
    exact hstep ih hm hle
  | @value u _ fuel e he v m hv ih =>
    have hkept := (Invariant.accepted.keeps fuel).1 u.machine.environment trivial e he
      u.machine.store
    obtain ⟨hm, hle, -, hvalue⟩ := hkept u.machine rfl rfl ih.1.1
    rw [hv] at hm hle
    obtain ⟨hu, hle'⟩ := hstep ih hm hle
    exact ⟨hu.cons (hvalue v m hv), hle'⟩
  | @execute u _ k fuel body s hs ih =>
    have hkept := (Invariant.accepted.keeps_watched fuel k).2 u.machine.environment trivial s
      ⟨body, hs⟩ u.machine.store
    obtain ⟨hm, hle, -⟩ := hkept u.machine rfl rfl ih.1.1
    exact hstep ih hm hle
  | constant _ value ih => exact ⟨ih.1.cons (Value.satisfies_ofLiteral value), ih.2⟩
  | held _ hv ih => exact ⟨ih.1.cons (ih.1.1 _ _ _ hv), ih.2⟩
  | bind _ i hn hv ih =>
    obtain ⟨hm, hle⟩ := Invariant.accepted.setIn ih.1.1 trivial (List.mem_singleton_self i)
      (ih.1.2 _ hv) hn
    exact hstep ih hm hle
  | extend _ hb ih =>
    have henv : Invariant.accepted.environment [] := trivial
    obtain ⟨hm, hle, -⟩ := Invariant.accepted.push ih.1.1 henv fun name v hv =>
      ih.1.2 v (hb name v hv)
    exact hstep ih hm hle
  | setField _ ho name hv ih =>
    obtain ⟨hm, hle⟩ := Invariant.accepted.setField ih.1.1 (ih.1.2 _ ho).1 (ih.1.2 _ hv) name
    exact hstep ih hm hle
  | @newObject u _ id c hc ih =>
    obtain ⟨hm, hle, hobject⟩ := Invariant.accepted.pushObject ih.1.1
    let m : Machine := { u.machine with store := u.machine.store.pushObject }
    obtain ⟨hu, hle'⟩ := hstep (m := m) ih hm hle
    exact ⟨hu.cons ⟨hobject, ih.1.2 _ hc⟩, hle'⟩

end Moment

/-! ### Sessions -/

namespace Session

variable {s : Session}

/-- A session leads to what it is when a watch stops its next run. -/
theorem leads_runBy (s : Session) (k : Watch) (fuel : Nat) (source : String) :
    s.start.Leads (s.runBy (k.execute fuel) source).2.start := by
  rcases s.run_cases source with ⟨faults, n, -, -, hrun⟩ | ⟨p, d, n, hr, hrun⟩
  · rw [hrun]
    exact .refl
  · have hp := Program.accepted hr.made.2.proper hr.distances
    have hstart : s.start.Leads ⟨s.machine.addDistances d, []⟩ := .shift .refl _ _ _ _
    rw [hrun]
    show s.start.Leads ⟨(Run.answer (p.forM fun s => discard (k.execute fuel s))
      (s.machine.addDistances d)).2, []⟩
    rw [Run.answer_machine]
    exact hstart.program k fuel hp

theorem leads_run (s : Session) (fuel : Nat) (source : String) :
    s.start.Leads (s.run fuel source).2.start := by
  have hidle := s.leads_runBy .idle fuel source
  rw [(Watch.idle_eq fuel).2] at hidle
  exact hidle

/-- A fresh machine leads to every session. -/
theorem Reachable.leads (h : s.Reachable) :
    ∃ console clock, Moment.Leads ⟨.fresh console clock, []⟩ s.start := by
  induction h with
  | fresh limit console clock => exact ⟨console, clock, .refl⟩
  | @run s fuel source _ ih =>
    obtain ⟨console, clock, ih⟩ := ih
    exact ⟨console, clock, ih.trans (s.leads_run fuel source)⟩

/-- All that is bound or at hand at any moment of a session is accepted. -/
theorem Reachable.accepted (h : s.Reachable) {t : Moment} (ht : s.start.Leads t) : t.Accepted := by
  obtain ⟨console, clock, hleads⟩ := h.leads
  have hfresh : Moment.Accepted ⟨.fresh console clock, []⟩ :=
    ⟨Machine.fresh_accepted console clock, by simp⟩
  exact ((hleads.trans ht).kept hfresh).1

end Session

end Lox
