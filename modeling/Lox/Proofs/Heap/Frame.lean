import Lox.Proofs.Execution.Kept

/-!
What a call cannot reach it leaves as it is. The places of a store are its scopes and its objects; a
place is reached from an environment and from values if one of them mentions it, or if something that
a reached place holds does, and the globals are always reached (`Store.Reaches`). A call reaches what
its callee and its arguments reach, so that all other scopes and objects hold after it exactly what
they held before (`call_untouched`).
-/

namespace Lox

/-! ### Places -/

/-- A place of a store, at which names are bound. -/
inductive Place where
  | scope (i : ScopeId)
  | object (id : Nat)
  deriving DecidableEq

/-- The places that a value names itself: the scopes of its environment if it is a function, those of
all methods if it is a class or an object, whose class may inherit them, and the object that it is. -/
inductive Value.Mentions : Value → Place → Prop
  | function {id c i} : i ∈ c.environment → Mentions (.function id c) (.scope i)
  | method {id c layer name m i} : layer ∈ c.layers → layer.get? name = some m → i ∈ m.environment →
      Mentions (.classOf id c) (.scope i)
  | objectMethod {id c layer name m i} : layer ∈ c.layers → layer.get? name = some m →
      i ∈ m.environment → Mentions (.object id c) (.scope i)
  | object {id c} : Mentions (.object id c) (.object id)

/-- A condition on the places that a value names, in terms of environments and objects. -/
theorem Value.satisfies_iff {places : Place → Prop} (v : Value) :
    v.Satisfies .any (fun env => ∀ i ∈ env, places (.scope i)) (fun id => places (.object id))
      ↔ ∀ p, v.Mentions p → places p := by
  constructor
  · intro h p hp
    cases hp with
    | function hi => exact h.1 _ hi
    | method hlayer hget hi => exact (h _ hlayer _ _ hget).1 _ hi
    | objectMethod hlayer hget hi => exact (h.2 _ hlayer _ _ hget).1 _ hi
    | object => exact h.1
  · intro h
    cases v with
    | function id c => exact ⟨fun i hi => h _ (.function hi), trivial⟩
    | classOf id c => exact fun layer hl name m hm => ⟨fun i hi => h _ (.method hl hm hi), trivial⟩
    | object id c =>
      exact ⟨h _ .object, fun layer hl name m hm =>
        ⟨fun i hi => h _ (.objectMethod hl hm hi), trivial⟩⟩
    | _ => trivial

namespace Store

/-- What is bound at a place. -/
def contents (st : Store) : Place → Bindings Value
  | .scope i => st.scope i
  | .object id => st.fields id

/-- The place is one of the store. -/
def Has (st : Store) : Place → Prop
  | .scope i => i < st.scopes.size
  | .object id => id < st.objects.size

instance (st : Store) (p : Place) : Decidable (st.Has p) :=
  match p with
  | .scope i => inferInstanceAs (Decidable (i < st.scopes.size))
  | .object id => inferInstanceAs (Decidable (id < st.objects.size))

/-- The places that can be reached from the globals, from an environment and from values. -/
inductive Reaches (st : Store) (env : Environment) (values : List Value) : Place → Prop
  | globals : Reaches st env values (.scope 0)
  | scope {i} : i ∈ env → Reaches st env values (.scope i)
  | value {v p} : v ∈ values → v.Mentions p → Reaches st env values p
  | held {p name v q} : Reaches st env values p → (st.contents p).get? name = some v →
      v.Mentions q → Reaches st env values q

/-- Places beyond the store hold nothing. -/
theorem contents_of_not_has {st : Store} {p : Place} (h : ¬ st.Has p) : st.contents p = [] := by
  cases p with
  | scope i =>
    have hi : st.scopes.size ≤ i := Nat.le_of_not_lt h
    simp [contents, Store.scope, Array.getElem?_eq_none hi]
  | object id =>
    have hid : st.objects.size ≤ id := Nat.le_of_not_lt h
    simp [contents, fields, Array.getElem?_eq_none hid]

/-! ### Steps -/

section

variable (st : Store) (p : Place) (name : String) (v : Value)

theorem has_setIn (i : ScopeId) : (st.setIn i name v).Has p ↔ st.Has p := by
  cases p <;> simp [Has, setIn]

theorem has_setField (id : Nat) : (st.setField id name v).Has p ↔ st.Has p := by
  cases p <;> simp [Has, setField]

theorem contents_push (b : Bindings Value) :
    (st.push b).contents p = if p = .scope st.scopes.size then b else st.contents p := by
  cases p with
  | scope i =>
    by_cases hi : i = st.scopes.size
    · subst hi
      simp [contents, Store.scope, push]
    · have hp : Place.scope i ≠ .scope st.scopes.size := fun h => hi (Place.scope.inj h)
      rw [if_neg hp]
      simp [contents, Store.scope, push, Array.getElem?_push, hi]
  | object id => rfl

theorem contents_pushObject :
    st.pushObject.contents p = if p = .object st.objects.size then [] else st.contents p := by
  cases p with
  | scope i => rfl
  | object id =>
    by_cases hid : id = st.objects.size
    · subst hid
      simp [contents, fields, pushObject]
    · have hp : Place.object id ≠ .object st.objects.size := fun h => hid (Place.object.inj h)
      rw [if_neg hp]
      simp [contents, fields, pushObject, Array.getElem?_push, hid]

/-- A name is bound in one scope, if there is this scope. -/
theorem contents_setIn (i : ScopeId) :
    (st.setIn i name v).contents p =
      if p = .scope i ∧ st.Has p then (st.contents p).set name v else st.contents p := by
  cases p with
  | scope j =>
    show (st.setIn i name v).scope j = _
    rw [scope_setIn]
    simp only [Place.scope.injEq, eq_comm (a := i), Has, contents]
  | object id => simp [contents, setIn, fields]

/-- A field is set of one object, if there is this object. -/
theorem contents_setField (id : Nat) :
    (st.setField id name v).contents p =
      if p = .object id ∧ st.Has p then (st.contents p).set name v else st.contents p := by
  cases p with
  | scope j => simp [contents, setField, Store.scope]
  | object j =>
    show (st.setField id name v).fields j = _
    unfold setField fields
    rw [Array.getElem?_modify]
    by_cases hij : id = j
    · subst hij
      by_cases hid : id < st.objects.size <;> simp [contents, fields, Has, hid]
    · simp [contents, fields, hij, Ne.symm hij]

end

/-! ### What is spared -/

variable (before : Store) (env : Environment) (values : List Value)

/-- The place was reached from these roots at first, or it is a new one. -/
def Open (p : Place) : Prop :=
  before.Reaches env values p ∨ ¬ before.Has p

/-- The store has grown from one in which all places that are not open are as they are now, and the
open places are closed under what they hold. -/
structure Spares (st : Store) : Prop where
  has : ∀ p, before.Has p → st.Has p
  same : ∀ p, ¬ before.Open env values p → st.contents p = before.contents p
  holds : ∀ p name v, before.Open env values p → (st.contents p).get? name = some v →
    ∀ q, v.Mentions q → before.Open env values q

variable {before env values} {st : Store}

/-- At first nothing has changed. -/
theorem Spares.refl : before.Spares env values before where
  has _ h := h
  same _ _ := rfl
  holds p name v hp hv q hq := by
    rcases hp with hp | hp
    · exact .inl (.held hp hv hq)
    · rw [contents_of_not_has hp] at hv
      cases hv

/-- A place that the store does not have is a new one. -/
theorem Spares.open_of_not_has (h : before.Spares env values st) {p : Place} (hp : ¬ st.Has p) :
    before.Open env values p :=
  .inr fun hb => hp (h.has p hb)

/-- What an open place is bound to may change, to something that names only open places. -/
theorem Spares.update (h : before.Spares env values st) {st' : Store} {p : Place}
    (hopen : before.Open env values p) (hhas : ∀ q, st.Has q → st'.Has q)
    (hother : ∀ q, q ≠ p → st'.contents q = st.contents q)
    (hnew : ∀ name v, (st'.contents p).get? name = some v →
      (st.contents p).get? name = some v ∨ ∀ q, v.Mentions q → before.Open env values q) :
    before.Spares env values st' where
  has q hq := hhas q (h.has q hq)
  same q hq := by
    have hne : q ≠ p := by
      rintro rfl
      exact hq hopen
    rw [hother q hne]
    exact h.same q hq
  holds q name v hq hv r hr := by
    by_cases hqp : q = p
    · subst hqp
      rcases hnew name v hv with hold | hv
      · exact h.holds q name v hq hold r hr
      · exact hv r hr
    · rw [hother q hqp] at hv
      exact h.holds q name v hq hv r hr

/-- Binding one more name at an open place. -/
theorem Spares.set (h : before.Spares env values st) {st' : Store} {p : Place} {name : String}
    {v : Value} (hopen : before.Open env values p) (hhas : ∀ q, st.Has q → st'.Has q)
    (hcontents : ∀ q, st'.contents q =
      if q = p ∧ st.Has q then (st.contents q).set name v else st.contents q)
    (hv : ∀ q, v.Mentions q → before.Open env values q) : before.Spares env values st' := by
  refine h.update hopen hhas (fun q hq => ?_) fun n u hu => ?_
  · rw [hcontents, if_neg fun hqp => hq hqp.1]
  · rw [hcontents] at hu
    split at hu
    · rw [Bindings.get?_set] at hu
      split at hu
      · cases hu
        exact .inr hv
      · exact .inl hu
    · exact .inl hu

end Store

/-- Only open places are written to, and nothing but open places is named by what is computed. -/
def Invariant.spares (before : Store) (env : Environment) (values : List Lox.Value) :
    Invariant where
  code := .any
  store := before.Spares env values
  le _ _ := True
  le_refl _ := trivial
  le_trans _ _ := trivial
  environment e := ∀ i ∈ e, before.Open env values (.scope i)
  object _ id := before.Open env values (.object id)
  object_mono _ h := h
  globals i hi := by
    cases List.mem_singleton.1 hi
    exact .inl .globals
  getIn {st e i name v} hs he hi hget :=
    v.satisfies_iff.2 (hs.holds (.scope i) name v (he i hi) hget)
  setIn {st e i name v} hs he hi hv _ := by
    refine ⟨?_, trivial⟩
    exact hs.set (he i hi) (fun q hq => (st.has_setIn q name v i).2 hq)
      (fun q => st.contents_setIn q name v i) (v.satisfies_iff.1 hv)
  push {st e b} hs he hb := by
    have hnew : before.Open env values (.scope st.scopes.size) :=
      hs.open_of_not_has (Nat.lt_irrefl _)
    refine ⟨hs.update hnew (fun q hq => ?_) (fun q hq => ?_) fun name v hv => .inr ?_, trivial, ?_⟩
    · cases q with
      | scope j => exact Nat.lt_of_lt_of_le hq (by simp [Store.push])
      | object id => exact hq
    · rw [Store.contents_push, if_neg hq]
    · rw [Store.contents_push, if_pos rfl] at hv
      exact v.satisfies_iff.1 (hb name v hv)
    · intro i hi
      rcases List.mem_cons.1 hi with rfl | hi
      · exact hnew
      · exact he i hi
  field {st id name v} hs hid hget :=
    v.satisfies_iff.2 (hs.holds (.object id) name v hid hget)
  setField {st id v} hs hid hv name := by
    refine ⟨?_, trivial⟩
    exact hs.set hid (fun q hq => (st.has_setField q name v id).2 hq)
      (fun q => st.contents_setField q name v id) (v.satisfies_iff.1 hv)
  pushObject {st} hs := by
    have hnew : before.Open env values (.object st.objects.size) :=
      hs.open_of_not_has (Nat.lt_irrefl _)
    refine ⟨hs.update hnew (fun q hq => ?_) (fun q hq => ?_) fun name v hv => ?_, trivial, hnew⟩
    · cases q with
      | scope j => exact hq
      | object id => exact Nat.lt_of_lt_of_le hq (by simp [Store.pushObject])
    · rw [Store.contents_pushObject, if_neg hq]
    · rw [Store.contents_pushObject, if_pos rfl] at hv
      cases hv

/-! ### Runs -/

/-- However the run ends, its places are still there, and those that could not be reached from these
roots hold what they held. -/
def Run.Spares (env : Environment) (values : List Value) {α : Type} (run : Run α) : Prop :=
  ∀ m p, m.store.Has p → (machineOf (run m)).store.Has p ∧
    (¬ m.store.Reaches env values p →
      (machineOf (run m)).store.contents p = m.store.contents p)

/-- A run spares what it cannot reach if it keeps the invariant of sparing it. -/
theorem Invariant.Keeps.spares {env : Environment} {values : List Lox.Value} {α : Type}
    {run : Run α} (h : ∀ before outer, ∃ post : Store → α → Prop,
      (Invariant.spares before env values).Keeps before outer run post) : Run.Spares env values run := by
  intro m p hp
  obtain ⟨post, h⟩ := h m.store m.environment
  obtain ⟨hs, -⟩ := h m rfl rfl .refl
  refine ⟨hs.has p hp, fun hreach => hs.same p ?_⟩
  rintro (hr | hn)
  · exact hreach hr
  · exact hn hp

section

variable (fuel : Nat)

/-- A body reaches no more than its environment does. -/
theorem body_spares (env : Environment) (body : List Stmt) :
    Run.Spares env [] (Run.within env (executeEach (execute fuel) body)) := by
  refine Invariant.Keeps.spares fun before outer => ?_
  have henv : (Invariant.spares before env []).environment env := fun i hi => .inl (.scope hi)
  have hbody : Invariant.Keeps _ before env (executeEach (execute fuel) body) _ :=
    Invariant.Keeps.executeEach (Invariant.keeps _ fuel).2 henv fun _ _ => trivial
  exact ⟨_, hbody.within⟩

/-- A call reaches no more than its callee and its arguments do. -/
theorem call_spares (callee : Value) (arguments : List Value) (line : Nat) :
    Run.Spares [] (callee :: arguments)
      (callee.call (executeEach (execute fuel)) arguments line) := by
  refine Invariant.Keeps.spares fun before outer => ?_
  have hroot : ∀ v ∈ callee :: arguments,
      (Invariant.spares before [] (callee :: arguments)).Value before v := fun v hv =>
    v.satisfies_iff.2 fun p hp => .inl (.value hv hp)
  have harguments := fun v hv => hroot v (List.mem_cons_of_mem callee hv)
  exact ⟨_, .call (Invariant.keeps _ fuel).2 (hroot callee List.mem_cons_self) harguments line⟩

end

/-! ### Activations -/

/-- A function that is among the values, or that something holds which they reach, has the scope in
its environment. -/
def Store.Captures (st : Store) (values : List Value) (i : ScopeId) : Prop :=
  ∃ v, v.Mentions (.scope i) ∧
    (v ∈ values ∨ ∃ p name, st.Reaches [] values p ∧ (st.contents p).get? name = some v)

/-- A scope that is reached is that of the globals or a captured one. -/
theorem Store.Reaches.captured {st : Store} {values : List Value} {i : ScopeId}
    (h : st.Reaches [] values (.scope i)) : i = 0 ∨ st.Captures values i := by
  cases h with
  | globals => exact .inl rfl
  | scope hi => cases hi
  | value hv hm => exact .inr ⟨_, hm, .inl hv⟩
  | held hp hv hm => exact .inr ⟨_, hm, .inr ⟨_, _, hp, hv⟩⟩

/-- The end of a call, where an initializer gives its object. -/
def Closure.result (c : Closure) (line : Nat) (completion : Completion) : Run Value :=
  if c.isInitializer then Run.getAt c.environment 0 "this" line
  else match completion with
    | .returned value => return value
    | .normal => return .nil

/-- An activation of a function: its body is executed in a scope that the store did not have, which
binds the parameters. -/
theorem Closure.call_eq (execute : List Stmt → Run Completion) (c : Closure)
    (arguments : List Value) (line : Nat) (m : Machine) :
    c.call execute arguments line m =
      (Run.within (m.store.scopes.size :: c.environment) (execute c.routine.body) >>=
        c.result line) { m with store := m.store.push (c.frame arguments) } :=
  rfl

/-- A call leaves every scope and every object that is not reached from its callee, its arguments and
the globals as it is, however it ends, the scopes of its caller among them unless they are captured.
Each activation of a function has a scope of its own: a later one leaves it as it is unless it is
captured, and what is left of the earlier one does not touch the scope of the later one unless it
reaches it. -/
theorem call_untouched (fuel : Nat) :
    (∀ callee arguments line, Run.Spares [] (callee :: arguments)
      (callee.call (executeEach (execute fuel)) arguments line))
      ∧ (∀ (callee : Value) arguments line (m : Machine), ∀ i ∈ m.environment, i ≠ 0 →
        m.store.Has (.scope i) → ¬ m.store.Captures (callee :: arguments) i →
        (machineOf (callee.call (executeEach (execute fuel)) arguments line m)).store.scope i
          = m.store.scope i)
      ∧ ∀ (c : Closure) arguments line (m : Machine),
        let first := m.store.scopes.size
        let body := executeEach (execute fuel)
        c.call body arguments line m =
            (Run.within (first :: c.environment) (body c.routine.body) >>= c.result line)
              { m with store := m.store.push (c.frame arguments) }
          ∧ ∀ n : Machine, first ≠ 0 → n.store.Has (.scope first) →
            let second := n.store.scopes.size
            second ≠ first
              ∧ (∀ id arguments' line',
                ¬ n.store.Captures (.function id c :: arguments') first →
                (machineOf ((Value.function id c).call body arguments' line' n)).store.scope first
                  = n.store.scope first)
              ∧ ∀ (m' : Machine) rest, m'.store.Has (.scope second) →
                ¬ m'.store.Reaches (first :: c.environment) [] (.scope second) →
                (machineOf (Run.within (first :: c.environment) (body rest) m')).store.scope second
                  = m'.store.scope second := by
  have huncaptured : ∀ (callee : Value) arguments line (m : Machine) i, i ≠ 0 →
      m.store.Has (.scope i) → ¬ m.store.Captures (callee :: arguments) i →
      (machineOf (callee.call (executeEach (execute fuel)) arguments line m)).store.scope i
        = m.store.scope i := by
    intro callee arguments line m i hi hhas hfree
    refine (call_spares fuel callee arguments line m (.scope i) hhas).2 fun hreach => ?_
    rcases hreach.captured with h | h
    · exact hi h
    · exact hfree h
  refine ⟨call_spares fuel, fun callee arguments line m i _ => huncaptured callee arguments line m i,
    ?_⟩
  intro c arguments line m first body
  refine ⟨c.call_eq body arguments line m, ?_⟩
  intro n hfirst hhas second
  refine ⟨?_, fun id arguments' line' => huncaptured _ arguments' line' n first hfirst hhas, ?_⟩
  · have hlt : first < second := hhas
    omega
  · intro m' rest hhas' hreach
    exact (body_spares fuel (first :: c.environment) rest m' (.scope second) hhas').2 hreach

/-! ### Two counters

Their variables are bound in the scopes 1 and 2, and the first one is called. -/

namespace Counters

/-- The function of the first counter. -/
def first : Closure where
  routine := .mk ⟨.identifier, "count", 1⟩ []
    [.expression (.assign 0 ⟨.identifier, "n", 2⟩ (.literal 1 (.string "more")))]
  environment := [1, 0]
  isInitializer := false

/-- The second counter is in force. -/
def machine : Machine where
  store := { scopes := #[[], [("n", .string "none")], [("n", .string "none")]] }
  environment := [2, 0]
  distances := .ofList [(0, 1)]
  console := {}
  clock := fun _ => 0

/-- The machine while the first counter is active. -/
def active : Machine :=
  { machine with store := machine.store.push (first.frame []) }

/-- The machine while a second activation of the first counter is active in the first one. -/
def twice : Machine :=
  { active with store := active.store.push (first.frame []) }

section

variable {st : Store} {env : Environment} {values : List Value} (h0 : st.scope 0 = [])
  (h1 : st.scope 1 = [("n", .string "none")]) (h3 : st.scope 3 = [])

include h0 h1 h3

/-- What the scopes of the first counter hold leads nowhere. -/
theorem not_mentions_of_held {i : ScopeId} (hi : i ∈ [3, 1, 0]) {name : String} {v : Value}
    (hv : (st.contents (.scope i)).get? name = some v) (p : Place) : ¬ v.Mentions p := by
  have hcases : i = 3 ∨ i = 1 ∨ i = 0 := by simpa using hi
  rcases hcases with rfl | rfl | rfl
  · simp [Store.contents, h3] at hv
  · simp only [Store.contents, h1, Bindings.get?_cons] at hv
    split at hv
    · cases hv
      rintro ⟨⟩
    · cases hv
  · simp [Store.contents, h0] at hv

/-- The first counter reaches its own scope, that of its activation and the globals only. -/
theorem scope_of_reaches (henv : ∀ i ∈ env, i ∈ [3, 1, 0])
    (hvalues : ∀ v ∈ values, v = .function 0 first) {p : Place} (h : st.Reaches env values p) :
    ∃ i ∈ [3, 1, 0], p = .scope i := by
  induction h with
  | globals => exact ⟨0, by decide, rfl⟩
  | scope hi => exact ⟨_, henv _ hi, rfl⟩
  | value hv hm =>
    cases hvalues _ hv
    cases hm with
    | function hi => exact ⟨_, List.mem_cons_of_mem 3 hi, rfl⟩
  | held _ hv hm ih =>
    obtain ⟨i, hi, rfl⟩ := ih
    exact absurd hm (not_mentions_of_held h0 h1 h3 hi hv _)

/-- The first counter captures its own scope and the globals only. -/
theorem not_captures {i : ScopeId} (hi : i ∉ first.environment) :
    ¬ st.Captures [.function 0 first] i := by
  rintro ⟨v, hm, hv | ⟨p, name, hp, hv⟩⟩
  · cases List.mem_singleton.1 hv
    cases hm with
    | function hmem => exact hi hmem
  · obtain ⟨j, hj, rfl⟩ := scope_of_reaches h0 h1 h3 (by simp) (by simp) hp
    exact not_mentions_of_held h0 h1 h3 hj hv _ hm

end

end Counters

open Counters in
/-- A call of the first counter changes its own variable, but neither that of the second one nor the
scope of an activation that has begun before; what is left of that activation does not touch the
scope of the later one. -/
theorem call_untouched_counters :
    (machineOf ((Value.function 0 first).call (executeEach (execute 3)) [] 1 machine)).store.scope 1
        = [("n", .string "more")]
      ∧ (machineOf ((Value.function 0 first).call (executeEach (execute 3)) [] 1 machine)).store.scope
        2 = [("n", .string "none")]
      ∧ (machineOf ((Value.function 0 first).call (executeEach (execute 3)) [] 1 active)).store.scope 3
        = []
      ∧ (machineOf (Run.within [3, 1, 0] (executeEach (execute 3) first.routine.body)
        twice)).store.scope 4 = [] := by
  obtain ⟨-, hcaller, hactivation⟩ := call_untouched 3
  have hfree : ¬ machine.store.Captures [.function 0 first] 2 :=
    not_captures rfl rfl rfl (by decide)
  have hfree' : ¬ active.store.Captures [.function 0 first] 3 :=
    not_captures rfl rfl rfl (by decide)
  have hbeyond : ¬ twice.store.Reaches [3, 1, 0] [] (.scope 4) := by
    intro h
    obtain ⟨i, hi, heq⟩ := scope_of_reaches rfl rfl rfl (by simp) (by simp) h
    cases heq
    exact absurd hi (by decide)
  obtain ⟨-, hlater⟩ := hactivation first [] 1 machine
  obtain ⟨-, hscope, hrest⟩ := hlater active (by decide) (by decide)
  refine ⟨by rfl, hcaller _ _ _ machine 2 (by decide) (by decide) (by decide) hfree, ?_, ?_⟩
  · exact hscope 0 [] 1 hfree'
  · exact hrest twice first.routine.body (by decide) hbeyond

end Lox
