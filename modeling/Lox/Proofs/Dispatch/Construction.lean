import Lox.Proofs.Session.Moments

/-!
Construction of objects. A call of a class with as many arguments as its initializer has parameters makes
an object at a place of its own, executes the body of that initializer once, with the object as `this`
around it and the parameters bound to the arguments, and gives the object however the body is completed
(`Session.Reachable.constructs`). A call of an initializer that has been read from an object gives that
object, at any later moment.
-/

namespace Lox

/-! ### Frames -/

/-- What one binding after another makes of the names: those that are bound are bound to the value at
their place, all others to what they were. -/
theorem Bindings.get?_foldl_set {params : List Token} (h : (params.map Token.lexeme).Nodup)
    (values : List Value) (b : Bindings Value) :
    let b' := (params.zip values).foldl (fun b e => b.set e.1.lexeme e.2) b
    (∀ name, name ∉ params.map Token.lexeme → b'.get? name = b.get? name)
      ∧ ∀ (i : Nat) (param : Token) v, params[i]? = some param → values[i]? = some v →
        b'.get? param.lexeme = some v := by
  induction params generalizing values b with
  | nil => exact ⟨fun _ _ => rfl, fun _ _ _ hp => nomatch hp⟩
  | cons first rest ih =>
    obtain ⟨hfirst, hrest⟩ := List.nodup_cons.1 h
    cases values with
    | nil => exact ⟨fun _ _ => rfl, fun _ _ _ _ hv => nomatch hv⟩
    | cons value values =>
      obtain ⟨hother, hbound⟩ := ih hrest values (b.set first.lexeme value)
      refine ⟨fun name hname => ?_, fun i param v hp hv => ?_⟩
      · obtain ⟨hne, hname⟩ := not_or.1 fun h => hname (List.mem_cons.2 h)
        exact (hother name hname).trans (by rw [Bindings.get?_set, if_neg (Ne.symm hne)])
      · cases i with
        | zero =>
          cases hp
          cases hv
          exact (hother _ hfirst).trans (by rw [Bindings.get?_set, if_pos rfl])
        | succ i => exact hbound i param v hp hv

/-- A call binds each parameter to the argument at its place. -/
theorem Closure.get?_frame {c : Closure} (h : (c.routine.params.map Token.lexeme).Nodup)
    {arguments : List Value} {i : Nat} {param : Token} {v : Value}
    (hp : c.routine.params[i]? = some param) (hv : arguments[i]? = some v) :
    (c.frame arguments).get? param.lexeme = some v :=
  (Bindings.get?_foldl_set h arguments []).2 i param v hp hv

/-! ### The body of a function -/

section

variable {m : Machine} {c : Closure} {arguments : List Value} {fuel : Nat}

/-- The body of an accepted function, called with accepted arguments, leaves what it is called in
accepted, and binds `this` anew in no scope. -/
theorem Closure.body_kept (hm : m.Accepted) (hc : c.Satisfies .accepted fun _ => True)
    (ha : ∀ v ∈ arguments, Invariant.accepted.Value m.store v)
    {r : EStateM.Result Stop Machine Completion}
    (hr : Run.within (m.store.scopes.size :: c.environment)
      (executeEach (execute fuel) c.routine.body) { m with store := m.store.push (c.frame arguments) }
        = r) : (machineOf r).Accepted ∧ Invariant.accepted.le m.store (machineOf r).store := by
  obtain ⟨hm', hle, henv⟩ := Invariant.accepted.push hm (b := c.frame arguments) hc.1
    fun name v hv => ha v (Invariant.Keeps.mem_of_frame (c := c) hv)
  have hbody : Invariant.accepted.Keeps (m.store.push (c.frame arguments)) m.environment
      (Run.within (m.store.scopes.size :: c.environment)
        (executeEach (execute fuel) c.routine.body)) _ :=
    (Invariant.Keeps.executeEach (Invariant.accepted.keeps fuel).2 henv
      (Invariant.accepted.code.body hc.2)).within
  obtain ⟨hm'', hle', -⟩ :=
    hbody { m with store := m.store.push (c.frame arguments) } rfl rfl hm'
  rw [hr] at hm'' hle'
  exact ⟨hm'', Invariant.accepted.le_trans hle hle'⟩

/-- The end of a call of an initializer is the object around it. -/
theorem Closure.result_initializer (hc : c.isInitializer = true) {i : ScopeId} {outer : Environment}
    (he : c.environment = i :: outer) {v : Value} (hv : (m.store.scope i).get? "this" = some v)
    (line : Nat) (completion : Completion) : c.result line completion m = .ok v m := by
  have hget : m.store.getAt c.environment 0 "this" = .ok v :=
    Store.getAt_eq_ok (by rw [he]; exact hv)
  unfold Closure.result
  rw [if_pos hc]
  show Run.ofExcept line (m.store.getAt c.environment 0 "this") m = _
  rw [hget]
  rfl

/-- A call of an initializer that is bound to an object gives the object when its body is completed,
however it is. -/
theorem Closure.call_initializer (hm : m.Accepted) (hc : c.Satisfies .accepted fun _ => True)
    (ha : ∀ v ∈ arguments, Invariant.accepted.Value m.store v) (hi : c.isInitializer = true)
    {i : ScopeId} {outer : Environment} (he : c.environment = i :: outer) {object : Value}
    (hthis : (m.store.scope i).get? "this" = some object) (fuel line : Nat) :
    c.call (executeEach (execute fuel)) arguments line m =
      (Run.within (m.store.scopes.size :: c.environment) (executeEach (execute fuel) c.routine.body)
        >>= fun _ => pure object) { m with store := m.store.push (c.frame arguments) } := by
  rw [Closure.call_eq]
  cases hr : Run.within (m.store.scopes.size :: c.environment)
      (executeEach (execute fuel) c.routine.body)
      { m with store := m.store.push (c.frame arguments) } with
  | error stop n => rw [bind_error hr, bind_error hr]
  | ok completion n =>
    obtain ⟨-, -, hkept⟩ := Closure.body_kept hm hc ha hr
    have hthis' : (n.store.scope i).get? "this" = some object := hkept i object hthis
    rw [bind_ok hr, bind_ok hr, Closure.result_initializer hi he hthis']
    rfl

end

/-! ### Initializers -/

/-- The method of an accepted class that is named `init` is called as an initializer, and no two of its
parameters have one name. -/
theorem Class.Satisfies.initializer {c : Class} (hc : c.Satisfies .accepted fun _ => True)
    {init : Closure} (h : c.method? "init" = some init) :
    init.Satisfies .accepted (fun _ => True) ∧ init.isInitializer = true
      ∧ (init.routine.params.map Token.lexeme).Nodup := by
  obtain ⟨-, haccepted, hname, hflag⟩ := hc.method h
  refine ⟨hc.function h, ?_, haccepted.params⟩
  rw [hflag, Routine.isInitializer, hname]
  rfl

/-- A method that is bound to an object, whose scope is the innermost one of the store. -/
def Closure.boundIn (c : Closure) (st : Store) : Closure :=
  { c with environment := st.scopes.size :: c.environment }

namespace Machine

/-- The object that a call of a class makes. -/
def newInstance (m : Machine) (c : Class) : Value :=
  .object m.store.objects.size c

/-- The machine once `this` is bound to an object. -/
def bindingThis (m : Machine) (object : Value) : Machine :=
  { m with store := m.store.push [("this", object)] }

/-- The machine in which the body of an initializer begins. -/
def constructing (m : Machine) (c : Class) (init : Closure) (arguments : List Value) : Machine :=
  { m with
    store := (m.store.pushObject.push [("this", m.newInstance c)]).push (init.frame arguments) }

/-- The environment in which it begins. -/
def constructionEnvironment (m : Machine) (init : Closure) : Environment :=
  (m.store.scopes.size + 1) :: m.store.scopes.size :: init.environment

variable {m : Machine}

theorem Accepted.bindingThis (hm : m.Accepted) {object : Value}
    (ho : Invariant.accepted.Value m.store object) :
    (m.bindingThis object).Accepted
      ∧ Invariant.accepted.le m.store (m.bindingThis object).store := by
  have henv : Invariant.accepted.environment [] := trivial
  obtain ⟨hm', hle, -⟩ := Invariant.accepted.push hm henv
    (b := [("this", object)]) fun name v hv => by
      rw [Bindings.get?_cons] at hv
      split at hv
      · cases hv
        exact ho
      · cases hv
  exact ⟨hm', hle⟩

theorem this_bindingThis (m : Machine) (object : Value) :
    ((m.bindingThis object).store.scope m.store.scopes.size).get? "this" = some object := by
  show ((m.store.push [("this", object)]).scope m.store.scopes.size).get? "this" = _
  rw [Store.scope_push, if_pos rfl, Bindings.get?_cons, if_pos rfl]

end Machine

section

variable {m : Machine} {c : Class} {init : Closure} {arguments : List Value}

/-- The body of an initializer has the object as `this` around it, and the parameters are bound to the
arguments in order. -/
theorem Machine.constructing_binds (h : (init.routine.params.map Token.lexeme).Nodup) :
    (m.constructing c init arguments).store.getAt (m.constructionEnvironment init) 1 "this"
        = .ok (m.newInstance c)
      ∧ ∀ (i : Nat) (param : Token) v, init.routine.params[i]? = some param →
        arguments[i]? = some v →
        (m.constructing c init arguments).store.getAt (m.constructionEnvironment init) 0 param.lexeme
          = .ok v := by
  have hsize : (m.store.pushObject.push [("this", m.newInstance c)]).scopes.size
      = m.store.scopes.size + 1 := Store.size_push _ _
  refine ⟨Store.getAt_eq_ok ?_, fun i param v hp hv => Store.getAt_eq_ok ?_⟩
  · show ((m.constructing c init arguments).store.scope m.store.scopes.size).get? "this" = _
    unfold Machine.constructing
    rw [Store.scope_push, hsize, if_neg (Nat.ne_of_lt (Nat.lt_succ_self _)), Store.scope_push]
    exact if_pos rfl ▸ rfl
  · show ((m.constructing c init arguments).store.scope (m.store.scopes.size + 1)).get? _ = _
    unfold Machine.constructing
    rw [Store.scope_push, hsize, if_pos rfl]
    exact Closure.get?_frame h hp hv

section

variable (hm : m.Accepted) (hc : c.Satisfies .accepted fun _ => True)
  (ha : ∀ v ∈ arguments, Invariant.accepted.Value m.store v)

include hm hc ha

/-- An object is set up by executing the body of its initializer once. -/
theorem Class.instantiate_eq (h : c.method? "init" = some init) (fuel line : Nat) :
    c.instantiate (executeEach (execute fuel)) arguments line m =
        (Run.within (m.constructionEnvironment init) (executeEach (execute fuel) init.routine.body)
          >>= fun _ => pure (m.newInstance c)) (m.constructing c init arguments)
      ∧ m.store.objects.size
        < (machineOf (c.instantiate (executeEach (execute fuel)) arguments line m)).store.objects.size
    := by
  obtain ⟨haccepted, hflag, -⟩ := hc.initializer h
  let m₁ : Machine := { m with store := m.store.pushObject }
  let m₂ : Machine := m₁.bindingThis (m.newInstance c)
  let bound : Closure := init.boundIn m.store
  -- Before the call the object is there and `this` is bound to it.
  obtain ⟨hm₁, hle₁, hobject⟩ := Invariant.accepted.pushObject hm
  have hvalue : Invariant.accepted.Value m₁.store (m.newInstance c) := ⟨hobject, hc⟩
  obtain ⟨hm₂, hle₂⟩ := Machine.Accepted.bindingThis (m := m₁) hm₁ hvalue
  have hle := Invariant.accepted.le_trans hle₁ hle₂
  have hcall : c.instantiate (executeEach (execute fuel)) arguments line m =
      (bound.call (executeEach (execute fuel)) arguments line
        >>= fun _ => pure (m.newInstance c)) m₂ := by
    unfold Class.instantiate
    rw [show c.initializer? = some init from h]
    rfl
  have hsize : m.store.objects.size < m₂.store.objects.size := by
    show _ < m.store.pushObject.objects.size
    simp [Store.pushObject]
  have hinside : m.constructionEnvironment init = m₂.store.scopes.size :: bound.environment := by
    show _ = (m.store.pushObject.push [("this", m.newInstance c)]).scopes.size :: _
    rw [Store.size_push]
    rfl
  rw [hcall, hinside]
  have hreturned := Closure.call_initializer (c := bound) hm₂ haccepted
    (fun v hv => (ha v hv).later hle) hflag rfl (m₁.this_bindingThis (m.newInstance c)) fuel line
  cases hr : Run.within (m₂.store.scopes.size :: bound.environment)
      (executeEach (execute fuel) init.routine.body) (m.constructing c init arguments) with
  | error stop n =>
    obtain ⟨-, hgrown, -⟩ := Closure.body_kept (c := bound) hm₂ haccepted
      (fun v hv => (ha v hv).later hle) hr
    rw [bind_error (hreturned.trans (bind_error hr)), bind_error hr]
    exact ⟨rfl, Nat.lt_of_lt_of_le hsize hgrown⟩
  | ok completion n =>
    obtain ⟨-, hgrown, -⟩ := Closure.body_kept (c := bound) hm₂ haccepted
      (fun v hv => (ha v hv).later hle) hr
    rw [bind_ok (hreturned.trans (bind_ok hr)), bind_ok hr]
    exact ⟨rfl, Nat.lt_of_lt_of_le hsize hgrown⟩

end

/-! ### Calls of classes -/

/-- What a call of a class does. It is refused unless it has as many arguments as the nearest method of
the class that is named `init` has parameters, or none if there is no such method. If it is not, it gives
a new object, after the body of that method has been executed in a scope that binds the parameters to the
arguments, with the object as `this` around it. -/
structure Class.Constructs (c : Class) (fuel : Nat) (arguments : List Value) (line : Nat)
    (m : Machine) (call : Run Value) : Prop where
  refused : let count := ((c.method? "init").map fun init => init.routine.params.length).getD 0
    arguments.length ≠ count ↔
      call m = .error (.fault line (.wrongArgumentCount count arguments.length)) m
  plain : c.method? "init" = none → arguments = [] →
    call m = .ok (m.newInstance c) { m with store := m.store.pushObject }
  initialized : ∀ init, c.method? "init" = some init →
    arguments.length = init.routine.params.length →
      call m = (Run.within (m.constructionEnvironment init)
        (executeEach (execute fuel) init.routine.body) >>= fun _ => pure (m.newInstance c))
          (m.constructing c init arguments)
  binds : ∀ init, c.method? "init" = some init →
    (m.constructing c init arguments).store.getAt (m.constructionEnvironment init) 1 "this"
        = .ok (m.newInstance c)
      ∧ ∀ (i : Nat) (param : Token) v, init.routine.params[i]? = some param →
        arguments[i]? = some v →
        (m.constructing c init arguments).store.getAt (m.constructionEnvironment init) 0 param.lexeme
          = .ok v
  completed : ∀ v n, call m = .ok v n → v = m.newInstance c

theorem Class.constructs_accepted (hm : m.Accepted) (hc : c.Satisfies .accepted fun _ => True)
    (ha : ∀ v ∈ arguments, Invariant.accepted.Value m.store v) (id fuel line : Nat) :
    c.Constructs fuel arguments line m
      ((Value.classOf id c).call (executeEach (execute fuel)) arguments line) := by
  have hcall : (Value.classOf id c).call (executeEach (execute fuel)) arguments line
      = if arguments.length = c.arity then
          c.instantiate (executeEach (execute fuel)) arguments line
        else Run.fail line (.wrongArgumentCount c.arity arguments.length) := rfl
  have hplain (hnone : c.method? "init" = none) :
      c.instantiate (executeEach (execute fuel)) arguments line m
        = .ok (m.newInstance c) { m with store := m.store.pushObject } := by
    unfold Class.instantiate
    rw [show c.initializer? = none from hnone]
    rfl
  refine ⟨?_, fun hnone hnil => ?_, fun init hinit hlength => ?_, fun init hinit => ?_, ?_⟩
  · show arguments.length ≠ c.arity ↔ _
    rw [hcall]
    refine ⟨fun hne => by rw [if_neg hne]; rfl, fun hrefused hlength => ?_⟩
    -- A call that is not refused makes an object first.
    rw [if_pos hlength] at hrefused
    cases hinit : c.method? "init" with
    | none =>
      rw [hplain hinit] at hrefused
      cases hrefused
    | some init =>
      obtain ⟨-, hgrown⟩ := Class.instantiate_eq hm hc ha hinit fuel line
      rw [hrefused] at hgrown
      exact Nat.lt_irrefl _ hgrown
  · have hlength : arguments.length = c.arity := by
      rw [hnil, Class.arity, show c.initializer? = none from hnone]
      rfl
    rw [hcall, if_pos hlength, hplain hnone]
  · have harity : arguments.length = c.arity := by
      rw [hlength, Class.arity, show c.initializer? = some init from hinit]
      rfl
    rw [hcall, if_pos harity]
    exact (Class.instantiate_eq hm hc ha hinit fuel line).1
  · exact Machine.constructing_binds (hc.initializer hinit).2.2
  · intro v n hv
    rw [hcall] at hv
    split at hv
    · cases hinit : c.method? "init" with
      | none =>
        rw [hplain hinit] at hv
        cases hv
        rfl
      | some init =>
        rw [(Class.instantiate_eq hm hc ha hinit fuel line).1] at hv
        obtain ⟨_, _, -, hn⟩ := exists_of_bind_ok hv
        cases hn
        rfl
    · cases hv

end

/-! ### Calls of initializers -/

/-- A call of an initializer gives the object around it, at any moment after it has been bound to it. -/
theorem Closure.call_bound {t u : Moment} (ht : t.Accepted) (hu : t.Leads u) {c : Closure}
    (hc : c.Satisfies .accepted fun _ => True) (hi : c.isInitializer = true) {i : ScopeId}
    {outer : Environment} (he : c.environment = i :: outer) {object : Value}
    (hthis : (t.machine.store.scope i).get? "this" = some object) {arguments : List Value}
    (ha : ∀ v ∈ arguments, v ∈ u.values) (fuel line : Nat) :
    c.call (executeEach (execute fuel)) arguments line u.machine =
      (Run.within (u.machine.store.scopes.size :: c.environment)
        (executeEach (execute fuel) c.routine.body) >>= fun _ => pure object)
          { u.machine with store := u.machine.store.push (c.frame arguments) } := by
  obtain ⟨haccepted, hkept⟩ := hu.kept ht
  exact Closure.call_initializer haccepted.1 hc (fun w hw => haccepted.2 w (ha w hw)) hi he
    (hkept.2 _ _ hthis) fuel line

/-- Wherever an initializer is bound to an object, a call of it gives that object whenever it is
completed. -/
theorem Class.boundMethod_initializer {t : Moment} (ht : t.Accepted) {c : Class}
    (hc : c.Satisfies .accepted fun _ => True) {init : Closure} (h : c.method? "init" = some init)
    {name : Token} (hname : name.lexeme = "init") {object : Value} (ho : object ∈ t.values) :
    ∃ f m, c.boundMethod name object t.machine = .ok f m
      ∧ ∀ u : Moment, Moment.Leads ⟨m, f :: t.values⟩ u → ∀ (fuel line : Nat) arguments,
        (∀ v ∈ arguments, v ∈ u.values) → ∀ v n,
          f.call (executeEach (execute fuel)) arguments line u.machine = .ok v n → v = object := by
  obtain ⟨haccepted, hflag, -⟩ := hc.initializer h
  let bound : Closure := init.boundIn t.machine.store
  let m : Machine :=
    { t.machine.bindingThis object with nextIdentity := t.machine.nextIdentity + 1 }
  refine ⟨.function t.machine.nextIdentity bound, m, ?_, ?_⟩
  · unfold Class.boundMethod
    rw [hname, h]
    rfl
  · intro u hu fuel line arguments ha v n hv
    obtain ⟨hm, hle⟩ := Machine.Accepted.bindingThis ht.1 (ht.2 object ho)
    have hstart : Moment.Accepted ⟨m, .function t.machine.nextIdentity bound :: t.values⟩ :=
      (ht.later (m := m) hm hle).cons haccepted
    -- The number of arguments is right, since the call is completed.
    have hcall : bound.call (executeEach (execute fuel)) arguments line u.machine = .ok v n := by
      have hif : (if arguments.length = bound.arity then
          bound.call (executeEach (execute fuel)) arguments line
        else Run.fail line (.wrongArgumentCount bound.arity arguments.length)) u.machine
          = .ok v n := hv
      split at hif
      · exact hif
      · cases hif
    rw [Closure.call_bound (c := bound) hstart hu haccepted hflag rfl
      (t.machine.this_bindingThis object) ha fuel line] at hcall
    obtain ⟨_, _, -, hobject⟩ := exists_of_bind_ok hcall
    cases hobject
    rfl

/-! ### Sessions -/

/-- At every moment of a session a call of a class with values at hand is refused if and only if the
number of arguments is not that of the parameters of the nearest `init`, and else sets up an object once
and gives it; this object is none that was at hand before; and an `init` that is bound to an object, as
one is that is read from it or by `super`, gives that object whenever a call of it is completed, now or
at any later moment. -/
theorem Session.Reachable.constructs {s : Session} (h : s.Reachable) {t : Moment}
    (ht : s.start.Leads t) :
    (∀ id c arguments, .classOf id c ∈ t.values → (∀ v ∈ arguments, v ∈ t.values) →
        ∀ fuel line, c.Constructs fuel arguments line t.machine
          ((Value.classOf id c).call (executeEach (execute fuel)) arguments line))
      ∧ (∀ u : Moment, s.start.Leads u → u.Leads t → ∀ k d c, .object k d ∈ u.values →
        (Value.object k d).equals (t.machine.newInstance c) = false)
      ∧ ∀ k d c init (name : Token), .object k d ∈ t.values →
        (c = d ∨ ∃ id, .classOf id c ∈ t.values) → c.method? "init" = some init →
        name.lexeme = "init" →
          ∃ f m, c.boundMethod name (.object k d) t.machine = .ok f m
            ∧ (c = d → (t.machine.store.fields k).get? "init" = none →
              (Value.object k d).property name t.machine = .ok f m)
            ∧ ∀ u : Moment, Moment.Leads ⟨m, f :: t.values⟩ u → ∀ (fuel line : Nat) arguments,
              (∀ v ∈ arguments, v ∈ u.values) → ∀ v n,
                f.call (executeEach (execute fuel)) arguments line u.machine = .ok v n →
                  v = .object k d := by
  have haccepted := h.accepted ht
  refine ⟨?_, ?_, ?_⟩
  · intro id c arguments hc ha fuel line
    exact Class.constructs_accepted haccepted.1 (haccepted.2 _ hc) (fun v hv => haccepted.2 v (ha v hv))
      id fuel line
  · intro u hu hut k d c ho
    have hk : k < t.machine.store.objects.size :=
      Nat.lt_of_lt_of_le ((h.accepted hu).2 _ ho).1 (hut.kept (h.accepted hu)).2.1
    exact beq_eq_false_iff_ne.2 (Nat.ne_of_lt hk)
  · intro k d c init name ho hc hinit hname
    have hsatisfies : c.Satisfies .accepted fun _ => True := by
      rcases hc with rfl | ⟨id, hc⟩
      · exact (haccepted.2 _ ho).2
      · exact haccepted.2 _ hc
    obtain ⟨f, m, hbound, hcalls⟩ := Class.boundMethod_initializer haccepted hsatisfies hinit hname ho
    refine ⟨f, m, hbound, ?_, hcalls⟩
    rintro rfl hfield
    rw [← hbound]
    show (Run.field? k name.lexeme >>= _) t.machine = _
    rw [bind_ok (show Run.field? k name.lexeme t.machine = .ok none t.machine by
      show EStateM.Result.ok ((t.machine.store.fields k).get? name.lexeme) t.machine = _
      rw [hname, hfield])]

/-- The function that a value is. -/
def Value.function? {E : Type} : Value E → Option (Closure E)
  | .function _ c => some c
  | _ => none

/-- The class that a value is. -/
def Value.class? {E : Type} : Value E → Option (Class E)
  | .classOf _ c => some c
  | _ => none

/-- The object that a value is. -/
def Value.object? {E : Type} : Value E → Option (Nat × Class E)
  | .object id c => some (id, c)
  | _ => none

theorem Value.function?_eq_some {E : Type} {v : Value E} {c : Closure E} (h : v.function? = some c) :
    ∃ id, v = .function id c := by
  cases v <;> cases h
  exact ⟨_, rfl⟩

theorem Value.class?_eq_some {E : Type} {v : Value E} {c : Class E} (h : v.class? = some c) :
    ∃ id, v = .classOf id c := by
  cases v <;> cases h
  exact ⟨_, rfl⟩

theorem Value.object?_eq_some {E : Type} {v : Value E} {id : Nat} {c : Class E}
    (h : v.object? = some (id, c)) : v = .object id c := by
  cases v <;> cases h
  rfl

/-- A class with an initializer that calls that of its superclass, which ends by a `return`, and an object
of it. -/
def inheriting : String :=
  "class A \x7b init(a) \x7b this.a = a; return; \x7d \x7d " ++
    "class B : A \x7b init(a, b) \x7b super.init(b); return; \x7d \x7d var o = B(1, 2);"

/-- A second object is another one than the first, and the initializer read from the first one gives
that when it is called again. -/
theorem Session.Reachable.constructs_inheriting :
    let s := (({ machine := .fresh {} fun _ => 0 } : Session).run 20 inheriting).2
    let body := executeEach (execute 20)
    ∃ id c init k d n,
      (s.machine.store.contents (.scope 0)).get? "B" = some (.classOf id c)
        ∧ (s.machine.store.contents (.scope 0)).get? "o" = some (.object k d)
        ∧ c.method? "init" = some init ∧ init.routine.params.length = 2
        ∧ (Value.classOf id c).call body [.nil] 1 s.machine
          = .error (.fault 1 (.wrongArgumentCount 2 1)) s.machine
        ∧ (Value.classOf id c).call body [.nil, .nil] 1 s.machine = .ok (s.machine.newInstance c) n
        ∧ (Value.object k d).equals (s.machine.newInstance c) = false
        ∧ ∃ f m, (Value.object k d).property ⟨.identifier, "init", 1⟩ s.machine = .ok f m
          ∧ ∀ v n, f.call body [.nil, .nil] 1 m = .ok v n → v = .object k d := by
  intro s body
  let get := fun name => (s.machine.store.contents (.scope 0)).get? name
  have hrun : ((get "B").any fun b => b.class?.any fun c =>
      ((get "o").bind Value.object?).any fun o =>
        (c.method? "init").any (fun init => init.routine.params.length = 2)
          && (o.2.method? "init").isSome && ((s.machine.store.fields o.1).get? "init").isNone
          && (valueOf? (b.call body [.nil, .nil] 1 s.machine)).isSome) = true := by
    decide +kernel
  have hs : s.Reachable := .run 20 inheriting (.fresh {} {} fun _ => 0)
  obtain ⟨b, hB, hrun⟩ := (Option.any_eq_true _ _).1 hrun
  obtain ⟨c, hc, hrun⟩ := (Option.any_eq_true _ _).1 hrun
  obtain ⟨⟨k, d⟩, ho, hrun⟩ := (Option.any_eq_true _ _).1 hrun
  obtain ⟨id, rfl⟩ := Value.class?_eq_some hc
  obtain ⟨o, ho, hobject⟩ := Option.bind_eq_some_iff.1 ho
  obtain rfl := Value.object?_eq_some hobject
  simp only [Bool.and_eq_true] at hrun
  obtain ⟨⟨⟨hinit, hinit'⟩, hfield⟩, hcompleted⟩ := hrun
  obtain ⟨init, hinit, hparams⟩ := (Option.any_eq_true _ _).1 hinit
  obtain ⟨init', hinit'⟩ := Option.isSome_iff_exists.1 hinit'
  have hcount : init.routine.params.length = 2 := of_decide_eq_true hparams
  -- The class, the object and `nil` are at hand.
  have hleads : s.start.Leads ⟨s.machine, [.nil, .object k d, .classOf id c]⟩ :=
    (((Moment.Leads.refl (t := s.start)).held hB).held ho).constant .nil
  obtain ⟨hconstructs, hnew, hread⟩ := constructs hs hleads
  have hclass := fun arguments ha => hconstructs id c arguments (by simp) ha 20 1
  have hone := (hclass [.nil] (by simp)).refused
  have htwo := hclass [.nil, .nil] (by simp)
  rw [hinit] at hone
  obtain ⟨f, m, -, hproperty, hcalls⟩ :=
    hread k d d init' ⟨.identifier, "init", 1⟩ (by simp) (.inl rfl) hinit' rfl
  obtain ⟨n, hn⟩ : ∃ n, (Value.classOf id c).call body [.nil, .nil] 1 s.machine
      = .ok (s.machine.newInstance c) n := by
    obtain ⟨v, hv⟩ := Option.isSome_iff_exists.1 hcompleted
    obtain ⟨n, hn⟩ := valueOf?_eq_some hv
    exact ⟨n, htwo.completed v n hn ▸ hn⟩
  refine ⟨id, c, init, k, d, n, hB, ho, hinit, hcount, ?_, hn, ?_, f, m, ?_, ?_⟩
  · rw [Option.map_some, Option.getD_some, hcount] at hone
    exact hone.1 (by decide)
  · exact hnew _ hleads .refl k d c (by simp)
  · exact hproperty rfl (Option.isNone_iff_eq_none.1 hfield)
  · exact hcalls _ .refl 20 1 [.nil, .nil] (by simp)

end Lox
