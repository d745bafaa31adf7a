import Lox.Proofs.Execution.Classes
import Lox.Proofs.Execution.Code
import Lox.Proofs.Execution.Undisturbed

/-!
Invariants of runs. An `Invariant` is a condition on the code that is run, one on the store and how it
changes, one on the environments that functions keep and one on the places of objects, which hold
together whatever a single step of a program does. `Invariant.Keeps` says of a run that it keeps them,
gives a result that satisfies a condition, and leaves the machine in the environment it was in, however
it ends. Here are the rules for all runs and for the steps of the machine.
-/

namespace Lox

/-! ### Values -/

section

variable (code : Code) (environment : Environment → Prop) (object : Nat → Prop)

/-- The code and the environment of a function satisfy conditions. -/
def Closure.Satisfies (c : Closure) : Prop :=
  environment c.environment ∧ code.function c.isInitializer c.routine

/-- The code and the environments of all methods of a class satisfy conditions. -/
def Class.Satisfies (c : Class) : Prop :=
  ∀ layer ∈ c.layers, ∀ name method, layer.get? name = some method →
    environment method.environment ∧ code.method name method.isInitializer method.routine

/-- The code and the environments of a value, and the object that it is, satisfy conditions. -/
def Value.Satisfies : Value → Prop
  | .function _ c => c.Satisfies code environment
  | .classOf _ c => c.Satisfies code environment
  | .object id c => object id ∧ c.Satisfies code environment
  | _ => True

end

section

variable {code : Code} {environment : Environment → Prop} {object : Nat → Prop}

/-- What a class has as a method satisfies what its methods do. -/
theorem Class.Satisfies.method {c : Class} (h : c.Satisfies code environment) {name : String}
    {method : Closure} (hm : c.method? name = some method) :
    environment method.environment ∧ code.method name method.isInitializer method.routine := by
  obtain ⟨layer, hlayer, hget⟩ := List.exists_of_findSome?_eq_some hm
  exact h layer hlayer name method hget

/-- A method of a class, as a function. -/
theorem Class.Satisfies.function {c : Class} (h : c.Satisfies code environment) {name : String}
    {method : Closure} (hm : c.method? name = some method) :
    method.Satisfies code environment := by
  obtain ⟨henv, hmethod⟩ := h.method hm
  exact ⟨henv, code.bound hmethod⟩

/-- A declared class satisfies what its environment, its methods and its superclass satisfy. -/
theorem Class.satisfies_declared {name : String} {outer : Environment} {methods : List Routine}
    {inherited : List (Bindings Closure)} (ho : environment outer)
    (hm : ∀ r ∈ methods, code.method r.name.lexeme r.isInitializer r)
    (hi : Class.Satisfies code environment ⟨name, inherited⟩) :
    Class.Satisfies code environment ⟨name, methodLayer outer methods :: inherited⟩ := by
  intro layer hlayer n method hget
  rcases List.mem_cons.1 hlayer with rfl | hlayer
  · rw [get?_methodLayer] at hget
    obtain ⟨r, hr, rfl⟩ := Option.map_eq_some_iff.1 hget
    obtain ⟨hmem, hname⟩ := mem_of_lastNamed hr
    refine ⟨ho, ?_⟩
    rw [← hname]
    exact hm r hmem
  · exact hi layer hlayer n method hget

theorem Value.satisfies_any (v : Value) : v.Satisfies .any (fun _ => True) fun _ => True := by
  cases v <;> simp [Value.Satisfies, Closure.Satisfies, Class.Satisfies, Code.any]

/-- Only of the places of objects more may come to be true. -/
theorem Value.Satisfies.mono {object' : Nat → Prop} (ho : ∀ id, object id → object' id) {v : Value}
    (h : v.Satisfies code environment object) : v.Satisfies code environment object' := by
  cases v with
  | object id c => exact ⟨ho id h.1, h.2⟩
  | _ => exact h

theorem Value.satisfies_ofLiteral (value : Literal) :
    (Value.ofLiteral value).Satisfies code environment object := by
  cases value <;> trivial

theorem Value.satisfies_unary {operator : Token} {right v : Value}
    (h : right.unary operator = .ok v) : v.Satisfies code environment object := by
  unfold Value.unary at h
  split at h
  · split at h <;> cases h
    trivial
  · cases h
    trivial
  · cases h

theorem Value.satisfies_arithmetic {operator : Kind} {a b : Float} {v : Value}
    (h : Value.arithmetic? operator a b = some v) : v.Satisfies code environment object := by
  unfold Value.arithmetic? at h
  split at h <;> cases h <;> trivial

theorem Value.satisfies_binary {operator : Token} {left right v : Value}
    (h : left.binary operator right = .ok v) : v.Satisfies code environment object := by
  unfold Value.binary at h
  split at h
  · unfold Value.add at h
    split at h <;> cases h <;> trivial
  · cases h
    trivial
  · cases h
    trivial
  · split at h
    · split at h
      · rename_i hv
        cases h
        exact Value.satisfies_arithmetic hv
      · cases h
    · cases h

theorem Value.satisfies_parseNum {argument v : Value} (h : argument.parseNum = .ok v) :
    v.Satisfies code environment object := by
  unfold Value.parseNum at h
  split at h
  · split at h <;> cases h
    trivial
  · cases h

/-- What a native function gives is neither a function nor a class nor an object. -/
theorem Native.satisfies_call {native : Native} {arguments : List Value} {line : Nat}
    {host host' : Host} {v : Value} (h : native.call arguments line host = .ok v host') :
    v.Satisfies code environment object := by
  have hprint : ∀ text, (Host.print text line >>= fun _ => pure .nil) host = .ok v host' →
      v.Satisfies code environment object := by
    intro text ht
    simp only [Bind.bind, EStateM.bind, Host.print] at ht
    cases hp : (host.console.print text).1 with
    | none =>
      simp only [hp] at ht
      cases ht
      trivial
    | some cause => simp [hp] at ht
  unfold Native.call at h
  cases native with
  | clock =>
    cases h
    trivial
  | print => exact hprint _ h
  | println => exact hprint _ h
  | readln =>
    simp only [Bind.bind, EStateM.bind, Host.readLine] at h
    cases hl : (host.console.readLine).1 with
    | unreadable =>
      simp only [hl] at h
      cases h
    | ended | text contents =>
      simp only [hl] at h
      cases h
      trivial
  | parseNum =>
    cases hp : (arguments.headD .nil).parseNum with
    | ok value =>
      simp only [hp] at h
      cases h
      exact Value.satisfies_parseNum hp
    | error cause =>
      simp only [hp] at h
      cases h

end

/-! ### Places -/

/-- A scope at a distance is one of the environment. -/
theorem Environment.mem_of_scopeAt {env : Environment} {d : Nat} {i : ScopeId}
    (h : env.scopeAt d = .ok i) : i ∈ env := by
  unfold Environment.scopeAt at h
  split at h
  · rename_i hi
    cases h
    exact List.mem_of_getElem? hi
  · cases h

namespace Store

variable {st : Store} {env : Environment} {name : String} {i : ScopeId} {v : Value}

/-- The nearest scope that binds a name is one of the environment. -/
theorem mem_of_owner? (h : st.owner? env name = some i) : i ∈ env := by
  induction env with
  | nil => cases h
  | cons j outer ih =>
    rw [owner?] at h
    split at h
    · cases h
      exact List.mem_cons_self
    · exact List.mem_cons_of_mem j (ih h)

theorem mem_of_owner (h : st.owner env name = .ok i) : i ∈ env := by
  unfold owner at h
  split at h
  · rename_i hi
    cases h
    exact mem_of_owner? hi
  · cases h

theorem get?_of_getIn (h : st.getIn i name = .ok v) : (st.scope i).get? name = some v := by
  unfold getIn at h
  split at h
  · rename_i hv
    cases h
    exact hv
  · cases h

/-- What is read by name is bound in a scope of the environment. -/
theorem mem_of_get (h : st.get env name = .ok v) :
    ∃ i ∈ env, (st.scope i).get? name = some v := by
  unfold get at h
  cases ho : st.owner env name with
  | error cause => simp [ho, Bind.bind, Except.bind] at h
  | ok i =>
    simp only [ho, Bind.bind, Except.bind] at h
    exact ⟨i, mem_of_owner ho, get?_of_getIn h⟩

/-- What is read at a distance is bound in a scope of the environment. -/
theorem mem_of_getAt {d : Nat} (h : st.getAt env d name = .ok v) :
    ∃ i ∈ env, (st.scope i).get? name = some v := by
  unfold getAt at h
  cases hi : env.scopeAt d with
  | error cause => simp [hi, Bind.bind, Except.bind] at h
  | ok i =>
    simp only [hi, Bind.bind, Except.bind] at h
    exact ⟨i, Environment.mem_of_scopeAt hi, get?_of_getIn h⟩

end Store

/-! ### Invariants -/

/-- Conditions that hold together whatever one step of a program does. -/
structure Invariant where
  /-- Of the code that is run, and of that of all functions. -/
  code : Code
  store : Store → Prop
  /-- How the store may change. -/
  le : Store → Store → Prop
  le_refl : ∀ st, le st st
  le_trans : ∀ {st st' st''}, le st st' → le st' st'' → le st st''
  /-- Of an environment that a function keeps or that is running. -/
  environment : Environment → Prop
  /-- Of the place of an object. -/
  object : Store → Nat → Prop
  object_mono : ∀ {st st' id}, le st st' → object st id → object st' id
  globals : environment .globals
  getIn : ∀ {st env i name v}, store st → environment env → i ∈ env →
    (st.scope i).get? name = some v → v.Satisfies code environment (object st)
  setIn : ∀ {st env i name v}, store st → environment env → i ∈ env →
    v.Satisfies code environment (object st) → code.name name →
    store (st.setIn i name v) ∧ le st (st.setIn i name v)
  push : ∀ {st env b}, store st → environment env →
    (∀ name v, b.get? name = some v → v.Satisfies code environment (object st)) →
    store (st.push b) ∧ le st (st.push b) ∧ environment (st.scopes.size :: env)
  field : ∀ {st id name v}, store st → object st id → (st.fields id).get? name = some v →
    v.Satisfies code environment (object st)
  setField : ∀ {st id v}, store st → object st id → v.Satisfies code environment (object st) →
    ∀ name, store (st.setField id name v) ∧ le st (st.setField id name v)
  pushObject : ∀ {st}, store st →
    store st.pushObject ∧ le st st.pushObject ∧ object st.pushObject st.objects.size

namespace Invariant

/-- A condition on the store alone. -/
def ofStore (store : Store → Prop)
    (setIn : ∀ {st i name v}, store st → store (st.setIn i name v))
    (push : ∀ {st b}, store st → store (st.push b))
    (setField : ∀ {st id name v}, store st → store (st.setField id name v))
    (pushObject : ∀ {st}, store st → store st.pushObject) : Invariant where
  code := .any
  store := store
  le _ _ := True
  le_refl _ := trivial
  le_trans _ _ := trivial
  environment _ := True
  object _ _ := True
  object_mono _ _ := trivial
  globals := trivial
  getIn {_ _ _ _ v} _ _ _ _ := v.satisfies_any
  setIn h _ _ _ _ := ⟨setIn h, trivial⟩
  push h _ _ := ⟨push h, trivial, trivial⟩
  field {_ _ _ v} _ _ _ := v.satisfies_any
  setField h _ _ _ := ⟨setField h, trivial⟩
  pushObject h := ⟨pushObject h, trivial, trivial⟩

section

variable (I : Invariant)

/-- The condition on values. -/
def Value (st : Store) (v : Lox.Value) : Prop :=
  v.Satisfies I.code I.environment (I.object st)

theorem value_nil (st : Store) : I.Value st .nil := trivial

/-- The condition on what a statement leaves. -/
def Completion (st : Store) : Lox.Completion → Prop
  | .normal => True
  | .returned v => I.Value st v

variable {I}

theorem Value.later {st st' : Store} (h : I.le st st') {v : Lox.Value} (hv : I.Value st v) :
    I.Value st' v :=
  Value.Satisfies.mono (fun _ => I.object_mono h) hv

end

/-- From this store, if it satisfies the invariant, and in this environment the run ends in a store that
satisfies it, to which the first one may change, and in the same environment; and its result, if it has
one, satisfies `post`. -/
def Keeps (I : Invariant) (st : Store) (env : Environment) {α : Type} (run : Run α)
    (post : Store → α → Prop) : Prop :=
  ∀ m, m.store = st → m.environment = env → I.store st →
    I.store (machineOf (run m)).store ∧ I.le st (machineOf (run m)).store
      ∧ (machineOf (run m)).environment = env ∧ ∀ a n, run m = .ok a n → post n.store a

namespace Keeps

variable {I : Invariant} {st : Store} {env : Environment} {α β : Type} {run : Run α}
  {mid post : Store → α → Prop}

/-! ### Rules for all runs -/

theorem conseq (h : Keeps I st env run mid)
    (hpost : ∀ st' a, I.le st st' → mid st' a → post st' a) : Keeps I st env run post := by
  intro m hm he hs
  obtain ⟨hs', hle, he', hmid⟩ := h m hm he hs
  refine ⟨hs', hle, he', ?_⟩
  intro a n hr
  rw [hr] at hle
  exact hpost n.store a hle (hmid a n hr)

/-- The store may be assumed to satisfy the invariant. -/
theorem of_store (h : I.store st → Keeps I st env run post) : Keeps I st env run post :=
  fun m hm he hs => h hs m hm he hs

/-- A run that leaves store and environment as they are. -/
theorem of_steady (hstore : ∀ m, (machineOf (run m)).store = m.store)
    (henvironment : ∀ m, (machineOf (run m)).environment = m.environment)
    (hpost : ∀ m a n, m.store = st → m.environment = env → run m = .ok a n → post st a) :
    Keeps I st env run post := by
  rintro m rfl he hs
  rw [hstore, henvironment]
  refine ⟨hs, I.le_refl _, he, ?_⟩
  intro a n hr
  have hsame := hstore m
  rw [hr] at hsame
  rw [show n.store = m.store from hsame]
  exact hpost m a n rfl he hr

protected theorem pure {a : α} (h : post st a) : Keeps I st env (pure a) post := by
  refine of_steady (fun _ => rfl) (fun _ => rfl) ?_
  intro m b n _ _ hr
  cases hr
  exact h

protected theorem fail (line : Nat) (cause : RuntimeFault) :
    Keeps I st env (Run.fail line cause) post :=
  of_steady (fun _ => rfl) (fun _ => rfl) fun _ _ _ _ _ hr => nomatch hr

theorem stop (s : Stop) : Keeps I st env (throw s) post :=
  of_steady (fun _ => rfl) (fun _ => rfl) fun _ _ _ _ _ hr => nomatch hr

theorem ofExcept (line : Nat) {x : Except RuntimeFault α} (h : ∀ a, x = .ok a → post st a) :
    Keeps I st env (Run.ofExcept line x) post := by
  cases x with
  | ok a => exact .pure (h a rfl)
  | error cause => exact .fail line cause

/-- One run after the other. -/
protected theorem bind {next : α → Run β} {post : Store → β → Prop} (h : Keeps I st env run mid)
    (hnext : ∀ st' a, I.le st st' → mid st' a → Keeps I st' env (next a) post) :
    Keeps I st env (run >>= next) post := by
  intro m hm he hs
  obtain ⟨hs', hle, he', hmid⟩ := h m hm he hs
  cases hr : run m with
  | ok a n =>
    rw [hr] at hs' hle he'
    rw [bind_ok hr]
    obtain ⟨hs'', hle', he'', hpost⟩ := hnext n.store a hle (hmid a n hr) n rfl he' hs'
    exact ⟨hs'', I.le_trans hle hle', he'', hpost⟩
  | error stop n =>
    rw [hr] at hs' hle he'
    rw [bind_error hr]
    exact ⟨hs', hle, he', fun _ _ hb => nomatch hb⟩

theorem map {f : α → β} {post : Store → β → Prop}
    (h : Keeps I st env run fun st' a => post st' (f a)) : Keeps I st env (f <$> run) post := by
  rw [map_eq_pure_bind]
  exact h.bind fun _ a _ ha => .pure ha

/-- A run inside another environment leaves the machine in the one it was in. -/
theorem within {inner : Environment} (h : Keeps I st inner run post) :
    Keeps I st env (Run.within inner run) post := by
  intro m hm he hs
  obtain ⟨hs', hle, -, hpost⟩ := h { m with environment := inner } hm rfl hs
  cases hr : run { m with environment := inner } with
  | ok a n =>
    rw [hr] at hs' hle
    rw [within_ok hr]
    refine ⟨hs', hle, he, ?_⟩
    intro b n' hb
    cases hb
    exact hpost a n hr
  | error stop n =>
    rw [hr] at hs' hle
    rw [within_error hr]
    exact ⟨hs', hle, he, fun _ _ hb => nomatch hb⟩

/-- Runs on all members of a list. What is true of a result stays true. -/
theorem mapM {σ : Type} {run : σ → Run α}
    (hlater : ∀ {st st' a}, I.le st st' → post st a → post st' a) (xs : List σ)
    (h : ∀ x ∈ xs, ∀ st, Keeps I st env (run x) post) :
    Keeps I st env (xs.mapM run) fun st' as => ∀ a ∈ as, post st' a := by
  induction xs generalizing st with
  | nil =>
    refine .pure ?_
    simp
  | cons x xs ih =>
    rw [List.mapM_cons]
    refine (h x List.mem_cons_self st).bind fun st₁ a _ ha => ?_
    refine (ih fun y hy => h y (List.mem_cons_of_mem x hy)).bind fun st₂ as hle has => .pure ?_
    intro b hb
    rcases List.mem_cons.1 hb with rfl | hb
    · exact hlater hle ha
    · exact has b hb

/-- Runs for all members of a list, one after the other. -/
theorem forM {σ : Type} {run : σ → Run Unit} (xs : List σ)
    (h : ∀ x ∈ xs, ∀ st, Keeps I st env (run x) fun _ _ => True) :
    Keeps I st env (xs.forM run) fun _ _ => True := by
  induction xs generalizing st with
  | nil => exact .pure trivial
  | cons x xs ih =>
    exact (h x List.mem_cons_self st).bind fun _ _ _ _ =>
      ih fun y hy => h y (List.mem_cons_of_mem x hy)

/-! ### Steps of the machine -/

/-- The machine looks at its environment. -/
theorem environment : Keeps I st env Run.environment fun _ e => e = env := by
  refine of_steady (fun _ => rfl) (fun _ => rfl) ?_
  intro m a n _ he hr
  cases hr
  exact he

theorem extend {outer : Environment} {b : Bindings Lox.Value} (ho : I.environment outer)
    (hb : ∀ name v, b.get? name = some v → I.Value st v) :
    Keeps I st env (Run.extend outer b) fun _ inside => I.environment inside := by
  rintro m rfl he hs
  obtain ⟨hs', hle, henv⟩ := I.push hs ho hb
  refine ⟨hs', hle, he, ?_⟩
  intro a n hr
  cases hr
  exact henv

theorem extend_one {outer : Environment} {name : String} {v : Lox.Value} (ho : I.environment outer)
    (hv : I.Value st v) :
    Keeps I st env (Run.extend outer [(name, v)]) fun _ inside => I.environment inside := by
  refine extend ho fun n u hu => ?_
  rw [Bindings.get?_cons] at hu
  by_cases hn : name = n
  · rw [if_pos hn] at hu
    cases hu
    exact hv
  · rw [if_neg hn] at hu
    cases hu

theorem define (henv : I.environment env) {name : String} (hn : I.code.name name) {v : Lox.Value}
    (hv : I.Value st v) : Keeps I st env (Run.define name v) fun _ _ => True := by
  rintro m rfl rfl hs
  have hdefined : I.store (m.store.define m.environment name v)
      ∧ I.le m.store (m.store.define m.environment name v) := by
    unfold Store.define
    split
    · exact ⟨hs, I.le_refl _⟩
    · rename_i i outer hi
      exact I.setIn hs henv (by rw [hi]; exact List.mem_cons_self) hv hn
  exact ⟨hdefined.1, hdefined.2, rfl, fun _ _ _ => trivial⟩

theorem lookUp (henv : I.environment env) (id : Nat) (name : Token) :
    Keeps I st env (Run.lookUp id name) I.Value := by
  rintro m rfl rfl hs
  have hkept : Keeps I m.store m.environment
      (Run.ofExcept name.line (m.lookUp id name.lexeme)) I.Value := by
    refine ofExcept name.line fun v hv => ?_
    unfold Machine.lookUp at hv
    split at hv
    · obtain ⟨i, hi, hget⟩ := Store.mem_of_getAt hv
      exact I.getIn hs henv hi hget
    · obtain ⟨i, hi, hget⟩ := Store.mem_of_get hv
      exact I.getIn hs I.globals hi hget
  exact hkept m rfl rfl hs

theorem assign (henv : I.environment env) (id : Nat) {name : Token} (hn : I.code.name name.lexeme)
    {v : Lox.Value} (hv : I.Value st v) :
    Keeps I st env (Run.assign id name v) fun _ _ => True := by
  rintro m rfl rfl hs
  unfold Run.assign
  cases ha : m.assignee id name.lexeme with
  | error cause => exact ⟨hs, I.le_refl _, rfl, fun _ _ hr => nomatch hr⟩
  | ok i =>
    have hset : I.store (m.store.setIn i name.lexeme v)
        ∧ I.le m.store (m.store.setIn i name.lexeme v) := by
      unfold Machine.assignee at ha
      split at ha
      · exact I.setIn hs henv (Environment.mem_of_scopeAt ha) hv hn
      · exact I.setIn hs I.globals (Store.mem_of_owner ha) hv hn
    exact ⟨hset.1, hset.2, rfl, fun _ _ _ => trivial⟩

theorem getAt {outer : Environment} (ho : I.environment outer) (distance : Nat) (name : String)
    (line : Nat) : Keeps I st env (Run.getAt outer distance name line) I.Value := by
  rintro m rfl he hs
  have hkept : Keeps I m.store env (Run.ofExcept line (m.store.getAt outer distance name))
      I.Value := by
    refine ofExcept line fun v hv => ?_
    obtain ⟨i, hi, hget⟩ := Store.mem_of_getAt hv
    exact I.getIn hs ho hi hget
  exact hkept m rfl he hs

theorem distance? (id : Nat) : Keeps I st env (Run.distance? id) fun _ _ => True :=
  of_steady (fun _ => rfl) (fun _ => rfl) fun _ _ _ _ _ _ => trivial

theorem newIdentity : Keeps I st env Run.newIdentity fun _ _ => True := by
  rintro m rfl he hs
  exact ⟨hs, I.le_refl _, he, fun _ _ _ => trivial⟩

theorem newObject : Keeps I st env Run.newObject I.object := by
  rintro m rfl he hs
  obtain ⟨hs', hle, hobject⟩ := I.pushObject hs
  refine ⟨hs', hle, he, ?_⟩
  intro a n hr
  cases hr
  exact hobject

theorem field? {id : Nat} (hid : I.object st id) (name : String) :
    Keeps I st env (Run.field? id name) fun st' field => ∀ v, field = some v → I.Value st' v := by
  refine of_store fun hs => of_steady (fun _ => rfl) (fun _ => rfl) ?_
  rintro m field n rfl _ hr v hv
  cases hr
  exact I.field hs hid hv

theorem setField {id : Nat} (hid : I.object st id) (name : String) {v : Lox.Value}
    (hv : I.Value st v) : Keeps I st env (Run.setField id name v) fun _ _ => True := by
  rintro m rfl he hs
  obtain ⟨hs', hle⟩ := I.setField hs hid hv name
  exact ⟨hs', hle, he, fun _ _ _ => trivial⟩

theorem callNative (native : Native) (arguments : List Lox.Value) (line : Nat) :
    Keeps I st env (Run.ofHost (native.call arguments line)) I.Value := by
  rintro m rfl he hs
  unfold Run.ofHost
  cases hc : native.call arguments line m.toHost with
  | ok v host =>
    refine ⟨hs, I.le_refl _, he, ?_⟩
    intro a n hr
    cases hr
    exact Native.satisfies_call hc
  | error stop host => exact ⟨hs, I.le_refl _, he, fun _ _ hr => nomatch hr⟩

end Keeps

end Invariant

end Lox
