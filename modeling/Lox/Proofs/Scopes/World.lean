import Lox.Proofs.Execution.Counterparts
import Lox.Proofs.Scoping.Linking
import Lox.Proofs.Tree.Orderly

/-!
What the scopes of a running program bind. A `World` knows how many scopes there are, which names each
of them binds, and which names it may come to bind; `World.Extends` says what a part of a program may
have added. `Chain` relates the scopes around a part of the program, as the resolver saw them, to an
environment: what the resolver may read is bound. `Known` is the other half, which only holds in
orderly programs: of the names that are minded, a scope binds none that the resolver had not seen
there. A value conforms to a world if each function in it was declared where its environment is such
a chain.
-/

namespace Lox

/-! ### Sites where all names may be read -/

/-- All names of the scopes may be read. -/
def Site.Readable (site : Site) : Prop :=
  ∀ scope ∈ site.scopes, ∀ n, scope.get? n ≠ some false

namespace Site

variable {site : Site} {name : Token}

theorem Readable.mayRead (h : site.Readable) (n : String) : site.MayRead n :=
  findSome?_ne_some_false fun scope hs => h scope hs n

theorem Readable.enter (h : site.Readable) {scope : Bindings Bool}
    (hs : ∀ n, scope.get? n ≠ some false) : (site.enter scope).Readable := by
  intro s hmem
  rcases List.mem_cons.1 hmem with rfl | hmem
  · exact hs
  · exact h s hmem

/-- The scopes of `this` and of `super` can be read. -/
theorem Readable.enter_one (h : site.Readable) (n : String) :
    (site.enter [(n, true)]).Readable := by
  refine h.enter fun k => ?_
  rw [Bindings.get?_cons]
  split <;> simp

theorem Readable.bind (h : site.Readable) (name : Token) : (site.bind name true).Readable := by
  unfold Readable at *
  rw [bind_scopes]
  generalize site.scopes = scopes at h
  cases scopes with
  | nil => exact h
  | cons scope outer =>
    intro s hmem n
    rcases List.mem_cons.1 hmem with rfl | hmem
    · rw [Bindings.get?_set]
      split
      · simp
      · exact h scope List.mem_cons_self n
    · exact h s (List.mem_cons_of_mem _ hmem) n

/-- Where a name has been made unreadable, all others can be read. -/
theorem Readable.mayRead_unreadable (h : site.Readable) {n : String} (hne : name.lexeme ≠ n) :
    (site.bind name false).MayRead n := by
  have hread := h.mayRead n
  unfold MayRead at hread ⊢
  rw [bind_scopes]
  generalize site.scopes = scopes at hread
  cases scopes with
  | nil => exact hread
  | cons scope outer =>
    rw [List.findSome?_cons] at hread ⊢
    rwa [Bindings.get?_set, if_neg hne]

/-- Outside of all scopes no name is made unreadable. -/
theorem mayRead_bind_global (hglobal : site.scopes = []) (name : Token) :
    (site.bind name false).MayRead name.lexeme := by
  unfold MayRead
  rw [bind_scopes, hglobal]
  simp

theorem Readable.declareEach (h : site.Readable) (names : List Token) :
    (site.declareEach names).1.Readable := by
  rw [declareEach_fst]
  induction names generalizing site with
  | nil => exact h
  | cons name rest ih => exact ih (h.bind name)

/-- The innermost scope binds all names that are declared, and the scopes around it are as before. -/
theorem declareEach_scopes {scope : Bindings Bool} {outer : List (Bindings Bool)}
    (hs : site.scopes = scope :: outer) (names : List Token) :
    (site.declareEach names).1.scopes
      = names.foldl (fun b name => b.set name.lexeme true) scope :: outer := by
  rw [declareEach_fst]
  induction names generalizing site scope with
  | nil => exact hs
  | cons name rest ih =>
    refine ih ?_
    rw [bind_scopes, hs]

end Site

namespace Scopes

/-! ### Worlds -/

/-- The names in the order in which they came, with one more unless it is there. -/
def addName (names : List String) (name : String) : List String :=
  if name ∈ names then names else names ++ [name]

theorem mem_addName {names : List String} {name n : String} :
    n ∈ addName names name ↔ n ∈ names ∨ n = name := by
  unfold addName
  split
  · exact ⟨.inl, fun h => h.elim id fun h => h ▸ ‹_›⟩
  · simp

/-- The names that scopes bind, and those that they may come to bind. -/
structure World where
  /-- The number of scopes. -/
  scopes : Nat
  names : ScopeId → List String
  allowed : ScopeId → String → Prop

/-- The names that may be new in a scope. -/
abbrev Additions := ScopeId → String → Prop

/-- No scope has new names. -/
def nothing : Additions := fun _ _ => False

/-- Only the innermost scope has new names, and only these. -/
def inside (env : Environment) (names : List String) : Additions :=
  fun i n => env.head? = some i ∧ n ∈ names

namespace World

/-- A scope binds a name. -/
def Binds (w : World) (i : ScopeId) (n : String) : Prop := n ∈ w.names i

/-- One more scope, which binds these names, and may come to bind others. -/
def grow (w : World) (names : List String) (allowed : String → Prop) : World where
  scopes := w.scopes + 1
  names := fun i => if i = w.scopes then names else w.names i
  allowed := fun i => if i = w.scopes then allowed else w.allowed i

/-- A scope binds a name. -/
def bind (w : World) (i : ScopeId) (name : String) : World :=
  { w with names := fun j => if j = i then addName (w.names i) name else w.names j }

/-- The second world is the first one with more scopes, of which those that were there have no new
names but these. -/
structure Extends (new : Additions) (w w' : World) : Prop where
  scopes : w.scopes ≤ w'.scopes
  kept : ∀ i < w.scopes, ∀ n ∈ w.names i, n ∈ w'.names i
  same : ∀ i < w.scopes, (∀ n, ¬ new i n) → w'.names i = w.names i
  new : ∀ i < w.scopes, ∀ n ∈ w'.names i, n ∈ w.names i ∨ new i n
  allowed : ∀ i < w.scopes, w'.allowed i = w.allowed i

variable {new new' : Additions} {w w' w'' : World}

theorem Extends.refl (new : Additions) (w : World) : w.Extends new w :=
  ⟨Nat.le_refl _, fun _ _ _ h => h, fun _ _ _ => rfl, fun _ _ _ => .inl, fun _ _ => rfl⟩

theorem Extends.trans (h : w.Extends new w') (h' : w'.Extends new w'') : w.Extends new w'' where
  scopes := Nat.le_trans h.scopes h'.scopes
  kept i hi n hn := h'.kept i (Nat.lt_of_lt_of_le hi h.scopes) n (h.kept i hi n hn)
  same i hi hnew := (h'.same i (Nat.lt_of_lt_of_le hi h.scopes) hnew).trans (h.same i hi hnew)
  new i hi n hn :=
    (h'.new i (Nat.lt_of_lt_of_le hi h.scopes) n hn).elim (h.new i hi n) .inr
  allowed i hi := (h'.allowed i (Nat.lt_of_lt_of_le hi h.scopes)).trans (h.allowed i hi)

/-- New names in scopes that were not there before are none in those that were. -/
theorem Extends.imp (h : w.Extends new w') (himp : ∀ i < w.scopes, ∀ n, new i n → new' i n) :
    w.Extends new' w' where
  scopes := h.scopes
  kept := h.kept
  same i hi hnone := h.same i hi fun n hn => hnone n (himp i hi n hn)
  new i hi n hn := (h.new i hi n hn).imp_right (himp i hi n)
  allowed := h.allowed

theorem extends_grow (w : World) (new : Additions) (names : List String)
    (allowed : String → Prop) : w.Extends new (w.grow names allowed) where
  scopes := Nat.le_succ _
  kept i hi n hn := by simpa [grow, Nat.ne_of_lt hi] using hn
  same i hi _ := by simp [grow, Nat.ne_of_lt hi]
  new i hi n hn := .inl (by simpa [grow, Nat.ne_of_lt hi] using hn)
  allowed i hi := by simp [grow, Nat.ne_of_lt hi]

/-- A name is bound that is bound already, or that may be new. -/
theorem extends_bind {i : ScopeId} {name : String} (h : w.Binds i name ∨ new i name) :
    w.Extends new (w.bind i name) where
  scopes := Nat.le_refl _
  kept j _ n hn := by
    dsimp only [bind]
    split
    · rename_i hj
      exact mem_addName.2 (.inl (hj ▸ hn))
    · exact hn
  same j _ hnone := by
    dsimp only [bind]
    split
    · rename_i hj
      subst hj
      exact if_pos (h.resolve_right (hnone name))
    · rfl
  new j _ n hn := by
    dsimp only [bind] at hn
    split at hn
    · rename_i hj
      subst hj
      rcases mem_addName.1 hn with hn | rfl
      · exact .inl hn
      · exact h
    · exact .inl hn
  allowed _ _ := rfl

theorem names_bind_self (w : World) (i : ScopeId) (name n : String) :
    (w.bind i name).Binds i n ↔ w.Binds i n ∨ n = name := by
  simp [Binds, bind, mem_addName]

end World

/-! ### Chains of scopes -/

/-- The environment is a chain of scopes of which the resolver has seen what `scopes` says, ending in
the globals. What may be read is bound. -/
inductive Chain (w : World) : List (Bindings Bool) → Environment → Prop where
  | globals : Chain w [] .globals
  | scope {scope : Bindings Bool} {scopes : List (Bindings Bool)} {i : ScopeId} {env : Environment}
      (rest : Chain w scopes env) (positive : 0 < i) (old : i < w.scopes)
      (binds : ∀ n, scope.get? n = some true → w.Binds i n) :
      Chain w (scope :: scopes) (i :: env)

/-- Where `p` holds of a scope of the chain and a name that is minded, the resolver has seen that the
scope declares the name. -/
def Known (p : ScopeId → String → Prop) (minded : String → Prop) :
    List (Bindings Bool) → Environment → Prop
  | scope :: scopes, i :: env =>
    (∀ n, minded n → p i n → scope.binds n = true) ∧ Known p minded scopes env
  | _, _ => True

/-- The names that are minded where these occur: also `this` and `super` are found by their names. -/
def Minded (names : List String) (n : String) : Prop :=
  n ∈ names ∨ n = "this" ∨ n = "super"

theorem Minded.mono {names names' : List String} (h : names ⊆ names') {n : String}
    (hn : Minded names n) : Minded names' n :=
  hn.imp_left (h ·)

section

variable {w w' : World} {new : Additions} {scopes : List (Bindings Bool)} {env : Environment}
  {p q : ScopeId → String → Prop} {minded minded' : String → Prop}

theorem Chain.extend (h : Chain w scopes env) (hw : w.Extends new w') : Chain w' scopes env := by
  induction h with
  | globals => exact .globals
  | @scope scope scopes i env _ positive old binds ih =>
    exact .scope ih positive (Nat.lt_of_lt_of_le old hw.scopes)
      fun n hn => hw.kept i old n (binds n hn)

theorem Known.imp (h : Known p minded scopes env) (hminded : ∀ n, minded' n → minded n)
    (hp : ∀ i n, q i n → p i n) : Known q minded' scopes env := by
  induction scopes generalizing env with
  | nil => trivial
  | cons scope scopes ih =>
    cases env with
    | nil => trivial
    | cons i env => exact ⟨fun n hn hq => h.1 n (hminded n hn) (hp i n hq), ih h.2⟩

theorem Known.only (h : Known p minded scopes env) {n : String} (hn : minded n) :
    Known p (· = n) scopes env :=
  h.imp (fun _ hk => hk ▸ hn) fun _ _ => id

/-- What holds of the scopes of a chain does so wherever the condition has not changed. -/
theorem Known.congr (hc : Chain w scopes env) (h : Known p minded scopes env)
    (hq : ∀ i < w.scopes, 0 < i → ∀ n, q i n → p i n) : Known q minded scopes env := by
  induction hc with
  | globals => trivial
  | @scope scope scopes i env _ positive old _ ih =>
    exact ⟨fun n hn hqi => h.1 n hn (hq i old positive n hqi), ih h.2⟩

theorem Known.allowed (hc : Chain w scopes env) (h : Known w.allowed minded scopes env)
    (hw : w.Extends new w') : Known w'.allowed minded scopes env :=
  h.congr hc fun i hi _ n hn => by rwa [← hw.allowed i hi]

theorem Known.binds (hc : Chain w scopes env) (h : Known w.Binds minded scopes env)
    (hw : w.Extends nothing w') : Known w'.Binds minded scopes env :=
  h.congr hc fun i hi _ n hn => (hw.new i hi n hn).resolve_right id

/-- A name that the resolver finds at a distance is, if it may be read, bound in the scope at this
distance. -/
theorem Chain.binds_of_distance (h : Chain w scopes env) {n : String} {d : Nat}
    (hd : scopes.findIdx? (·.binds n) = some d) :
    ∃ i, env[d]? = some i ∧ 0 < i ∧ i < w.scopes
      ∧ (scopes.findSome? (·.get? n) ≠ some false → w.Binds i n) := by
  induction h generalizing d with
  | globals => simp at hd
  | @scope scope scopes i env _ positive old binds ih =>
    rw [List.findIdx?_cons] at hd
    split at hd
    · rename_i hb
      obtain rfl : d = 0 := by simpa using hd.symm
      refine ⟨i, rfl, positive, old, fun hr => ?_⟩
      obtain ⟨flag, hf⟩ := Option.isSome_iff_exists.1 hb
      rw [List.findSome?_cons, hf] at hr
      cases flag
      · exact absurd rfl hr
      · exact binds n hf
    · rename_i hb
      obtain ⟨e, he, rfl⟩ := Option.map_eq_some_iff.1 hd
      obtain ⟨j, hj, hpos, hold, hread⟩ := ih he
      refine ⟨j, by simpa using hj, hpos, hold, fun hr => hread ?_⟩
      have hnone : scope.get? n = none := by simpa [Bindings.binds] using hb
      rwa [List.findSome?_cons, hnone] at hr

end

/-! ### Values -/

section

variable (ordered : Prop) (t : Table) (w : World)

/-- The routine was linked where the scopes were those of the site, and the environment is their
chain. If order is minded, the routine is orderly, and none of these scopes comes to bind a name that
occurs in it unless the resolver has seen that. -/
structure Placed (routine : Routine) (site : Site) (outer : List (Bindings Bool))
    (env : Environment) : Prop where
  linked : ∃ kind, routine.Linked t site kind
  readable : site.Readable
  chain : Chain w outer env
  order : ordered → routine.orderly = true ∧ Known w.allowed (Minded routine.mentions) outer env

/-- The function was declared in such a place; the two closures are the same. -/
structure FunctionIn (c c' : Closure) : Prop where
  same : c' = c
  placed : ∃ site, Placed ordered t w c.routine site site.scopes c.environment

/-- The method was declared in such a place, and will have one more scope around it, which binds
`this`; the two closures are the same. -/
structure MethodIn (c c' : Closure) : Prop where
  same : c' = c
  placed : ∃ site : Site,
    Placed ordered t w c.routine (site.enter Site.thisScope) site.scopes c.environment

/-- All functions in the value conform to the world. -/
abbrev Conforming (v v' : Value) : Prop :=
  v.Rel (FunctionIn ordered t w) (MethodIn ordered t w) v'

end

section

variable {ordered : Prop} {t t' : Table} {w w' : World} {new : Additions}

theorem Placed.mono {routine : Routine} {site : Site} {outer : List (Bindings Bool)}
    {env : Environment} (h : Placed ordered t w routine site outer env) (ht : t.Le t')
    (hw : w.Extends new w') : Placed ordered t' w' routine site outer env where
  linked := h.linked.imp fun _ hl => hl.mono ht
  readable := h.readable
  chain := h.chain.extend hw
  order ho := ⟨(h.order ho).1, (h.order ho).2.allowed h.chain hw⟩

theorem FunctionIn.routine {c c' : Closure} (h : FunctionIn ordered t w c c') :
    c'.routine = c.routine := by
  rw [h.same]

/-- Conforming values stay so in a larger table and a world that extends the one before. -/
theorem Conforming.mono {v v' : Value} (h : Conforming ordered t w v v') (ht : t.Le t')
    (hw : w.Extends new w') : Conforming ordered t' w' v v' :=
  Value.Rel.mono (fun _ _ hf => ⟨hf.same, hf.placed.imp fun _ hp => hp.mono ht hw⟩)
    (fun _ _ hm => ⟨hm.same, hm.placed.imp fun _ hp => hp.mono ht hw⟩) h

end

/-! ### Machines -/

/-- The machine has the scopes of the world, and all values in its store conform to it. If order is
minded, no local scope binds a name that it may not come to bind. -/
structure Conforms (ordered : Prop) (t : Table) (w : World) (m : Machine) : Prop where
  distances : m.distances = t.distances
  scopes : w.scopes = m.store.scopes.size
  positive : 0 < w.scopes
  names : ∀ i, w.names i = (m.store.scope i).names
  allowed : ordered → ∀ i, 0 < i → i < w.scopes → ∀ n, w.Binds i n → w.allowed i n
  scope : ∀ i, Bindings.Rel (Conforming ordered t w) (m.store.scope i) (m.store.scope i)
  fields : ∀ id, Bindings.Rel (Conforming ordered t w) (m.store.fields id) (m.store.fields id)

theorem mem_names {α : Type} {b : Bindings α} {n : String} : n ∈ b.names ↔ b.binds n = true := by
  unfold Bindings.names Bindings.binds
  induction b with
  | nil => simp
  | cons entry rest ih =>
    obtain ⟨key, value⟩ := entry
    rw [Bindings.get?_cons, List.map_cons, List.mem_cons, ih]
    by_cases h : key = n
    · simp [h]
    · simp [h, Ne.symm h]

theorem names_set {α : Type} (b : Bindings α) (name : String) (a : α) :
    (b.set name a).names = addName b.names name := by
  unfold addName
  split
  · rename_i h
    exact Bindings.names_set_of_binds a (mem_names.1 h)
  · rename_i h
    induction b with
    | nil => rfl
    | cons entry rest ih =>
      obtain ⟨key, old⟩ := entry
      simp only [Bindings.names, List.map_cons, List.mem_cons, not_or] at h ih ⊢
      rw [Bindings.set, if_neg (Ne.symm h.1), List.map_cons, ih h.2, List.cons_append]

namespace Conforms

variable {ordered : Prop} {t : Table} {w : World} {m : Machine}

theorem binds_iff (h : Conforms ordered t w m) {i : ScopeId} {n : String} :
    w.Binds i n ↔ (m.store.scope i).binds n = true := by
  unfold World.Binds
  rw [h.names, mem_names]

theorem host_step (h : Conforms ordered t w m) (host : Host) :
    Conforms ordered t w { m with toHost := host } :=
  { h with }

theorem identity_step (h : Conforms ordered t w m) :
    Conforms ordered t w { m with nextIdentity := m.nextIdentity + 1 } :=
  { h with }

theorem environment_step (h : Conforms ordered t w m) (environment : Environment) :
    Conforms ordered t w { m with environment } :=
  { h with }

/-- The distances of one more program are added. -/
theorem table_step {t' : Table} (h : Conforms ordered t w m) (ht : t.Le t') :
    Conforms ordered t' w { m with distances := t'.distances } :=
  have mono : ∀ v v', Conforming ordered t w v v' → Conforming ordered t' w v v' :=
    fun _ _ hv => hv.mono ht (World.Extends.refl nothing w)
  { h with
    distances := rfl
    scope := fun i => (h.scope i).mono mono
    fields := fun id => (h.fields id).mono mono }

/-- An object without fields is added. -/
theorem object_step (h : Conforms ordered t w m) :
    Conforms ordered t w { m with store := m.store.pushObject } := by
  refine { h with fields := fun id => ?_ }
  have hf := h.fields id
  unfold Store.fields Store.pushObject at *
  rw [Array.getElem?_push]
  split
  · exact .nil
  · exact hf

/-- A field of an object is set. -/
theorem field_step (h : Conforms ordered t w m) (object : Nat) (name : String) {v : Value}
    (hv : Conforming ordered t w v v) :
    Conforms ordered t w { m with store := m.store.setField object name v } := by
  refine { h with fields := fun id => ?_ }
  have hf := h.fields id
  unfold Store.fields Store.setField at *
  rw [Array.getElem?_modify]
  split
  · cases ho : m.store.objects[id]? with
    | none => exact .nil
    | some fields =>
      rw [ho] at hf
      exact hf.set name hv
  · exact hf

/-- A scope is added. -/
theorem grow (h : Conforms ordered t w m) {b : Bindings Value}
    (hb : Bindings.Rel (Conforming ordered t w) b b) {allowed : String → Prop}
    (hallowed : ordered → ∀ n ∈ b.names, allowed n) :
    Conforms ordered t (w.grow b.names allowed) { m with store := m.store.push b } := by
  have mono : ∀ v v', Conforming ordered t w v v' →
      Conforming ordered t (w.grow b.names allowed) v v' :=
    fun _ _ hv => hv.mono (.refl t) (w.extends_grow nothing _ _)
  refine { h with
    scopes := by simp [World.grow, h.scopes]
    positive := Nat.succ_pos _
    names := fun i => ?_
    allowed := fun ho i hi hold n hn => ?_
    scope := fun i => ?_
    fields := fun id => (h.fields id).mono mono }
  · dsimp only [World.grow]
    rw [Store.scope_push, h.scopes, h.names]
    split <;> rfl
  · dsimp only [World.grow, World.Binds] at hn hold ⊢
    split at hn
    · rename_i he
      rw [if_pos he]
      exact hallowed ho n hn
    · rename_i he
      rw [if_neg he]
      exact h.allowed ho i hi (Nat.lt_of_le_of_ne (Nat.le_of_lt_succ hold) he) n hn
  · rw [Store.scope_push]
    split
    · exact hb.mono mono
    · exact (h.scope i).mono mono

/-- A scope binds a name. -/
theorem set (h : Conforms ordered t w m) {i : ScopeId} (hi : i < w.scopes) {name : String}
    (hallowed : ordered → 0 < i → w.allowed i name) {new : Additions}
    (hnew : w.Binds i name ∨ new i name) {v : Value}
    (hv : Conforming ordered t (w.bind i name) v v) :
    Conforms ordered t (w.bind i name) { m with store := m.store.setIn i name v } := by
  have mono : ∀ u u', Conforming ordered t w u u' → Conforming ordered t (w.bind i name) u u' :=
    fun _ _ hu => hu.mono (.refl t) (World.extends_bind hnew)
  refine { h with
    scopes := by simp [World.bind, h.scopes]
    names := fun j => ?_
    allowed := fun ho j hj hold n hn => ?_
    scope := fun j => ?_
    fields := fun id => (h.fields id).mono mono }
  · dsimp only [World.bind]
    rw [Store.scope_setIn]
    by_cases hj : j = i
    · subst hj
      rw [if_pos rfl, if_pos ⟨rfl, h.scopes ▸ hi⟩, names_set, h.names]
    · rw [if_neg hj, if_neg fun he => hj he.1.symm, h.names]
  · by_cases hji : j = i
    · subst hji
      rcases (w.names_bind_self j name n).1 hn with hn | rfl
      · exact h.allowed ho j hj hold n hn
      · exact hallowed ho hj
    · refine h.allowed ho j hj hold n ?_
      simpa [World.Binds, World.bind, hji] using hn
  · rw [Store.scope_setIn]
    split
    · exact ((h.scope j).mono mono).set name hv
    · exact (h.scope j).mono mono

end Conforms

end Scopes

end Lox
