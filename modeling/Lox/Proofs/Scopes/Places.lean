import Lox.Proofs.Scopes.Matches

/-!
Places between statements. `Current` says of a place what the statements from there on can rely on:
the scopes around it are a chain, and if order is minded, the innermost of them binds what the
resolver has seen and comes to bind what is still to be declared in it. Each way of getting from one
place to another is one lemma here: a name is declared (`Current.bind`), a scope is entered
(`Current.enter`), or a function is kept for later (`Current.placed`) and then called
(`Placed.enter_frame`).
-/

namespace Lox

namespace Scopes

/-! ### Chains that grow -/

section

variable {w : World} {scope : Bindings Bool} {scopes : List (Bindings Bool)} {env : Environment}
  {names : List String} {allowed : String → Prop}

/-- A scope that binds what the resolver takes for readable is added to a chain. -/
theorem Chain.enter (h : Chain w scopes env) (hw : 0 < w.scopes)
    (hn : ∀ n, scope.get? n = some true → n ∈ names) :
    Chain (w.grow names allowed) (scope :: scopes) (w.scopes :: env) := by
  refine .scope (h.extend (w.extends_grow nothing names allowed)) hw (Nat.lt_succ_self _)
    fun n hget => ?_
  simpa [World.Binds, World.grow] using hn n hget

/-- The innermost scope binds one more name, which may be read from then on. -/
theorem Chain.bind {i : ScopeId} (h : Chain w (scope :: scopes) (i :: env)) (name : String) :
    Chain (w.bind i name) (scope.set name true :: scopes) (i :: env) := by
  cases h with
  | scope rest positive old binds =>
    have hext : w.Extends (inside (i :: env) [name]) (w.bind i name) :=
      World.extends_bind (.inr ⟨rfl, List.mem_singleton_self name⟩)
    refine .scope (rest.extend hext) positive old fun n hn => ?_
    rw [Bindings.get?_set] at hn
    rw [World.names_bind_self]
    by_cases hne : name = n
    · exact .inr hne.symm
    · rw [if_neg hne] at hn
      exact .inl (binds n hn)

/-- A name that may not be read yet asks for nothing. -/
theorem Chain.unreadable {site : Site} (h : Chain w site.scopes env) (name : Token) :
    Chain w (site.bind name false).scopes env := by
  rw [Site.bind_scopes]
  generalize site.scopes = scopes at h
  cases h with
  | globals => exact .globals
  | scope rest positive old binds =>
    refine .scope rest positive old fun n hn => ?_
    rw [Bindings.get?_set] at hn
    by_cases hne : name.lexeme = n
    · simp [hne] at hn
    · exact binds n (by simpa [hne] using hn)

theorem Chain.head?_eq (h : Chain w scopes env) : env.head? = some (env.headD 0) := by
  cases h <;> rfl

/-- The scopes of a chain come to bind what they did before a scope was added. -/
theorem Known.grow {minded : String → Prop} (h : Chain w scopes env)
    (hk : Known w.allowed minded scopes env) (hn : ∀ n, minded n → allowed n → scope.binds n = true) :
    Known (w.grow names allowed).allowed minded (scope :: scopes) (w.scopes :: env) := by
  refine ⟨fun n hm ha => hn n hm ?_, hk.allowed h (w.extends_grow nothing names allowed)⟩
  simpa [World.grow] using ha

end

/-! ### Scopes between statements -/

/-- The innermost scope binds only what the resolver has seen, and comes to bind only that and the
names that are still to be declared; the scopes around it come to bind no name that is minded unless
the resolver has seen it. -/
def Ahead (w : World) (declared : List String) (minded : String → Prop) :
    List (Bindings Bool) → Environment → Prop
  | scope :: scopes, i :: env =>
    (∀ n, w.Binds i n → scope.binds n = true)
      ∧ (∀ n, w.allowed i n ↔ scope.binds n = true ∨ n ∈ declared)
      ∧ Known w.allowed minded scopes env
  | _, _ => True

/-- A place between statements: in the innermost scope these names are still to be declared, and
statements from here on mind these names. -/
structure Current (ordered : Prop) (w : World) (site : Site) (env : Environment)
    (declared : List String) (minded : String → Prop) : Prop where
  readable : site.Readable
  chain : Chain w site.scopes env
  ahead : ordered → Ahead w declared minded site.scopes env

/-- In the world no scope binds a name that it may not come to bind. -/
def World.Within (w : World) : Prop :=
  ∀ i, 0 < i → i < w.scopes → ∀ n, w.Binds i n → w.allowed i n

/-- After the name has been declared, these names are still to be declared. -/
def Declares (site : Site) (declared : List String) (name : Token) (later : List String) : Prop :=
  ∀ scope ∈ site.scopes.head?, ∀ n, scope.binds n = true ∨ n ∈ declared
    ↔ (scope.set name.lexeme true).binds n = true ∨ n ∈ later

theorem declares_first (site : Site) (name : Token) (later : List String) :
    Declares site (name.lexeme :: later) name later := by
  intro scope _ n
  rw [Bindings.binds_set, List.mem_cons, Bool.or_eq_true, decide_eq_true_iff, or_assoc,
    eq_comm (a := n), or_left_comm]

theorem declares_again (site : Site) (name : Token) (later : List String) :
    Declares (site.bind name true) later name later := by
  intro scope hscope n
  rw [Site.bind_scopes] at hscope
  split at hscope
  · cases hscope
  · cases hscope
    rw [Bindings.set_set]

section

variable {ordered : Prop} {t : Table} {w w' : World} {site : Site} {env : Environment}
  {declared later : List String} {minded minded' : String → Prop} {new : Additions} {name : Token}

namespace Current

/-- What is done elsewhere leaves a place as it is. -/
theorem extend (h : Current ordered w site env declared minded) (hw : w.Extends new w')
    (hnew : ordered → new = nothing) : Current ordered w' site env declared minded := by
  refine ⟨h.readable, h.chain.extend hw, fun ho => ?_⟩
  have ha := h.ahead ho
  have hc := h.chain
  obtain rfl := hnew ho
  generalize site.scopes = scopes at ha hc
  cases hc with
  | globals => trivial
  | @scope scope scopes i env rest _ old _ =>
    obtain ⟨htight, hallowed, hknown⟩ := ha
    refine ⟨fun n hn => htight n ((hw.new i old n hn).resolve_right id), fun n => ?_,
      hknown.allowed rest hw⟩
    rw [hw.allowed i old]
    exact hallowed n

/-- The scopes bind no name that is minded unless the resolver has seen it. -/
theorem known_binds (h : Current ordered w site env declared minded) (hw : w.Within)
    (ho : ordered) (hminded : ∀ n, minded' n → minded n) :
    Known w.Binds minded' site.scopes env := by
  have ha := h.ahead ho
  have hc := h.chain
  generalize site.scopes = scopes at ha hc
  cases hc with
  | globals => trivial
  | scope rest _ _ _ =>
    refine ⟨fun n _ hn => ha.1 n hn, ?_⟩
    exact (ha.2.2.imp hminded fun _ _ => id).congr rest fun i hi hpos n hn => hw i hpos hi n hn

/-- Nor do they come to bind one, if none is still to be declared. -/
theorem known_allowed (h : Current ordered w site env later minded) (ho : ordered)
    (hminded : ∀ n, minded' n → minded n)
    (hlate : site.scopes ≠ [] → ∀ n, minded' n → n ∉ later) :
    Known w.allowed minded' site.scopes env := by
  have ha := h.ahead ho
  generalize site.scopes = scopes at ha hlate
  cases scopes with
  | nil => trivial
  | cons scope scopes =>
    cases env with
    | nil => trivial
    | cons i env =>
      refine ⟨fun n hn hai => ?_, ha.2.2.imp hminded fun _ _ => id⟩
      exact ((ha.2.1 n).1 hai).resolve_right (hlate (by simp) n hn)

/-- A name is declared and bound. -/
theorem bind (h : Current ordered w site env declared minded)
    (hd : Declares site declared name later) :
    Current ordered (w.bind (env.headD 0) name.lexeme) (site.bind name true) env later minded := by
  have hext : w.Extends (inside env [name.lexeme]) (w.bind (env.headD 0) name.lexeme) :=
    World.extends_bind (.inr ⟨h.chain.head?_eq, List.mem_singleton_self _⟩)
  refine ⟨h.readable.bind name, ?_, fun ho => ?_⟩
  · have hc := h.chain
    rw [Site.bind_scopes]
    generalize site.scopes = scopes at hc
    cases hc with
    | globals => exact .globals
    | scope rest positive old binds =>
      exact (Chain.scope rest positive old binds).bind name.lexeme
  · have ha := h.ahead ho
    have hc := h.chain
    unfold Declares at hd
    rw [Site.bind_scopes]
    generalize site.scopes = scopes at ha hc hd
    cases hc with
    | globals => trivial
    | @scope scope _ i _ _ _ _ _ =>
      obtain ⟨htight, hallowed, hknown⟩ := ha
      refine ⟨fun n hn => ?_, fun n => (hallowed n).trans (hd scope rfl n), hknown⟩
      rw [Bindings.binds_set, Bool.or_eq_true, decide_eq_true_iff]
      exact (((w.names_bind_self i name.lexeme n).1 hn).imp (htight n) Eq.symm).symm

/-- The scope may come to bind the name that is declared next. -/
theorem allowed_next (h : Current ordered w site env declared minded)
    (hd : Declares site declared name later) (ho : ordered) (hpos : 0 < env.headD 0) :
    w.allowed (env.headD 0) name.lexeme := by
  have ha := h.ahead ho
  have hc := h.chain
  unfold Declares at hd
  generalize site.scopes = scopes at ha hc hd
  cases hc with
  | globals => exact absurd hpos (Nat.lt_irrefl 0)
  | @scope scope _ i env _ _ _ _ =>
    refine (ha.2.1 name.lexeme).2 ((hd scope rfl _).2 (.inl ?_))
    simp [Bindings.binds_set]

/-- The scope of a block is entered. -/
theorem enter (h : Current ordered w site env later minded) (hw : 0 < w.scopes) {body : List Stmt}
    (ho : ordered → (∀ n, Minded (Stmt.mentionsEach body) n → minded n)
      ∧ (site.scopes ≠ [] → ∀ n, Minded (Stmt.mentionsEach body) n → n ∉ later)) :
    Current ordered (w.grow [] (· ∈ Stmt.declaredEach body)) (site.enter []) (w.scopes :: env)
      (Stmt.declaredEach body) (Minded (Stmt.mentionsEach body)) where
  readable := h.readable.enter fun n => by simp
  chain := h.chain.enter hw fun n hn => by simp at hn
  ahead ordered := by
    obtain ⟨hminded, hlate⟩ := ho ordered
    refine ⟨fun n hn => ?_, fun n => ?_, ?_⟩
    · simp [World.Binds, World.grow] at hn
    · simp [World.grow, Bindings.binds]
    · exact (h.known_allowed ordered hminded hlate).allowed h.chain
        (w.extends_grow nothing _ _)

/-- A function or method that is declared here is kept for later. -/
theorem placed (h : Current ordered w site env later minded) {routine : Routine} {inner : Site}
    (hl : ∃ kind, routine.Linked t inner kind) (hr : inner.Readable)
    (ho : ordered → routine.orderly = true ∧ (∀ n, Minded routine.mentions n → minded n)
      ∧ (site.scopes ≠ [] → ∀ n, Minded routine.mentions n → n ∉ later)) :
    Placed ordered t w routine inner site.scopes env where
  linked := hl
  readable := hr
  chain := h.chain
  order ordered :=
    have ⟨horderly, hminded, hlate⟩ := ho ordered
    ⟨horderly, h.known_allowed ordered hminded hlate⟩

end Current

/-! ### Functions that are kept -/

namespace Placed

variable {routine : Routine} {outer : List (Bindings Bool)}

/-- A scope that binds `this` or `super` alone is added around a function or method. -/
theorem enter_one (h : Placed ordered t w routine site outer env) (hw : 0 < w.scopes)
    (name : String) :
    Placed ordered t (w.grow [name] (· = name)) routine site ([(name, true)] :: outer)
      (w.scopes :: env) where
  linked := h.linked
  readable := h.readable
  chain := h.chain.enter hw fun n hn => by
    rw [Bindings.get?_cons] at hn
    by_cases hne : name = n
    · exact List.mem_singleton.2 hne.symm
    · simp [hne] at hn
  order ho := by
    obtain ⟨horderly, hknown⟩ := h.order ho
    refine ⟨horderly, hknown.grow h.chain fun n _ hn => ?_⟩
    simp [Bindings.binds, Bindings.get?_cons, hn]

end Placed

/-- The names of two scopes that bind the same names one after the other are the same. -/
theorem names_foldl_set {α β σ : Type} (key : σ → String) (f : σ → α) (g : σ → β) (xs : List σ)
    {b : Bindings α} {c : Bindings β} (h : b.names = c.names) :
    (xs.foldl (fun b x => b.set (key x) (f x)) b).names
      = (xs.foldl (fun c x => c.set (key x) (g x)) c).names := by
  induction xs generalizing b c with
  | nil => exact h
  | cons x xs ih =>
    refine ih ?_
    rw [names_set, names_set, h]

end

end Scopes

end Lox
