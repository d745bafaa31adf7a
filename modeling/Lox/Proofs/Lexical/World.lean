import Lox.Proofs.Lexical.Evaluation
import Lox.Proofs.Scoping.Linked

/-!
Where local names live. A `World` says which location each local name of each scope has, and which
names a scope binds; it only ever grows. `InForce` relates a chain of scopes, as the resolver and
the machine know them, to the names in force: a name that the resolver finds at a distance stands
for the location of the scope at this distance (`InForce.find?_eq_some`), and a name that it does not
find is not a local one (`InForce.find?_eq_none`).
-/

namespace Lox

namespace Lexical

/-! ### Worlds -/

/-- Where the local names of all scopes live. -/
structure World where
  /-- The number of scopes. -/
  scopes : Nat
  /-- The location of a name that a scope has declared. -/
  place : ScopeId → String → Option Location
  /-- A scope binds a name. -/
  bound : ScopeId → String → Prop

namespace World

/-- One more scope. -/
def grow (w : World) : World :=
  { w with scopes := w.scopes + 1 }

/-- A scope declares a name. -/
def declare (w : World) (i : ScopeId) (name : String) (l : Location) : World :=
  { w with place := fun j n => if i = j ∧ name = n then some l else w.place j n }

/-- A scope binds a name. -/
def bind (w : World) (i : ScopeId) (name : String) : World :=
  { w with bound := fun j n => (i = j ∧ name = n) ∨ w.bound j n }

/-- What is in the first world is in the second. -/
structure Le (w w' : World) : Prop where
  scopes : w.scopes ≤ w'.scopes
  place : ∀ {i n l}, w.place i n = some l → w'.place i n = some l
  bound : ∀ {i n}, w.bound i n → w'.bound i n

/-- The second world extends the first; of the scopes that were there, only `inside` may have
declared anything. -/
structure Extends (inside : Option ScopeId) (w w' : World) : Prop extends Le w w' where
  frame : ∀ i < w.scopes, some i ≠ inside → w'.place i = w.place i

variable {inside : Option ScopeId} {w w' w'' : World}

theorem Le.refl (w : World) : w.Le w := ⟨Nat.le_refl _, id, id⟩

theorem Le.trans (h : w.Le w') (h' : w'.Le w'') : w.Le w'' :=
  ⟨Nat.le_trans h.scopes h'.scopes, h'.place ∘ h.place, h'.bound ∘ h.bound⟩

theorem Extends.refl (inside : Option ScopeId) (w : World) : w.Extends inside w :=
  ⟨.refl w, fun _ _ _ => rfl⟩

theorem Extends.trans (h : w.Extends inside w') (h' : w'.Extends inside w'') :
    w.Extends inside w'' :=
  ⟨h.toLe.trans h'.toLe, fun i hi hne =>
    (h'.frame i (Nat.lt_of_lt_of_le hi h.scopes) hne).trans (h.frame i hi hne)⟩

theorem Extends.weaken (h : w.Extends none w') : w.Extends inside w' :=
  ⟨h.toLe, fun i hi _ => h.frame i hi (by simp)⟩

/-- What a scope that was not there before declares is nothing that the old scopes declare. -/
theorem Extends.forget {i : ScopeId} (h : w.Extends none w') (h' : w'.Extends (some i) w'')
    (hi : w.scopes ≤ i) : w.Extends none w'' :=
  ⟨h.toLe.trans h'.toLe, fun j hj _ =>
    (h'.frame j (Nat.lt_of_lt_of_le hj h.scopes) (by simp; omega)).trans (h.frame j hj (by simp))⟩

theorem extends_grow (w : World) : w.Extends none w.grow :=
  ⟨⟨Nat.le_succ _, id, id⟩, fun _ _ _ => rfl⟩

theorem extends_declare {i : ScopeId} {name : String} (l : Location) (h : w.place i name = none) :
    w.Extends (some i) (w.declare i name l) := by
  refine ⟨⟨Nat.le_refl _, fun {j n k} hk => ?_, id⟩, ?_⟩
  · by_cases hj : i = j ∧ name = n
    · obtain ⟨rfl, rfl⟩ := hj
      rw [h] at hk
      cases hk
    · simp [declare, hj, hk]
  · intro j _ hne
    funext n
    have : i ≠ j := fun he => hne (by rw [he])
    simp [declare, this]

theorem extends_bind (i : ScopeId) (name : String) : w.Extends none (w.bind i name) :=
  ⟨⟨Nat.le_refl _, id, Or.inr⟩, fun _ _ _ => rfl⟩

end World

/-! ### Names in force -/

/-- The names in force are those of a chain of scopes, of which the resolver has seen what
`scopes` says. -/
inductive InForce (w : World) : List (Bindings Bool) → Environment → Names → Prop where
  | globals : InForce w [] .globals none
  | scope {scope : Bindings Bool} {scopes : List (Bindings Bool)} {i : ScopeId}
      {env : Environment} {outer : Names} {places : Bindings Location}
      (rest : InForce w scopes env outer) (positive : 0 < i) (old : i < w.scopes)
      (find : ∀ n, places.get? n = if scope.binds n then w.place i n else outer.find? n)
      (declared : ∀ n, scope.binds n = true → (w.place i n).isSome)
      (bound : ∀ n, scope.get? n = some true → w.bound i n) :
      InForce w (scope :: scopes) (i :: env) (some places)

/-- The innermost scope has declared nothing but what the resolver has seen. -/
def Tight (w : World) : List (Bindings Bool) → Environment → Prop
  | scope :: _, i :: _ => ∀ n, (w.place i n).isSome → scope.binds n = true
  | _, _ => True

namespace InForce

variable {w w' : World} {scopes : List (Bindings Bool)} {env : Environment} {names : Names}

theorem mono (hw : w.Le w') (h : InForce w scopes env names) : InForce w' scopes env names := by
  induction h with
  | globals => exact .globals
  | @scope scope scopes i env outer places _ positive old find declared bound ih =>
    refine .scope ih positive (Nat.lt_of_lt_of_le old hw.scopes) (fun n => ?_) (fun n hn => ?_)
      fun n hn => hw.bound (bound n hn)
    · rw [find n]
      split
      · rename_i hn
        obtain ⟨l, hl⟩ := Option.isSome_iff_exists.1 (declared n hn)
        rw [hl, hw.place hl]
      · rfl
    · obtain ⟨l, hl⟩ := Option.isSome_iff_exists.1 (declared n hn)
      simp [hw.place hl]

/-- A name that no scope binds is not a local one. -/
theorem find?_eq_none (h : InForce w scopes env names) {n : String}
    (hn : scopes.findIdx? (·.binds n) = none) : names.find? n = none := by
  induction h with
  | globals => rfl
  | @scope scope scopes i env outer places _ _ _ find _ _ ih =>
    rw [List.findIdx?_cons] at hn
    split at hn
    · cases hn
    · rename_i hb
      have hr := ih (by simpa using hn)
      simpa [Names.find?, find n, hb] using hr

/-- A name with a distance stands for the location that the scope at this distance has for it, and
the scope binds the name unless it may not be read yet. -/
theorem find?_eq_some (h : InForce w scopes env names) {n : String} {d : Nat}
    (hn : scopes.findIdx? (·.binds n) = some d) :
    ∃ i l, env[d]? = some i ∧ 0 < i ∧ w.place i n = some l ∧ names.find? n = some l
      ∧ (scopes.findSome? (·.get? n) ≠ some false → w.bound i n) := by
  induction h generalizing d with
  | globals => simp at hn
  | @scope scope scopes i env outer places _ positive _ find declared bound ih =>
    rw [List.findIdx?_cons] at hn
    split at hn
    · rename_i hb
      obtain rfl : d = 0 := by simpa using hn.symm
      obtain ⟨l, hl⟩ := Option.isSome_iff_exists.1 (declared n hb)
      refine ⟨i, l, rfl, positive, hl, by simp [Names.find?, find n, hb, hl], ?_⟩
      intro hr
      obtain ⟨flag, hf⟩ := Option.isSome_iff_exists.1 hb
      rw [List.findSome?_cons, hf] at hr
      cases flag
      · exact absurd rfl hr
      · exact bound n hf
    · rename_i hb
      obtain ⟨d, hd, rfl⟩ := Option.map_eq_some_iff.1 hn
      obtain ⟨j, l, hj, hpos, hl, hfind, hread⟩ := ih hd
      refine ⟨j, l, by simpa using hj, hpos, hl, ?_, fun hr => hread ?_⟩
      · simpa [Names.find?, find n, hb] using hfind
      · have : scope.get? n = none := by simpa [Bindings.binds] using hb
        rwa [List.findSome?_cons, this] at hr

/-! ### A new scope, and what it declares -/

/-- In a new scope the names around it are in force. -/
theorem enter (h : InForce w scopes env names) (hw : 0 < w.scopes) :
    InForce w.grow ([] :: scopes) (w.scopes :: env) names.enter := by
  refine .scope (h.mono (World.extends_grow w).toLe) hw (Nat.lt_succ_self _) (fun n => ?_)
    (fun n hn => by simp [Bindings.binds] at hn) fun n hn => by simp at hn
  cases names <;> rfl

variable {scope : Bindings Bool} {i : ScopeId} {places : Bindings Location} {name : String}

/-- A name that the innermost scope declares is in force from there on, but may not be read. -/
theorem declare (h : InForce w (scope :: scopes) (i :: env) (some places))
    (hnew : w.place i name = none) (l : Location) :
    InForce (w.declare i name l) (scope.set name false :: scopes) (i :: env)
      (some ((name, l) :: places)) := by
  have hle : w.Le (w.declare i name l) := (World.extends_declare l hnew).toLe
  cases h with
  | scope rest positive old find declared bound =>
    refine .scope (rest.mono hle) positive old (fun n => ?_) (fun n hn => ?_) fun n hn => ?_
    · rw [Bindings.get?_cons, Bindings.binds_set]
      by_cases hne : name = n
      · simp [World.declare, hne]
      · simp [World.declare, hne, find n]
    · by_cases hne : name = n
      · simp [World.declare, hne]
      · rw [Bindings.binds_set] at hn
        simpa [World.declare, hne] using declared n (by simpa [hne] using hn)
    · rw [Bindings.get?_set] at hn
      by_cases hne : name = n
      · simp [hne] at hn
      · exact hle.bound (bound n (by simpa [hne] using hn))

/-- A name that the innermost scope has declared may be read once it is bound. -/
theorem bind (h : InForce w (scope :: scopes) (i :: env) names)
    (hname : scope.binds name = true) :
    InForce (w.bind i name) (scope.set name true :: scopes) (i :: env) names := by
  have hbinds : ∀ n, (scope.set name true).binds n = scope.binds n := by
    intro n
    rw [Bindings.binds_set]
    by_cases hne : name = n
    · simp [← hne, hname]
    · simp [hne]
  cases h with
  | scope rest positive old find declared bound =>
    refine .scope (rest.mono (World.extends_bind i name).toLe) positive old (fun n => ?_)
      (fun n hn => declared n (hbinds n ▸ hn)) fun n hn => ?_
    · rw [hbinds]
      exact find n
    · rw [Bindings.get?_set] at hn
      by_cases hne : name = n
      · exact .inl ⟨rfl, hne⟩
      · exact .inr (bound n (by simpa [hne] using hn))

end InForce

namespace Tight

variable {w w' : World} {scopes : List (Bindings Bool)} {env : Environment}
  {scope : Bindings Bool} {i : ScopeId} {name : String}

/-- What is declared elsewhere leaves a scope as it is. -/
theorem extend (h : Tight w (scope :: scopes) (i :: env)) (hw : w.Extends none w')
    (hold : i < w.scopes) : Tight w' (scope :: scopes) (i :: env) := by
  intro n hn
  rw [hw.frame i hold (by simp)] at hn
  exact h n hn

theorem place_eq_none (h : Tight w (scope :: scopes) (i :: env)) (hn : scope.binds name = false) :
    w.place i name = none := by
  cases hl : w.place i name with
  | none => rfl
  | some l =>
    have := h name (by simp [hl])
    simp [hn] at this

theorem declare (h : Tight w (scope :: scopes) (i :: env)) (l : Location) :
    Tight (w.declare i name l) (scope.set name false :: scopes) (i :: env) := by
  intro n hn
  rw [Bindings.binds_set]
  by_cases hne : name = n
  · simp [hne]
  · simpa [hne] using h n (by simpa [World.declare, hne] using hn)

theorem bind (h : Tight w (scope :: scopes) (i :: env)) :
    Tight (w.bind i name) (scope.set name true :: scopes) (i :: env) := by
  intro n hn
  rw [Bindings.binds_set]
  simp [h n hn]

end Tight

/-- The names in force at a statement, which may declare another one. -/
structure Current (w : World) (scopes : List (Bindings Bool)) (env : Environment) (names : Names) :
    Prop where
  inForce : InForce w scopes env names
  tight : Tight w scopes env

theorem Current.extend {w w' : World} {scopes : List (Bindings Bool)} {env : Environment}
    {names : Names} (h : Current w scopes env names) (hw : w.Extends none w') :
    Current w' scopes env names := by
  refine ⟨h.inForce.mono hw.toLe, ?_⟩
  obtain ⟨hf, ht⟩ := h
  cases hf with
  | globals => trivial
  | scope _ _ hold _ _ _ => exact ht.extend hw hold

end Lexical

end Lox
