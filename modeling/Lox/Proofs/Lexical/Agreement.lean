import Lox.Proofs.Lexical.Values

/-!
When a machine and a state of the lexical meaning agree: the same host, the same globals and fields
up to what functions keep of the place they were declared in, and in each location what the scope
binds whose name lives there. `Agrees` says so, and each way in which the two are changed together is
one lemma here, which gives the world that it leads to.
-/

namespace Lox

namespace Lexical

/-- The name may be bound to the value: `this` only to an object and `super` only to a class. -/
def Fits (name : String) (v : Value) : Prop :=
  (name = "this" → ∃ id c, v = .object id c) ∧ (name = "super" → ∃ id c, v = .classOf id c)

theorem Fits.of_isName {name : Token} (h : name.IsName) (v : Value) : Fits name.lexeme v :=
  ⟨fun he => absurd he h.1, fun he => absurd he h.2⟩

/-- The machine and the state of the lexical meaning agree about everything. -/
structure Agrees (t : Table) (w : World) (m : Machine) (st : State) : Prop where
  distances : m.distances = t.distances
  host : st.toHost = m.toHost
  nextIdentity : st.nextIdentity = m.nextIdentity
  scopes : w.scopes = m.store.scopes.size
  positive : 0 < w.scopes
  globals : Bindings.Rel (ValueRel t w) (m.store.scope 0) st.globals
  objects : st.objects.size = m.store.objects.size
  fields : ∀ id, Bindings.Rel (ValueRel t w) (m.store.fields id) (st.objects[id]?.getD [])
  place : ∀ {i n l}, w.place i n = some l → 0 < i ∧ i < w.scopes ∧ l < st.memory.size
  /-- No two names share a location. -/
  apart : ∀ {i n j k l}, w.place i n = some l → w.place j k = some l → i = j ∧ n = k
  contents : ∀ {i n v}, 0 < i → (m.store.scope i).get? n = some v →
    ∃ l v', w.place i n = some l ∧ st.memory[l]? = some v' ∧ ValueRel t w v v'
  bound : ∀ {i n}, w.bound i n → ∃ v, (m.store.scope i).get? n = some v ∧ Fits n v
  known : ∀ {n}, (m.store.scope 0).binds n = true → w.bound 0 n

namespace Agrees

variable {t : Table} {w : World} {m : Machine} {st : State}

/-! ### Changes that values do not depend on -/

theorem host_step (h : Agrees t w m st) (host : Host) :
    Agrees t w { m with toHost := host } { st with toHost := host } :=
  { h with host := rfl }

theorem identity_step (h : Agrees t w m st) :
    Agrees t w { m with nextIdentity := m.nextIdentity + 1 }
      { st with nextIdentity := st.nextIdentity + 1 } :=
  { h with nextIdentity := congrArg (· + 1) h.nextIdentity }

theorem environment_step (h : Agrees t w m st) (environment : Environment) :
    Agrees t w { m with environment } st :=
  { h with }

/-- The distances of one more program are added. -/
theorem table_step {t' : Table} (h : Agrees t w m st) (ht : t.Le t') :
    Agrees t' w { m with distances := t'.distances } st :=
  have mono : ∀ {v v'}, ValueRel t w v v' → ValueRel t' w v v' := .mono ht (.refl w)
  { h with
    distances := rfl
    globals := h.globals.mono fun _ _ => mono
    fields := fun id => (h.fields id).mono fun _ _ => mono
    contents := fun hi hv =>
      let ⟨l, v', hl, hm, hr⟩ := h.contents hi hv
      ⟨l, v', hl, hm, mono hr⟩ }

/-! ### Objects -/

/-- An object without fields is added. -/
theorem object_step (h : Agrees t w m st) :
    Agrees t w { m with store := m.store.pushObject } { st with objects := st.objects.push [] } := by
  refine { h with objects := by simp [Store.pushObject, h.objects], fields := fun id => ?_ }
  have hf := h.fields id
  unfold Store.fields Store.pushObject at *
  rw [Array.getElem?_push, Array.getElem?_push, h.objects]
  split
  · exact .nil
  · exact hf

/-- A field of an object is set. -/
theorem field_step (h : Agrees t w m st) (object : Nat) (name : String) {v : Value}
    {v' : Value Names} (hv : ValueRel t w v v') :
    Agrees t w { m with store := m.store.setField object name v }
      { st with objects := st.objects.modify object (·.set name v') } := by
  refine { h with objects := by simp [Store.setField, h.objects], fields := fun id => ?_ }
  have hf := h.fields id
  unfold Store.fields Store.setField at *
  rw [Array.getElem?_modify, Array.getElem?_modify]
  split
  · rename_i ho
    subst ho
    by_cases hs : object < m.store.objects.size
    · have hs' : object < st.objects.size := h.objects ▸ hs
      simp only [Array.getElem?_eq_getElem hs, Array.getElem?_eq_getElem hs', Option.getD_some,
        Option.map_some] at hf ⊢
      exact hf.set name hv
    · have hs' : ¬ object < st.objects.size := h.objects ▸ hs
      rw [Array.getElem?_eq_none (Nat.le_of_not_lt hs), Array.getElem?_eq_none (Nat.le_of_not_lt hs')]
      exact .nil
  · exact hf

/-! ### Scopes and locations -/

theorem place_eq_none (h : Agrees t w m st) (n : String) : w.place w.scopes n = none := by
  cases hl : w.place w.scopes n with
  | none => rfl
  | some l => exact absurd (h.place hl).2.1 (Nat.lt_irrefl _)

/-- A scope that binds nothing is added. -/
theorem grow (h : Agrees t w m st) :
    Agrees t w.grow { m with store := m.store.push [] } st := by
  have hle : w.Le w.grow := (World.extends_grow w).toLe
  have mono : ∀ {v v'}, ValueRel t w v v' → ValueRel t w.grow v v' := .mono (.refl t) hle
  have hscope : ∀ i, (m.store.push []).scope i = m.store.scope i := by
    intro i
    rw [Store.scope_push]
    split
    · rename_i hi
      rw [hi, Store.scope_eq_nil _ (Nat.le_refl _)]
    · rfl
  refine { h with
    scopes := by simp [World.grow, h.scopes]
    positive := Nat.succ_pos _
    globals := ?_
    fields := fun id => (h.fields id).mono fun _ _ => mono
    place := fun hl => ?_
    contents := fun hi hv => ?_
    bound := fun hb => ?_
    known := fun hn => ?_ }
  · rw [hscope]
    exact h.globals.mono fun _ _ => mono
  · obtain ⟨hpos, hold, hmem⟩ := h.place hl
    exact ⟨hpos, Nat.lt_succ_of_lt hold, hmem⟩
  · rw [hscope] at hv
    obtain ⟨l, v', hl, hm, hr⟩ := h.contents hi hv
    exact ⟨l, v', hl, hm, mono hr⟩
  · rw [hscope]
    exact h.bound hb
  · rw [hscope] at hn
    exact h.known hn

/-- A scope declares a name, which gets a location of its own. -/
theorem declare (h : Agrees t w m st) {i : ScopeId} {name : String} (hpos : 0 < i)
    (hold : i < w.scopes) (hnew : w.place i name = none) :
    Agrees t (w.declare i name st.memory.size) m { st with memory := st.memory.push .nil } := by
  have hle : w.Le (w.declare i name st.memory.size) := (World.extends_declare _ hnew).toLe
  have mono : ∀ {v v'}, ValueRel t w v v' → ValueRel t (w.declare i name st.memory.size) v v' :=
    .mono (.refl t) hle
  have hplace : ∀ {j k l}, (w.declare i name st.memory.size).place j k = some l →
      (i = j ∧ name = k ∧ l = st.memory.size) ∨ (w.place j k = some l ∧ l < st.memory.size) := by
    intro j k l hl
    simp only [World.declare] at hl
    split at hl
    · rename_i hjk
      exact .inl ⟨hjk.1, hjk.2, (Option.some.inj hl).symm⟩
    · exact .inr ⟨hl, (h.place hl).2.2⟩
  refine { h with
    globals := h.globals.mono fun _ _ => mono
    fields := fun id => (h.fields id).mono fun _ _ => mono
    place := fun hl => ?_
    apart := fun hl hl' => ?_
    contents := fun hj hv => ?_ }
  · rcases hplace hl with ⟨rfl, -, rfl⟩ | ⟨hl, hlt⟩
    · simp only [Array.size_push]
      exact ⟨hpos, hold, Nat.lt_succ_self _⟩
    · obtain ⟨hj, hj', -⟩ := h.place hl
      simp only [Array.size_push]
      exact ⟨hj, hj', Nat.lt_succ_of_lt hlt⟩
  · rcases hplace hl with ⟨rfl, rfl, rfl⟩ | ⟨hl, hlt⟩ <;>
      rcases hplace hl' with ⟨rfl, rfl, he⟩ | ⟨hl', hlt'⟩
    · exact ⟨rfl, rfl⟩
    · exact absurd hlt' (Nat.lt_irrefl _)
    · exact absurd (he ▸ hlt) (Nat.lt_irrefl _)
    · exact h.apart hl hl'
  · obtain ⟨l, v', hl, hm, hr⟩ := h.contents hj hv
    refine ⟨l, v', hle.place hl, ?_, mono hr⟩
    rw [Array.getElem?_push, if_neg (Nat.ne_of_lt (h.place hl).2.2), hm]

section

variable {v : Value} {v' : Value Names} {name : String}

/-- A scope binds a name that it has declared, and the location of the name gets the value. -/
theorem settle_local (h : Agrees t w m st) {i : ScopeId} {l : Location}
    (hl : w.place i name = some l) (hv : ValueRel t (w.bind i name) v v') (hfits : Fits name v) :
    Agrees t (w.bind i name) { m with store := m.store.setIn i name v }
      { st with memory := st.memory.setIfInBounds l v' } := by
  obtain ⟨hpos, hold, hmem⟩ := h.place hl
  have hi : i < m.store.scopes.size := h.scopes ▸ hold
  have hglobal : (m.store.setIn i name v).scope 0 = m.store.scope 0 := by
    rw [Store.scope_setIn, if_neg fun he => Nat.ne_of_gt hpos he.1]
  have mono : ∀ {u u'}, ValueRel t w u u' → ValueRel t (w.bind i name) u u' :=
    .mono (.refl t) (World.extends_bind i name).toLe
  refine { h with
    scopes := by simp [World.bind, h.scopes]
    globals := ?_
    fields := fun id => (h.fields id).mono fun _ _ => mono
    place := fun hk => by simpa [World.bind] using h.place hk
    contents := fun {j n u} hj hu => ?_
    bound := fun {j n} hb => ?_
    known := fun hn => .inr (h.known (hglobal ▸ hn)) }
  · rw [hglobal]
    exact h.globals.mono fun _ _ => mono
  · rw [Store.get?_scope_setIn _ hi] at hu
    split at hu
    · rename_i hjn
      obtain ⟨rfl, rfl⟩ := hjn
      obtain rfl : v = u := Option.some.inj hu
      refine ⟨l, v', hl, ?_, hv⟩
      rw [Array.getElem?_setIfInBounds_self_of_lt hmem]
    · rename_i hjn
      obtain ⟨k, u', hk, hm, hr⟩ := h.contents hj hu
      have hne : l ≠ k := by
        rintro rfl
        exact hjn (h.apart hl hk)
      exact ⟨k, u', hk, by rw [Array.getElem?_setIfInBounds_ne hne, hm], mono hr⟩
  · rw [Store.get?_scope_setIn _ hi]
    split
    · rename_i hjn
      exact ⟨v, rfl, hjn.2 ▸ hfits⟩
    · rename_i hjn
      exact h.bound (hb.resolve_left hjn)

/-- The globals bind a name. -/
theorem settle_global (h : Agrees t w m st) (hv : ValueRel t (w.bind 0 name) v v')
    (hfits : Fits name v) :
    Agrees t (w.bind 0 name) { m with store := m.store.setIn 0 name v }
      { st with globals := st.globals.set name v' } := by
  have hi : 0 < m.store.scopes.size := h.scopes ▸ h.positive
  have mono : ∀ {u u'}, ValueRel t w u u' → ValueRel t (w.bind 0 name) u u' :=
    .mono (.refl t) (World.extends_bind 0 name).toLe
  have hglobal : (m.store.setIn 0 name v).scope 0 = (m.store.scope 0).set name v := by
    rw [Store.scope_setIn, if_pos ⟨rfl, hi⟩]
  refine { h with
    scopes := by simp [World.bind, h.scopes]
    globals := ?_
    fields := fun id => (h.fields id).mono fun _ _ => mono
    contents := fun {j n u} hj hu => ?_
    bound := fun {j n} hb => ?_
    known := fun {n} hn => ?_ }
  · rw [hglobal]
    exact (h.globals.mono fun _ _ => mono).set name hv
  · rw [Store.get?_scope_setIn _ hi, if_neg fun he => Nat.ne_of_gt hj he.1.symm] at hu
    obtain ⟨k, u', hk, hm, hr⟩ := h.contents hj hu
    exact ⟨k, u', hk, hm, mono hr⟩
  · rw [Store.get?_scope_setIn _ hi]
    split
    · rename_i hjn
      exact ⟨v, rfl, hjn.2 ▸ hfits⟩
    · rename_i hjn
      exact h.bound (hb.resolve_left hjn)
  · rw [hglobal, Bindings.binds_set] at hn
    by_cases hne : name = n
    · exact .inl ⟨rfl, hne⟩
    · exact .inr (h.known (by simpa [hne] using hn))

end

end Agrees

end Lexical

end Lox
