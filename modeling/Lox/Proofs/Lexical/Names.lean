import Lox.Proofs.Lexical.Simulation

/-!
Occurrences of names. A name with a distance is found there by the machine, and by the lexical meaning
at its location (`lookUp_local`); a name without one is looked for in the globals on both sides, and
the only fault that this can lead to is raised where the globals do not bind it.
-/

namespace Lox

/-- The globals are the only scope of their environment. -/
theorem Store.owner_globals (st : Store) (name : String) :
    st.owner .globals name =
      if (st.scope 0).binds name then .ok 0 else .error (.undefinedVariable name) := by
  by_cases h : (st.scope 0).binds name = true <;> simp [owner, owner?, Environment.globals, h]

theorem Store.get_globals (st : Store) (name : String) :
    st.get .globals name = ((st.scope 0).get? name).elim (.error (.undefinedVariable name)) .ok := by
  unfold get
  rw [owner_globals]
  cases h : (st.scope 0).get? name <;>
    simp [Bindings.binds, h, getIn, Bind.bind, Except.bind]

namespace Lexical

/-- The watched condition held when the expression was about to be evaluated, in a machine whose
globals bind no more than those of the world. -/
def Checked (k : Watch) (t : Table) (w : World) (e : Expr) : Prop :=
  ∃ m : Machine, m.distances = t.distances ∧ (∀ n, (m.store.scope 0).binds n = true → w.bound 0 n)
    ∧ k.holds m e = true

section

variable {k : Watch} {t : Table} {w w' : World} {m : Machine} {st : State} {env env' : Environment}
  {scopes : List (Bindings Bool)} {names : Names} {inside : Option ScopeId}

theorem Checked.mono {e : Expr} (hw : w.Le w') (h : Checked k t w e) : Checked k t w' e :=
  let ⟨m, hd, hb, hk⟩ := h
  ⟨m, hd, fun n hn => hw.bound (hb n hn), hk⟩

/-- A fault of a name without a distance is raised where the globals do not bind it, and did not when
the condition was checked. -/
theorem Agrees.blames {e : Expr} {id : Nat} {name : Token} {excused : Prop} (h : Agrees t w m st)
    (hc : Checked k t w e) (he : e = .var id name ∨ ∃ value, e = .assign id name value)
    (hg : t.distances[id]? = none) (hn : name.IsName)
    (hb : (m.store.scope 0).binds name.lexeme = false) :
    k.Blames excused (m.store.scope 0) (.fault name.line (.undefinedVariable name.lexeme)) := by
  obtain ⟨m₀, hd, hbound, hk⟩ := hc
  have hb₀ : (m₀.store.scope 0).binds name.lexeme = false := by
    by_contra hne
    obtain ⟨v, hv, -⟩ := h.bound (hbound name.lexeme (by simpa using hne))
    simp [Bindings.binds, hv] at hb
  refine ⟨hn.1, hn.2, hb, .inr ⟨m₀, e, ?_, hk⟩⟩
  rcases he with rfl | ⟨value, rfl⟩ <;> simp [Machine.misses, hd, hg, hb₀]

/-! ### Reading -/

/-- A local name is bound at its distance to what its location holds. -/
theorem Agrees.read_local (h : Agrees t w m st) (hf : InForce w scopes env names) {n : String}
    {d : Nat} (hd : scopes.findIdx? (·.binds n) = some d)
    (hr : scopes.findSome? (·.get? n) ≠ some false) (line : Nat) :
    ∃ v v', env[d]?.bind (fun i => (m.store.scope i).get? n) = some v
      ∧ Lexical.read names n line st = .ok v' st ∧ ValueRel t w v v' ∧ Fits n v := by
  obtain ⟨i, l, hi, hpos, hl, hfind, hbound⟩ := hf.find?_eq_some hd
  obtain ⟨v, hv, hfits⟩ := h.bound (hbound hr)
  obtain ⟨l', v', hl', hm, hrel⟩ := h.contents hpos hv
  obtain rfl : l = l' := Option.some.inj (hl.symm.trans hl')
  refine ⟨v, v', by simp [hi, hv], ?_, hrel, hfits⟩
  simp [Lexical.read, hfind, hm]

namespace Simulates

theorem getAt {n : String} {d : Nat} {line : Nat} (hf : InForce w scopes env' names)
    (hd : scopes.findIdx? (·.binds n) = some d)
    (hr : scopes.findSome? (·.get? n) ≠ some false) :
    Simulates k t env inside w (Run.getAt env' d n line) (Run.getAt env' d n line)
      (Lexical.read names n line) fun w' v v' => ValueRel t w' v v' ∧ Fits n v := by
  refine of_ok fun m st ha he => ?_
  obtain ⟨v, v', hv, hread, hrel, hfits⟩ := ha.read_local hf hd hr line
  refine ⟨v, m, v', st, w, ?_, hread, .refl inside w, ha, he, hrel, hfits⟩
  simp only [Run.getAt, Store.getAt_eq_ok hv]
  rfl

variable {site : Site} {id : Nat} {name : Token}

theorem lookUp_local {d : Nat} (hg : t.Gives id (some d))
    (hd : site.distanceOf? name.lexeme = some d) (hr : site.MayRead name.lexeme)
    (hf : InForce w site.scopes env names) :
    Simulates k t env inside w (Run.lookUp id name) (Run.lookUp id name)
      (Lexical.read names name.lexeme name.line) (ValueRel t) := by
  refine of_ok fun m st ha he => ?_
  obtain ⟨v, v', hv, hread, hrel, -⟩ := ha.read_local hf hd hr name.line
  refine ⟨v, m, v', st, w, ?_, hread, .refl inside w, ha, he, hrel⟩
  simp only [Run.lookUp, Machine.lookUp, ha.distances, hg.2, he, Store.getAt_eq_ok hv]
  rfl

theorem lookUp_global (hg : t.Gives id none) (hd : site.distanceOf? name.lexeme = none)
    (hn : name.IsName) (hf : InForce w site.scopes env names)
    (hc : Checked k t w (.var id name)) :
    Simulates k t env inside w (Run.lookUp id name) (Run.lookUp id name)
      (Lexical.read names name.lexeme name.line) (ValueRel t) := by
  intro m st ha he
  simp only [Run.lookUp, Machine.lookUp, ha.distances, hg.2, Store.get_globals, Lexical.read,
    hf.find?_eq_none hd]
  rcases eq_none_or_eq_some_of_rel (ha.globals.get? name.lexeme) with ⟨hv, hv'⟩ | ⟨v, v', hv, hv', hr⟩
  · rw [hv, hv']
    have hb : (m.store.scope 0).binds name.lexeme = false := by simp [Bindings.binds, hv]
    exact .error (.inl rfl) ha he (ha.blames hc (.inl rfl) hg.2 hn hb)
  · rw [hv, hv']
    exact .ok (.inl rfl) (.refl inside w) ha he hr

/-- A name is read. -/
theorem lookUp (hg : t.Gives id (site.distanceOf? name.lexeme)) (hr : site.MayRead name.lexeme)
    (hn : name.IsName) (hf : InForce w site.scopes env names)
    (hc : Checked k t w (.var id name)) :
    Simulates k t env inside w (Run.lookUp id name) (Run.lookUp id name)
      (Lexical.read names name.lexeme name.line) (ValueRel t) := by
  cases hd : site.distanceOf? name.lexeme with
  | none => exact lookUp_global (hd ▸ hg) hd hn hf hc
  | some d => exact lookUp_local (hd ▸ hg) hd hr hf

/-! ### Assigning -/

variable {v : Value} {v' : Value Names}

theorem assign_local {d : Nat} (hg : t.Gives id (some d))
    (hd : site.distanceOf? name.lexeme = some d) (hn : name.IsName)
    (hf : InForce w site.scopes env names) (hv : ValueRel t w v v') :
    Simulates k t env none w (Run.assign id name v) (Run.assign id name v)
      (Lexical.write names name v') fun _ _ _ => True := by
  refine of_ok fun m st ha he => ?_
  obtain ⟨i, l, hi, -, hl, hfind, -⟩ := hf.find?_eq_some hd
  have hext : w.Extends none (w.bind i name.lexeme) := World.extends_bind _ _
  refine ⟨(), { m with store := m.store.setIn i name.lexeme v }, (),
    { st with memory := st.memory.setIfInBounds l v' }, w.bind i name.lexeme, ?_, ?_, hext,
    ha.settle_local hl (hv.mono (.refl t) hext.toLe) (.of_isName hn v), he, trivial⟩
  · simp [Run.assign, Machine.assignee, ha.distances, hg.2, he, Environment.scopeAt, hi]
  · simp [Lexical.write, hfind]

theorem assign_global {value : Expr} (hg : t.Gives id none)
    (hd : site.distanceOf? name.lexeme = none) (hn : name.IsName)
    (hf : InForce w site.scopes env names) (hv : ValueRel t w v v')
    (hc : Checked k t w (.assign id name value)) :
    Simulates k t env none w (Run.assign id name v) (Run.assign id name v)
      (Lexical.write names name v') fun _ _ _ => True := by
  intro m st ha he
  have hext : w.Extends none (w.bind 0 name.lexeme) := World.extends_bind _ _
  have hid : m.distances[id]? = none := ha.distances ▸ hg.2
  simp only [Run.assign, Machine.assignee, hid, Store.owner_globals, Lexical.write,
    hf.find?_eq_none hd, ← ha.globals.binds]
  by_cases hb : (m.store.scope 0).binds name.lexeme = true
  · rw [if_pos hb, if_pos hb]
    exact .ok (.inl rfl) hext
      (ha.settle_global (hv.mono (.refl t) hext.toLe) (.of_isName hn v)) he trivial
  · rw [if_neg hb, if_neg hb]
    exact .error (.inl rfl) ha he
      (ha.blames hc (.inr ⟨value, rfl⟩) hg.2 hn (by simpa using hb))

/-- A name is given a new value. -/
theorem assign {value : Expr} (hg : t.Gives id (site.distanceOf? name.lexeme)) (hn : name.IsName)
    (hf : InForce w site.scopes env names) (hv : ValueRel t w v v')
    (hc : Checked k t w (.assign id name value)) :
    Simulates k t env none w (Run.assign id name v) (Run.assign id name v)
      (Lexical.write names name v') fun _ _ _ => True := by
  cases hd : site.distanceOf? name.lexeme with
  | none => exact assign_global (hd ▸ hg) hd hn hf hv hc
  | some d => exact assign_local (hd ▸ hg) hd hn hf hv

end Simulates

end

end Lexical

end Lox
