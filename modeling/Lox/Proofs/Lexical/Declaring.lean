import Lox.Proofs.Lexical.Agreement

/-!
Declarations on both sides. The machine binds a name in a scope when its value is known; the lexical
meaning allocates a location before, and gives it the value then. Each of the two moments is a step
from one `Current` place of the program to the next, and so is a new scope with all that it binds
from the start, as calls and classes make it (`declareEach_step`).
-/

namespace Lox

namespace Lexical

section

variable {t : Table} {w : World} {m : Machine} {st : State} {env : Environment} {names : Names}
  {v : Value} {v' : Value Names}

/-! ### Scopes -/

section

variable {scope : Bindings Bool} {scopes : List (Bindings Bool)} {i : ScopeId} {name : String}

/-- A new scope binds nothing. -/
theorem Current.enter (h : Agrees t w m st) (hf : InForce w scopes env names) :
    Current w.grow ([] :: scopes) (w.scopes :: env) names.enter := by
  refine ⟨hf.enter h.positive, ?_⟩
  intro n hn
  have hnone : w.grow.place w.scopes n = none := h.place_eq_none n
  simp [hnone] at hn

theorem Current.bind (hc : Current w (scope :: scopes) (i :: env) names)
    (hn : scope.binds name = true) :
    Current (w.bind i name) (scope.set name true :: scopes) (i :: env) names :=
  ⟨hc.inForce.bind hn, hc.tight.bind⟩

/-- The innermost scope declares a name. -/
theorem Agrees.declare_scope (h : Agrees t w m st)
    (hc : Current w (scope :: scopes) (i :: env) names) (hn : scope.binds name = false) :
    ∃ names' st' w', Lexical.declare names name st = .ok names' st'
      ∧ w.Extends (some i) w' ∧ Agrees t w' m st'
      ∧ Current w' (scope.set name false :: scopes) (i :: env) names' := by
  have hnew := hc.tight.place_eq_none hn
  obtain ⟨hf, ht⟩ := hc
  cases hf with
  | @scope _ _ _ _ _ places rest hpos hold find declared bound =>
    have hf : InForce w (scope :: scopes) (i :: env) (some places) :=
      .scope rest hpos hold find declared bound
    exact ⟨_, _, w.declare i name st.memory.size, rfl, World.extends_declare _ hnew,
      h.declare hpos hold hnew, hf.declare hnew _, ht.declare _⟩

/-- The innermost scope binds a name that it has declared. -/
theorem Agrees.settle_scope (h : Agrees t w m st)
    (hf : InForce w (scope :: scopes) (i :: env) names) (hn : scope.binds name = true)
    (hv : ValueRel t (w.bind i name) v v') (hfits : Fits name v) :
    ∃ st', Lexical.settle names name v' st = .ok () st'
      ∧ Agrees t (w.bind i name) { m with store := m.store.setIn i name v } st' := by
  have hd : (scope :: scopes).findIdx? (·.binds name) = some 0 := by
    simp [List.findIdx?_cons, hn]
  obtain ⟨j, l, hj, -, hl, hfind, -⟩ := hf.find?_eq_some hd
  obtain rfl : i = j := by simpa using hj
  refine ⟨{ st with memory := st.memory.setIfInBounds l v' }, ?_, h.settle_local hl hv hfits⟩
  unfold Lexical.settle
  rw [hfind]

end

/-! ### Declarations of a program -/

section

variable {site : Site} {name : Token}

theorem Site.bindsHere_cons {scope : Bindings Bool} {scopes : List (Bindings Bool)}
    (hs : site.scopes = scope :: scopes) : site.bindsHere name = scope.binds name.lexeme := by
  simp [Site.bindsHere, hs]

/-- A name is declared where a program may declare it. -/
theorem Agrees.declare_step (h : Agrees t w m st) (hc : Current w site.scopes env names)
    (ha : site.Admits name) :
    ∃ names' st' w', Lexical.declare names name.lexeme st = .ok names' st'
      ∧ w.Extends env.head? w' ∧ Agrees t w' m st'
      ∧ Current w' (site.bind name false).scopes env names' := by
  unfold Site.bind
  cases hs : site.scopes with
  | nil =>
    rw [hs] at hc
    obtain ⟨hf, ht⟩ := hc
    cases hf with
    | globals => exact ⟨none, st, w, rfl, .refl _ w, h, by rw [hs]; exact .globals, by
        rw [hs]; trivial⟩
  | cons scope scopes =>
    rw [hs] at hc
    have hn : scope.binds name.lexeme = false := Site.bindsHere_cons hs ▸ ha.2
    obtain ⟨hf, ht⟩ := hc
    cases hf with
    | @scope _ _ i outer _ places rest hpos hold find declared bound =>
      exact h.declare_scope ⟨.scope rest hpos hold find declared bound, ht⟩ hn

/-- After its declaration a name may be read once it is bound. -/
theorem Current.settle {flag : Bool} (hc : Current w (site.bind name flag).scopes env names) :
    Current (w.bind (env.headD 0) name.lexeme) (site.bind name true).scopes env names := by
  unfold Site.bind at hc ⊢
  cases hs : site.scopes with
  | nil =>
    simp only [hs] at hc ⊢
    exact ⟨hc.inForce.mono (World.extends_bind _ _).toLe, trivial⟩
  | cons scope scopes =>
    simp only [hs] at hc ⊢
    obtain ⟨hf, ht⟩ := hc
    cases hf with
    | @scope _ _ i outer _ places rest hpos hold find declared bound =>
      have hc : Current w (scope.set name.lexeme flag :: scopes) (i :: outer) (some places) :=
        ⟨.scope rest hpos hold find declared bound, ht⟩
      have hname : (scope.set name.lexeme flag).binds name.lexeme = true := by
        simp [Bindings.binds_set]
      have hbind := hc.bind hname
      rwa [Bindings.set_set] at hbind

/-- A name that has been declared is bound. -/
theorem Agrees.settle_step {flag : Bool} (h : Agrees t w m st)
    (hc : Current w (site.bind name flag).scopes env names) (hn : name.IsName)
    (hv : ValueRel t (w.bind (env.headD 0) name.lexeme) v v') :
    ∃ st', Lexical.settle names name.lexeme v' st = .ok () st'
      ∧ Agrees t (w.bind (env.headD 0) name.lexeme)
        { m with store := m.store.define env name.lexeme v } st' := by
  unfold Site.bind at hc
  have hf := hc.inForce
  cases hs : site.scopes with
  | nil =>
    simp only [hs] at hf
    cases hf with
    | globals => exact ⟨_, rfl, h.settle_global hv (.of_isName hn v)⟩
  | cons scope scopes =>
    simp only [hs] at hf
    cases hf with
    | @scope _ _ i outer _ places rest hpos hold find declared bound =>
      exact h.settle_scope (.scope rest hpos hold find declared bound)
        (by simp [Bindings.binds_set]) hv (.of_isName hn v)

end

/-! ### Scopes that bind something from the start -/

section

variable {base : Store} {frame : Bindings Value} {scopes : List (Bindings Bool)}

theorem setIn_push (base : Store) (frame : Bindings Value) (name : String) (v : Value) :
    (base.push frame).setIn base.scopes.size name v = base.push (frame.set name v) := by
  have : (base.scopes.push frame).modify base.scopes.size (·.set name v)
      = base.scopes.push (frame.set name v) := by
    apply Array.ext_getElem?
    intro i
    rw [Array.getElem?_modify, Array.getElem?_push, Array.getElem?_push]
    by_cases hi : base.scopes.size = i
    · simp [hi]
    · simp [hi, Ne.symm hi]
  simp [Store.push, Store.setIn, this]

/-- One more name is bound in a scope that has just been added. -/
theorem Agrees.entry_step {scope : Bindings Bool} {name : String}
    (h : Agrees t w { m with store := base.push frame } st)
    (hc : Current w (scope :: scopes) (base.scopes.size :: env) names)
    (hn : scope.binds name = false) (hv : ValueRel t w v v') (hfits : Fits name v) :
    ∃ names' st₁ st' w', Lexical.declare names name st = .ok names' st₁
      ∧ Lexical.settle names' name v' st₁ = .ok () st' ∧ w.Extends (some base.scopes.size) w'
      ∧ Agrees t w' { m with store := base.push (frame.set name v) } st'
      ∧ Current w' ((scope.set name true) :: scopes) (base.scopes.size :: env) names' := by
  obtain ⟨names', st₁, w₁, hdeclare, hext, h₁, hc₁⟩ := h.declare_scope hc hn
  have hbind : w₁.Extends none (w₁.bind base.scopes.size name) := World.extends_bind _ _
  have hv₁ : ValueRel t (w₁.bind base.scopes.size name) v v' :=
    hv.mono (.refl t) (hext.toLe.trans hbind.toLe)
  have hb : (scope.set name false).binds name = true := by simp [Bindings.binds_set]
  obtain ⟨st', hsettle, h'⟩ := h₁.settle_scope hc₁.inForce hb hv₁ hfits
  refine ⟨names', st₁, st', _, hdeclare, hsettle, hext.trans hbind.weaken, ?_, ?_⟩
  · rwa [setIn_push] at h'
  · have := hc₁.bind hb
    rwa [Bindings.set_set] at this

/-- A scope that binds one name is added. -/
theorem Agrees.enter_step {name : String} (h : Agrees t w m st) (hf : InForce w scopes env names)
    (hv : ValueRel t w v v') (hfits : Fits name v) :
    ∃ names' st' w', Lexical.declareEach names.enter [(name, v')] st = .ok names' st'
      ∧ w.Extends (some w.scopes) w'
      ∧ Agrees t w' { m with store := m.store.push [(name, v)] } st'
      ∧ Current w' ([(name, true)] :: scopes) (w.scopes :: env) names' := by
  have hgrow : w.Extends none w.grow := World.extends_grow w
  have hc := Current.enter h hf
  rw [h.scopes] at hc ⊢
  obtain ⟨names', st₁, st', w', hdeclare, hsettle, hext, h', hc'⟩ :=
    h.grow.entry_step hc rfl (hv.mono (.refl t) hgrow.toLe) hfits
  refine ⟨names', st', w', ?_, hgrow.weaken.trans hext, h', hc'⟩
  simp only [Lexical.declareEach, Bind.bind, EStateM.bind, pure, EStateM.pure, hdeclare, hsettle]

/-- Parameters are bound to their arguments in a scope that has just been added. -/
theorem Agrees.declareEach_step {args : List Value} {args' : List (Value Names)}
    {params : List Token} (hargs : List.Forall₂ (ValueRel t w) args args')
    (hlength : args.length = params.length) {scope : Bindings Bool} {site : Site}
    (hs : site.scopes = scope :: scopes) (hnames : ∀ p ∈ params, p.IsName)
    (hdistinct : (params.map Token.lexeme).Nodup)
    (hnew : ∀ p ∈ params, scope.binds p.lexeme = false)
    (h : Agrees t w { m with store := base.push frame } st)
    (hc : Current w (scope :: scopes) (base.scopes.size :: env) names) :
    ∃ names' st' w',
      Lexical.declareEach names ((params.map Token.lexeme).zip args') st = .ok names' st'
      ∧ w.Extends (some base.scopes.size) w'
      ∧ Agrees t w' { m with
          store := base.push ((params.zip args).foldl (fun b e => b.set e.1.lexeme e.2) frame) } st'
      ∧ Current w' (site.declareEach params).1.scopes (base.scopes.size :: env) names' := by
  induction args generalizing args' params scope site frame w st names with
  | nil =>
    cases hargs
    obtain rfl : params = [] := by simpa using hlength.symm
    exact ⟨names, st, w, rfl, .refl _ w, h, by simpa [Site.declareEach, hs] using hc⟩
  | cons v args ih =>
    obtain ⟨v', rest', hv, hrest, rfl⟩ := List.forall₂_cons_left_iff.1 hargs
    obtain ⟨p, params, rfl⟩ := List.exists_cons_of_length_eq_add_one hlength.symm
    have hp : p.IsName := hnames p List.mem_cons_self
    have hnp : scope.binds p.lexeme = false := hnew p List.mem_cons_self
    obtain ⟨names₁, st₀, st₁, w₁, hdeclare, hsettle, hext, h₁, hc₁⟩ :=
      h.entry_step hc hnp hv (.of_isName hp v)
    rw [List.map_cons, List.nodup_cons] at hdistinct
    have ha : site.Admits p := ⟨hp, by rw [Site.bindsHere_cons hs, hnp]⟩
    have hs₁ : (site.bind p true).scopes = scope.set p.lexeme true :: scopes := by
      simp [Site.bind, hs]
    have hnew₁ : ∀ q ∈ params, (scope.set p.lexeme true).binds q.lexeme = false := by
      intro q hq
      have hne : p.lexeme ≠ q.lexeme := fun he => hdistinct.1 (he ▸ List.mem_map_of_mem hq)
      rw [Bindings.binds_set]
      simp [hne, hnew q (List.mem_cons_of_mem _ hq)]
    obtain ⟨names', st', w', heach, hext', h', hc'⟩ :=
      ih (hrest.imp fun _ _ hr => hr.mono (.refl t) hext.toLe) (by simpa using hlength) hs₁
        (fun q hq => hnames q (List.mem_cons_of_mem _ hq)) hdistinct.2 hnew₁ h₁ hc₁
    refine ⟨names', st', w', ?_, hext.trans hext', by simpa using h', ?_⟩
    · simp only [List.map_cons, List.zip_cons_cons, Lexical.declareEach, Bind.bind, EStateM.bind,
        hdeclare, hsettle, heach]
    · simpa [Site.declareEach, Site.declareReadable_of_admits ha] using hc'

end

end

end Lexical

end Lox
