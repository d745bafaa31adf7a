import Lox.Proofs.Scopes.Calls

/-!
Expressions match if those in them do (`Evaluates.evaluateBy`). What an expression can rely on is its
`Fit` with the place where it is evaluated; where the evaluator may insert a name by assigning to it,
in the initializer of that very name, the name is one of the additions.
-/

namespace Lox

namespace Scopes

section

variable (ordered : Prop) (t : Table)

/-- What an expression can rely on. The targets of its assignments are bound, unless order does not
matter and it stands in the initializer of such a target, which may be new there; if order is minded,
the scopes around it bind no name that occurs in it unless the resolver has seen it. -/
structure Fit (own : Option String) (w : World) (site : Site) (env : Environment) (new : Additions)
    (e : Expr) : Prop where
  linked : e.Linked t site
  chain : Chain w site.scopes env
  targets : ∀ n ∈ e.assigned, site.MayRead n
    ∨ (¬ ordered ∧ ∀ i, env[0]? = some i → new i n)
      ∧ own = some n ∧ site.distanceOf? n = some 0
  order : ordered → new = nothing ∧ Known w.Binds (Minded e.mentions) site.scopes env

/-- Linked expressions match. -/
def Evaluates (evaluated : Option String → Expr → Run Value) (evaluate : Expr → Run Value) : Prop :=
  ∀ {own : Option String} {site : Site} {env : Environment} {w : World} {new : Additions} {e : Expr},
    Fit ordered t own w site env new e →
    Matches ordered t new env w (evaluated own e) (evaluate e)
      fun w' v => Conforming ordered t w' v v

end

section

variable {ordered : Prop} {t : Table} {w w' : World} {env : Environment} {site : Site}
  {new : Additions} {V : Variants} {own : Option String} {e : Expr} {declared later : List String}
  {minded : String → Prop}

theorem Fit.sub (h : Fit ordered t own w site env new e) {e' : Expr} (hl : e'.Linked t site)
    (ha : e'.assigned ⊆ e.assigned) (hm : e'.mentions ⊆ e.mentions) :
    Fit ordered t own w site env new e' where
  linked := hl
  chain := h.chain
  targets n hn := h.targets n (ha hn)
  order ho := ⟨(h.order ho).1, (h.order ho).2.imp (fun _ hn => hn.mono hm) fun _ _ => id⟩

theorem Fit.extend (h : Fit ordered t own w site env new e) (hw : w.Extends new w') :
    Fit ordered t own w' site env new e where
  linked := h.linked
  chain := h.chain.extend hw
  targets := h.targets
  order ho := by
    obtain ⟨hnew, hknown⟩ := h.order ho
    exact ⟨hnew, hknown.binds h.chain (hnew ▸ hw)⟩

/-! ### Steps that a variant may carry out in another way -/

/-- A run that is the same in all machines that conform. -/
theorem Matches.varied {α : Type} {varied run : Run α} {post : World → α → Prop}
    (h : Matches ordered t new env w run run post)
    (hsame : ∀ m, Conforms ordered t w m → m.environment = env → varied m = run m) :
    Matches ordered t new env w varied run post :=
  fun m hm he => ⟨hsame m hm he, (h m hm he).2⟩

/-- A name is read. -/
theorem Matches.lookUp_varied (hV : Faithful ordered V) (h : Fit ordered t own w site env new e)
    {id : Nat} {name : Token} (hg : t.Gives id (site.distanceOf? name.lexeme))
    (hr : site.MayRead name.lexeme) (hm : Minded e.mentions name.lexeme) :
    Matches ordered t new env w ((V own).lookUp id name) (Run.lookUp id name)
      fun w' v => Conforming ordered t w' v v := by
  refine (Matches.lookUp id name).varied fun m hconforms he => ?_
  subst he
  exact hV.lookUp hconforms h.chain hg hr fun ho => (h.order ho).2.only hm

/-- An assignment finds a scope, which binds the name if it may be read and is the innermost one if the
distance says so, or the name is none of the globals. -/
theorem Conforms.assignee_cases {m : Machine} (hm : Conforms ordered t w m)
    (hc : Chain w site.scopes m.environment) {id : Nat} {name : String}
    (hg : t.Gives id (site.distanceOf? name)) :
    (∃ i, m.assignee id name = .ok i ∧ i < w.scopes ∧ (site.MayRead name → w.Binds i name)
        ∧ (site.distanceOf? name = some 0 → m.environment[0]? = some i))
      ∨ m.assignee id name = .error (.undefinedVariable name) := by
  unfold Machine.assignee
  rw [hm.distances, hg.2]
  cases hd : site.distanceOf? name with
  | none =>
    by_cases hb : (m.store.scope 0).binds name = true
    · refine .inl ⟨0, ?_, hm.positive, fun _ => hm.binds_iff.2 hb, nofun⟩
      simp [Store.owner, Store.owner?, Environment.globals, hb]
    · refine .inr ?_
      simp [Store.owner, Store.owner?, Environment.globals, hb]
  | some d =>
    obtain ⟨i, hi, -, hold, hread⟩ := hc.binds_of_distance hd
    refine .inl ⟨i, ?_, hold, hread, fun h => Option.some.inj h ▸ hi⟩
    simp [Environment.scopeAt, hi]

/-- A name is bound anew in the scope where it is bound, or where it may be new. -/
theorem Matches.assign {id : Nat} {name : Token} (hg : t.Gives id (site.distanceOf? name.lexeme))
    (hc : Chain w site.scopes env)
    (htarget : site.MayRead name.lexeme ∨ (¬ ordered ∧ ∀ i, env[0]? = some i → new i name.lexeme)
      ∧ own = some name.lexeme ∧ site.distanceOf? name.lexeme = some 0)
    {v : Value} (hv : Conforming ordered t w v v) :
    Matches ordered t new env w (Run.assign id name v) (Run.assign id name v) fun _ _ => True := by
  intro m hm he
  subst he
  refine ⟨rfl, ?_⟩
  unfold Run.assign
  rcases hm.assignee_cases hc hg with ⟨i, ha, hi, hread, hinnermost⟩ | ha
  · rw [ha]
    have hbinds : w.Binds i name.lexeme ∨ ¬ ordered ∧ new i name.lexeme :=
      htarget.imp hread fun h => ⟨h.1.1, h.1.2 i (hinnermost h.2.2)⟩
    have hnew := hbinds.imp_right And.right
    have hext : w.Extends new (w.bind i name.lexeme) := World.extends_bind hnew
    have hset := hm.set hi (fun ho hpos => hm.allowed ho i hpos hi _
      (hbinds.resolve_right fun h => h.1 ho)) hnew (hv.mono (.refl t) hext)
    exact ⟨_, hext, hset, rfl, fun _ _ _ => trivial⟩
  · rw [ha]
    exact ⟨w, .refl new w, hm, rfl, nofun⟩

/-! ### Expressions -/

variable {evaluated : Option String → Expr → Run Value} {evaluate : Expr → Run Value}
  {executed execute : Stmt → Run Completion}

/-- An expression matches if those in it do. -/
theorem Evaluates.evaluateBy (hV : Faithful ordered V) (hv : Evaluates ordered t evaluated evaluate)
    (hx : Executes ordered t executed execute) (h : Fit ordered t own w site env new e) :
    Matches ordered t new env w ((V own).evaluateBy (evaluated own) executed e)
      (e.evaluateBy evaluate execute)
      fun w' v => Conforming ordered t w' v v := by
  have hl := h.linked
  cases e with
  | literal id value => exact .pure (.ofLiteral value)
  | grouping id inner => exact hv (h.sub hl (List.Subset.refl _) (List.Subset.refl _))
  | unary id operator right =>
    have hright : right.Linked t site := hl
    refine (hv (h.sub hright (List.Subset.refl _) (List.Subset.refl _))).bind
      fun w₁ v _ hconforming => .ofExcept operator.line fun u hu => ?_
    have hresult := hconforming.unary operator
    rw [hu] at hresult
    exact hresult
  | binary id left operator right =>
    refine (hv (h.sub hl.1 (List.subset_append_left _ _) (List.subset_append_left _ _))).bind
      fun w₁ a hext₁ ha => ?_
    refine (hv ((h.extend hext₁).sub hl.2 (List.subset_append_right _ _)
      (List.subset_append_right _ _))).bind fun w₂ b hext₂ hb => .ofExcept operator.line fun u hu => ?_
    have hresult := (ha.mono (.refl t) hext₂).binary operator hb
    rw [hu] at hresult
    exact hresult
  | logical id left operator right =>
    refine (hv (h.sub hl.1 (List.subset_append_left _ _) (List.subset_append_left _ _))).bind
      fun w₁ a hext₁ ha => ?_
    split
    · exact .pure ha
    · exact hv ((h.extend hext₁).sub hl.2 (List.subset_append_right _ _)
        (List.subset_append_right _ _))
  | var id name => exact .lookUp_varied hV h hl.2.1 hl.2.2 (.inl List.mem_cons_self)
  | this id keyword =>
    obtain ⟨hk, hr, d, hg, hd⟩ := hl
    rw [← hk] at hr hd
    exact .lookUp_varied hV h (hd ▸ hg) hr (.inr (.inl hk))
  | assign id name value =>
    have hvalue : Fit ordered t own w site env new value :=
      h.sub hl.2.1 (List.subset_cons_self _ _) (List.subset_cons_self _ _)
    refine (hv hvalue).bind fun w₁ v hext₁ hconforming => ?_
    have h₁ := h.extend hext₁
    have htarget := h₁.targets name.lexeme List.mem_cons_self
    refine ((Matches.assign hl.2.2 h₁.chain htarget hconforming).varied fun m hm he => ?_).bind
      fun w₂ _ hext₂ _ => .pure (hconforming.mono (.refl t) hext₂)
    subst he
    refine hV.assign hm h₁.chain hl.2.2 (htarget.imp_right And.right)
      (fun ho => ⟨?_, (h₁.order ho).2.only ?_⟩) v
    · exact htarget.resolve_right fun hnot => hnot.1.1 ho
    · exact .inl List.mem_cons_self
  | call id callee paren arguments =>
    refine (hv (h.sub hl.1 (List.subset_append_left _ _) (List.subset_append_left _ _))).bind
      fun w₁ v hext₁ hconforming => ?_
    have h₁ := h.extend hext₁
    refine (Matches.mapM (fun hw hr => hr.mono (.refl t) hw) arguments fun a ha w' hw =>
      hv ((h₁.extend hw).sub (hl.2.of_mem ha)
        (List.subset_append_of_subset_right _ (Expr.assigned_subset ha))
        (List.subset_append_of_subset_right _ (Expr.mentions_subset ha)))).bind fun w₂ args hext₂ hargs => ?_
    have hcall : Matches ordered t nothing env w₂
        (v.call (fun body => (V own).body (executeEach executed body)) args paren.line)
        (v.call (executeEach execute) args paren.line) fun w' v => Conforming ordered t w' v v :=
      .call (hx.bodies hV own) (hconforming.mono (.refl t) hext₂) hargs paren.line
    exact (hcall.guarded none (fun _ => hV.call) fun _ _ _ hnew => hnew).weaken
  | get id object name =>
    have hobject : object.Linked t site := hl
    exact (hv (h.sub hobject (List.Subset.refl _) (List.Subset.refl _))).bind
      fun _ _ _ hconforming => .property hconforming name
  | set id object name value =>
    refine (hv (h.sub hl.1 (List.subset_append_left _ _) (List.subset_append_left _ _))).bind
      fun w₁ v hext₁ hconforming => ?_
    cases v with
    | object place c =>
      refine (hv ((h.extend hext₁).sub hl.2 (List.subset_append_right _ _)
        (List.subset_append_right _ _))).bind fun w₂ u hext₂ hu => ?_
      refine (Matches.setField place name.lexeme hu).bind fun w₃ _ hext₃ _ => ?_
      exact .pure (hu.mono (.refl t) hext₃)
    | _ => exact .fail name.line _
  | super id keyword method =>
    refine (Matches.superMethod id keyword method).varied fun m hm he => ?_
    subst he
    exact hV.superMethod hm h.chain hl fun ho => (h.order ho).2

end

end Scopes

end Lox
