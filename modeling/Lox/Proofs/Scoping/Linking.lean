import Lox.Proofs.Scoping.Keys

/-!
Programs without static faults are linked: if a table records what is found in a program, then every
occurrence of a name in it has the distance that the scopes around it ask for, and all that
`Expr.Linked` and `Stmt.Linked` say beside that holds (`Stmt.linkedEach_of_recorded`).
-/

namespace Lox

namespace Site

/-- What is true of the scopes around every expression: only names of the innermost scope may be
unreadable, and in a class the scopes of `this` and `super` are there. -/
structure Sound (site : Site) : Prop where
  outer : ∀ scope ∈ site.scopes.tail, ∀ n, scope.get? n ≠ some false
  keywords : ∀ scope ∈ site.scopes,
    scope.get? "this" ≠ some false ∧ scope.get? "super" ≠ some false
  base : site.classBody = some .base → ∃ d, site.distanceOf? "this" = some d
  derived : site.classBody = some .derived →
    ∃ d, site.distanceOf? "this" = some d ∧ site.distanceOf? "super" = some (d + 1)

/-- What is true of the scopes around every statement: all their names may be read. -/
structure Settled (site : Site) : Prop extends Sound site where
  all : ∀ scope ∈ site.scopes, ∀ n, scope.get? n ≠ some false

variable {site : Site} {name : Token} {scope : Bindings Bool} {n : String}

theorem findSome?_ne_some_false {scopes : List (Bindings Bool)}
    (h : ∀ scope ∈ scopes, scope.get? n ≠ some false) :
    scopes.findSome? (·.get? n) ≠ some false := by
  intro hn
  obtain ⟨scope, hmem, hget⟩ := List.exists_of_findSome?_eq_some hn
  exact h scope hmem hget

theorem Sound.mayRead_keyword (h : site.Sound) : site.MayRead "this" ∧ site.MayRead "super" :=
  ⟨findSome?_ne_some_false fun scope hs => (h.keywords scope hs).1,
    findSome?_ne_some_false fun scope hs => (h.keywords scope hs).2⟩

/-- A name that is not found to be unreadable may be read. -/
theorem Sound.mayRead (h : site.Sound) (hn : site.isUnreadable name = false) :
    site.MayRead name.lexeme := by
  refine findSome?_ne_some_false fun scope hs => ?_
  cases hscopes : site.scopes with
  | nil => simp [hscopes] at hs
  | cons head tail =>
    rw [hscopes] at hs
    rcases List.mem_cons.1 hs with rfl | hs
    · simpa [isUnreadable, hscopes] using hn
    · exact h.outer scope (by rwa [hscopes]) name.lexeme

/-! ### Scopes that are entered -/

theorem distanceOf?_enter (site : Site) (scope : Bindings Bool) (n : String) :
    (site.enter scope).distanceOf? n
      = if scope.binds n then some 0 else (site.distanceOf? n).map (· + 1) := by
  simp [distanceOf?, enter, List.findIdx?_cons]

/-- A scope that binds neither `this` nor `super`. -/
theorem Settled.enter (h : site.Settled) : (site.enter []).Settled where
  outer := h.all
  keywords := by
    intro scope hs
    rcases List.mem_cons.1 hs with rfl | hs
    · simp
    · exact h.keywords scope hs
  base := by
    intro hc
    obtain ⟨d, hd⟩ := h.base hc
    exact ⟨d + 1, by simp [distanceOf?_enter, Bindings.binds, hd]⟩
  derived := by
    intro hc
    obtain ⟨d, hd, hd'⟩ := h.derived hc
    exact ⟨d + 1, by simp [distanceOf?_enter, Bindings.binds, hd],
      by simp [distanceOf?_enter, Bindings.binds, hd']⟩
  all := by
    intro scope hs n
    rcases List.mem_cons.1 hs with rfl | hs
    · simp
    · exact h.all scope hs n

/-- A function body in the same scopes. -/
theorem Settled.withBody (h : site.Settled) (body : Option BodyKind) :
    { site with body := body }.Settled :=
  ⟨⟨h.outer, h.keywords, h.base, h.derived⟩, h.all⟩

theorem thisScope_get? (n : String) : thisScope.get? n ≠ some false := by
  rw [thisScope, Bindings.get?_cons]
  split <;> simp

theorem superScope_get? (n : String) : superScope.get? n ≠ some false := by
  rw [superScope, Bindings.get?_cons]
  split <;> simp

/-- The scopes around the methods of a class without a superclass. -/
theorem Settled.base_methods (h : site.Settled) :
    ({ site with classBody := some .base }.enter thisScope).Settled := by
  have hall : ∀ scope ∈ ({ site with classBody := some .base }.enter thisScope).scopes,
      ∀ n, scope.get? n ≠ some false := by
    intro scope hs n
    rcases List.mem_cons.1 hs with rfl | hs
    · exact thisScope_get? n
    · exact h.all scope hs n
  refine ⟨⟨h.all, fun scope hs => ⟨hall scope hs _, hall scope hs _⟩, fun _ => ⟨0, ?_⟩,
    fun hc => ?_⟩, hall⟩
  · simp [distanceOf?_enter, thisScope, Bindings.binds, Bindings.get?_cons]
  · simp [Site.enter] at hc

/-- The scopes around the methods of a class with a superclass. -/
theorem Settled.derived_methods (h : site.Settled) :
    (({ site with classBody := some .derived }.enter superScope).enter thisScope).Settled := by
  have hall : ∀ scope ∈ (({ site with classBody := some .derived }.enter superScope).enter
      thisScope).scopes, ∀ n, scope.get? n ≠ some false := by
    intro scope hs n
    rcases List.mem_cons.1 hs with rfl | hs
    · exact thisScope_get? n
    rcases List.mem_cons.1 hs with rfl | hs
    · exact superScope_get? n
    · exact h.all scope hs n
  refine ⟨⟨fun scope hs => hall scope (List.mem_cons_of_mem _ hs),
    fun scope hs => ⟨hall scope hs _, hall scope hs _⟩, fun hc => ?_, fun _ => ⟨0, ?_, ?_⟩⟩, hall⟩
  · simp [Site.enter] at hc
  · simp [distanceOf?_enter, thisScope, Bindings.binds, Bindings.get?_cons]
  · simp [distanceOf?_enter, thisScope, superScope, Bindings.binds, Bindings.get?_cons]

/-! ### Names that are declared -/

theorem distanceOf?_bind (hn : name.lexeme ≠ n) (r : Bool) :
    (site.bind name r).distanceOf? n = site.distanceOf? n := by
  unfold distanceOf? bind
  cases hs : site.scopes with
  | nil => simp [hs]
  | cons scope outer => simp [List.findIdx?_cons, Bindings.binds_set, hn]

theorem bind_body (site : Site) (name : Token) (r : Bool) :
    (site.bind name r).body = site.body := by
  unfold bind
  split <;> rfl

theorem bind_classBody (site : Site) (name : Token) (r : Bool) :
    (site.bind name r).classBody = site.classBody := by
  unfold bind
  split <;> rfl

/-- A name that is declared is no keyword, so that nothing is lost. -/
theorem Settled.bind_sound (h : site.Settled) (hn : name.IsName) (r : Bool) :
    (site.bind name r).Sound := by
  refine ⟨?_, ?_, ?_, ?_⟩
  · unfold bind
    cases hs : site.scopes with
    | nil => simp [hs]
    | cons scope outer => exact fun s hmem => h.all s (hs ▸ List.mem_cons_of_mem scope hmem)
  · unfold bind
    cases hs : site.scopes with
    | nil => simp [hs]
    | cons scope outer =>
      intro s hmem
      rcases List.mem_cons.1 hmem with rfl | hmem
      · rw [Bindings.get?_set, Bindings.get?_set, if_neg hn.1, if_neg hn.2]
        exact h.keywords scope (by simp [hs])
      · exact h.keywords s (by simp [hs, hmem])
  · intro hc
    rw [bind_classBody] at hc
    obtain ⟨d, hd⟩ := h.base hc
    exact ⟨d, by rw [distanceOf?_bind hn.1, hd]⟩
  · intro hc
    rw [bind_classBody] at hc
    obtain ⟨d, hd, hd'⟩ := h.derived hc
    exact ⟨d, by rw [distanceOf?_bind hn.1, hd], by rw [distanceOf?_bind hn.2, hd']⟩

theorem Settled.bind (h : site.Settled) (hn : name.IsName) : (site.bind name true).Settled := by
  refine ⟨h.bind_sound hn true, ?_⟩
  unfold Site.bind
  cases hs : site.scopes with
  | nil => simp [hs]
  | cons scope outer =>
    intro s hmem n
    rcases List.mem_cons.1 hmem with rfl | hmem
    · rw [Bindings.get?_set]
      split
      · simp
      · exact h.all scope (by simp [hs]) n
    · exact h.all s (by simp [hs, hmem]) n

/-- A name whose declaration is no fault is not bound in the scope. -/
theorem bindsHere_of_faults (h : (site.declare name).2.faults = []) :
    site.bindsHere name = false := by
  cases hb : site.bindsHere name with
  | false => rfl
  | true => simp [declare, hb, Findings.fault] at h

/-- Such a name may be declared. -/
theorem admits_of_faults (hn : name.IsName) (h : (site.declare name).2.faults = []) :
    site.Admits name :=
  ⟨hn, bindsHere_of_faults h⟩

end Site

/-! ### Expressions -/

section

variable {t : Table} {site : Site}

theorem Findings.eq_false_of_faultIf {condition : Bool} {token : Token} {cause : StaticFault}
    (h : (Findings.faultIf condition token cause).faults = []) : condition = false := by
  cases condition
  · rfl
  · simp [Findings.faultIf, Findings.fault] at h

mutual

/-- An expression without static faults is linked. -/
theorem Expr.linked_of_recorded (hs : site.Sound) : ∀ {e : Expr}, e.Proper →
    Recorded t e.ids (e.findings site) → e.Linked t site
  | .literal _ _, _, _ => trivial
  | .unary _ _ right, hp, h => by
    rw [Expr.Linked]
    exact Expr.linked_of_recorded hs hp h.cons
  | .grouping _ inner, hp, h => by
    rw [Expr.Linked]
    exact Expr.linked_of_recorded hs hp h.cons
  | .get _ object _, hp, h => by
    rw [Expr.Linked]
    exact Expr.linked_of_recorded hs hp h.cons
  | .binary _ left _ right, hp, h | .logical _ left _ right, hp, h => by
    rw [Expr.Linked]
    obtain ⟨hl, hr⟩ := h.cons.append (left.findings_within site) (right.findings_within site)
    exact ⟨Expr.linked_of_recorded hs hp.1 hl, Expr.linked_of_recorded hs hp.2 hr⟩
  | .call _ callee _ arguments, hp, h => by
    rw [Expr.Linked]
    obtain ⟨hc, ha⟩ :=
      h.cons.append (callee.findings_within site) (Expr.findingsEach_within site arguments)
    exact ⟨Expr.linked_of_recorded hs hp.1 hc, Expr.linkedEach_of_recorded hs hp.2 ha⟩
  | .set _ object _ value, hp, h => by
    rw [Expr.Linked]
    obtain ⟨hv, ho⟩ := (h.cons.perm List.perm_append_comm).append (value.findings_within site)
      (object.findings_within site)
    exact ⟨Expr.linked_of_recorded hs hp.1 ho, Expr.linked_of_recorded hs hp.2 hv⟩
  | .var id name, hp, h => by
    rw [Expr.Linked]
    obtain ⟨hfault, hoccurrence⟩ :=
      h.drop (.faultIf _ name _ _) (Findings.Within.occurrence site id name)
    exact ⟨hp, hoccurrence.occurrence, hs.mayRead (Findings.eq_false_of_faultIf hfault)⟩
  | .assign id name value, hp, h => by
    rw [Expr.Linked]
    have hperm : (id :: value.ids).Perm (value.ids ++ [id]) :=
      (List.perm_append_singleton id value.ids).symm
    obtain ⟨hv, ho⟩ :=
      (h.perm hperm).append (value.findings_within site) (.occurrence site id name)
    exact ⟨hp.1, Expr.linked_of_recorded hs hp.2 hv, ho.occurrence⟩
  | .this id keyword, hp, h => by
    rw [Expr.Linked]
    have hp : keyword.lexeme = "this" := hp
    cases hc : site.classBody with
    | none =>
      have hfaults := h.faults
      simp [Expr.findings, hc, Findings.fault] at hfaults
    | some kind =>
      obtain ⟨d, hd⟩ : ∃ d, site.distanceOf? "this" = some d := by
        cases kind with
        | base => exact hs.base hc
        | derived => exact (hs.derived hc).imp fun _ => And.left
      simp only [Expr.ids, Expr.findings, hc] at h
      have hg := h.occurrence
      rw [hp, hd] at hg
      exact ⟨hp, hs.mayRead_keyword.1, d, hg, hd⟩
  | .super id keyword method, hp, h => by
    rw [Expr.Linked]
    have hp : keyword.lexeme = "super" := hp
    cases hc : site.classBody with
    | none =>
      have hfaults := h.faults
      simp [Expr.findings, hc, Findings.fault] at hfaults
    | some kind =>
      cases kind with
      | base =>
        have hfaults := h.faults
        simp [Expr.findings, hc, Findings.fault] at hfaults
      | derived =>
        obtain ⟨d, hd, hd'⟩ := hs.derived hc
        simp only [Expr.ids, Expr.findings, hc] at h
        have hg := h.occurrence
        rw [hp, hd'] at hg
        exact ⟨hp, hs.mayRead_keyword.2, hs.mayRead_keyword.1, d, hg, hd', hd⟩

theorem Expr.linkedEach_of_recorded (hs : site.Sound) : ∀ {es : List Expr}, Expr.ProperEach es →
    Recorded t (Expr.idsEach es) (Expr.findingsEach site es) → Expr.LinkedEach t site es
  | [], _, _ => trivial
  | e :: rest, hp, h => by
    obtain ⟨he, hrest⟩ := h.append (e.findings_within site) (Expr.findingsEach_within site rest)
    exact ⟨Expr.linked_of_recorded hs hp.1 he, Expr.linkedEach_of_recorded hs hp.2 hrest⟩

end

theorem Expr.linkedOption_of_recorded (hs : site.Sound) : ∀ {e : Option Expr},
    Expr.ProperOption e → Recorded t (Expr.idsOption e) (Expr.findingsOption site e) →
    Expr.LinkedOption t site e
  | none, _, _ => trivial
  | some _, hp, h => Expr.linked_of_recorded hs hp h

/-! ### Statements -/

theorem Stmt.after_eq {s : Stmt} (hs : s.declares = false) : s.after site = site := by
  cases s with
  | varDecl | funDecl | classDecl => cases hs
  | _ => rfl

/-- The superclass is evaluated before the class is declared, which makes no difference as it has
another name. -/
theorem Expr.superclass_linked (hs : site.Settled) {name : Token} {e : Expr} {kind : ClassKind}
    (hp : Expr.ProperSuperclass (some e))
    (hself : (e.selfInheritance name).faults = [])
    (h : Recorded t e.ids (e.findings { site.bind name true with classBody := some kind })) :
    e.Linked t site := by
  obtain ⟨id, ancestor, rfl, hname⟩ := hp
  have hne : ancestor.lexeme ≠ name.lexeme := by
    simpa using Findings.eq_false_of_faultIf hself
  obtain ⟨-, ho⟩ := h.drop (.faultIf _ ancestor _ _) (Findings.Within.occurrence _ id ancestor)
  have hg := ho.occurrence
  have hd : Site.distanceOf? { site.bind name true with classBody := some kind } ancestor.lexeme
      = site.distanceOf? ancestor.lexeme := Site.distanceOf?_bind (Ne.symm hne) true
  rw [hd] at hg
  exact ⟨hname, hg, Site.findSome?_ne_some_false fun scope hmem => hs.all scope hmem _⟩

/-- Parameters without static faults have names of their own. -/
theorem Site.distinct_of_faults {params : List Token} {scope : Bindings Bool}
    {outer : List (Bindings Bool)} (hscopes : site.scopes = scope :: outer)
    (h : (site.declareEach params).2.faults = []) :
    (params.map Token.lexeme).Nodup ∧ ∀ p ∈ params, scope.binds p.lexeme = false := by
  induction params generalizing site scope with
  | nil => exact ⟨.nil, by simp⟩
  | cons name rest ih =>
    obtain ⟨hfirst, hrest⟩ := List.append_eq_nil_iff.1 h
    have hfree : site.bindsHere name = false := bindsHere_of_faults hfirst
    have hbind : (site.declareReadable name).1.scopes = scope.set name.lexeme true :: outer := by
      rw [declareReadable_fst, bind_scopes, hscopes]
    obtain ⟨hnodup, hnew⟩ := ih hbind hrest
    have hnew : ∀ p ∈ rest, name.lexeme ≠ p.lexeme ∧ scope.binds p.lexeme = false := by
      intro p hmem
      simpa [Bindings.binds_set] using hnew p hmem
    refine ⟨?_, ?_⟩
    · rw [List.map_cons, List.nodup_cons]
      refine ⟨?_, hnodup⟩
      intro hmem
      obtain ⟨p, hmem, he⟩ := List.mem_map.1 hmem
      exact (hnew p hmem).1 he.symm
    · intro p hmem
      rcases List.mem_cons.1 hmem with rfl | hmem
      · simpa [bindsHere, hscopes] using hfree
      · exact (hnew p hmem).2

/-- Parameters that have been declared may all be read. -/
theorem Site.Settled.declareEach (hs : site.Settled) {params : List Token}
    (hp : ∀ p ∈ params, p.IsName) : (site.declareEach params).1.Settled := by
  rw [declareEach_fst]
  induction params generalizing site with
  | nil => exact hs
  | cons name rest ih =>
    exact ih (hs.bind (hp name List.mem_cons_self)) fun p hmem => hp p (List.mem_cons_of_mem _ hmem)

/-- The resolver goes on after a statement with what surrounds the statement after it. -/
theorem Stmt.findings_fst (site : Site) : ∀ {s : Stmt}, s.Proper →
    (s.findings site).1 = s.after site
  | .expression _, _ | .varDecl _ _, _ | .block _, _ | .funDecl _, _ | .returnValue _ _, _ => rfl
  | .classDecl _ none _, _ | .classDecl _ (some _) _, _ => rfl
  | .ifThen _ thenBranch, hp | .whileLoop _ thenBranch, hp =>
    (Stmt.findings_fst site hp.2.1).trans (Stmt.after_eq hp.2.2)
  | .ifElse _ thenBranch elseBranch, hp => by
    have hthen : (thenBranch.findings site).1 = site :=
      (Stmt.findings_fst site hp.2.1.1).trans (Stmt.after_eq hp.2.1.2)
    have helse : (elseBranch.findings site).1 = site :=
      (Stmt.findings_fst site hp.2.2.1).trans (Stmt.after_eq hp.2.2.2)
    rw [Stmt.findings]
    simp only [hthen, helse]
    rfl

/-- What surrounds the statement after one whose declaration is no fault. -/
theorem Site.Settled.after (hs : site.Settled) {s : Stmt} (hp : s.Proper)
    (h : (s.findings site).2.faults = []) : (s.after site).Settled := by
  have hdeclare : ∀ {name : Token} {found : Findings}, name.IsName →
      ((site.declare name).2 ++ found).faults = [] → (site.declareReadable name).1.Settled := by
    intro name found hname hfaults
    have ha := admits_of_faults hname (List.append_eq_nil_iff.1 hfaults).1
    rw [declareReadable_of_admits ha]
    exact hs.bind hname
  cases s with
  | varDecl name initializer => exact hdeclare hp.1 h
  | funDecl routine =>
    cases routine with
    | mk name params body => exact hdeclare hp.1 h
  | classDecl name superclass methods =>
    cases superclass with
    | none => exact hdeclare hp.1 h
    | some e =>
      simp only [Stmt.findings, Findings.faults_append, List.append_assoc] at h
      exact @hdeclare name ⟨_, []⟩ hp.1 h
  | _ => exact hs

mutual

/-- A statement without static faults is linked. -/
theorem Stmt.linked_of_recorded {site : Site} (hs : site.Settled) : ∀ {s : Stmt}, s.Proper →
    Recorded t s.ids (s.findings site).2 → s.Linked t site
  | .expression value, hp, h => by
    rw [Stmt.Linked]
    exact value.linked_of_recorded hs.toSound hp h
  | .varDecl name initializer, hp, h => by
    rw [Stmt.Linked]
    have h : Recorded t (Expr.idsOption initializer)
      ((site.declare name).2 ++ Expr.findingsOption (site.declare name).1 initializer) := h
    obtain ⟨hdeclare, hi⟩ :=
      h.drop (site.declare_within name []) (Expr.findingsOption_within _ initializer)
    have ha := Site.admits_of_faults hp.1 hdeclare
    rw [Site.declare_of_admits ha] at hi ⊢
    exact ⟨ha, Expr.linkedOption_of_recorded (hs.bind_sound hp.1 false) hp.2 hi⟩
  | .block body, hp, h => by
    rw [Stmt.Linked]
    exact Stmt.linkedEach_of_recorded hs.enter hp h
  | .ifThen condition thenBranch, hp, h | .whileLoop condition thenBranch, hp, h => by
    rw [Stmt.Linked]
    obtain ⟨hc, ht⟩ :=
      h.append (condition.findings_within site) (thenBranch.findings_within site)
    exact ⟨condition.linked_of_recorded hs.toSound hp.1 hc, Stmt.linked_of_recorded hs hp.2.1 ht,
      hp.2.2⟩
  | .ifElse condition thenBranch elseBranch, hp, h => by
    rw [Stmt.Linked]
    obtain ⟨hcondition, hthen, helse⟩ := hp
    have hafter : (thenBranch.findings site).1 = site :=
      (Stmt.findings_fst site hthen.1).trans (Stmt.after_eq hthen.2)
    simp only [Stmt.ids, Stmt.findings, hafter, ← List.append_assoc] at h
    obtain ⟨h, he⟩ := h.append
      ((condition.findings_within site).parts (thenBranch.findings_within site))
      (elseBranch.findings_within site)
    obtain ⟨hc, ht⟩ :=
      h.append (condition.findings_within site) (thenBranch.findings_within site)
    exact ⟨condition.linked_of_recorded hs.toSound hcondition hc,
      ⟨Stmt.linked_of_recorded hs hthen.1 ht, hthen.2⟩, Stmt.linked_of_recorded hs helse.1 he,
      helse.2⟩
  | .funDecl routine, hp, h => by
    rw [Stmt.Linked]
    have h : Recorded t routine.ids ((site.declare routine.name).2
      ++ routine.findings (site.declareReadable routine.name).1 .function) := h
    obtain ⟨hdeclare, hr⟩ := h.drop (site.declare_within routine.name [])
      (routine.findings_within _ .function)
    have hname : routine.name.IsName := by
      cases routine with
      | mk name params body => exact hp.1
    have ha := Site.admits_of_faults hname hdeclare
    rw [Site.declareReadable_of_admits ha] at hr ⊢
    exact ⟨ha, Routine.linked_of_recorded (hs.bind hname) hp hr⟩
  | .returnValue keyword value, hp, h => by
    rw [Stmt.Linked]
    obtain ⟨-, hv⟩ := h.drop (.append (.faultIf _ keyword _ _) (.faultIf _ keyword _ _))
      (Expr.findingsOption_within site value)
    exact Expr.linkedOption_of_recorded hs.toSound hp hv
  | .classDecl name none methods, hp, h => by
    rw [Stmt.Linked]
    have h : Recorded t (Routine.idsEach methods) ((site.declare name).2 ++ Routine.findingsEach
      ({ (site.declareReadable name).1 with classBody := some .base }.enter Site.thisScope)
        methods) := h
    obtain ⟨hdeclare, hm⟩ := h.drop (site.declare_within name [])
      (Routine.findingsEach_within _ methods)
    have ha := Site.admits_of_faults hp.1 hdeclare
    rw [Site.declareReadable_of_admits ha] at hm ⊢
    exact ⟨ha, Routine.linkedEach_of_recorded (hs.bind hp.1).base_methods hp.2.2 hm⟩
  | .classDecl name (some ancestor) methods, hp, h => by
    rw [Stmt.Linked]
    have hself : ∀ ids, (ancestor.selfInheritance name).Within ids := by
      intro ids
      unfold Expr.selfInheritance
      split
      · exact .faultIf _ _ _ ids
      · exact .none ids
    have h : Recorded t (ancestor.ids ++ Routine.idsEach methods) ((site.declare name).2
      ++ ancestor.selfInheritance name
      ++ ancestor.findings { (site.declareReadable name).1 with classBody := some .derived }
      ++ Routine.findingsEach (({ (site.declareReadable name).1 with
        classBody := some .derived }.enter Site.superScope).enter Site.thisScope) methods) := h
    obtain ⟨h, hm⟩ := h.append ((((site.declare_within name _).append (hself _)).append
      (ancestor.findings_within _))) (Routine.findingsEach_within _ methods)
    obtain ⟨hfaults, he⟩ := h.drop ((site.declare_within name []).append (hself []))
      (ancestor.findings_within _)
    obtain ⟨hdeclare, hself⟩ := List.append_eq_nil_iff.1 hfaults
    have ha := Site.admits_of_faults hp.1 hdeclare
    rw [Site.declareReadable_of_admits ha] at he hm ⊢
    exact ⟨ha, Expr.superclass_linked hs hp.2.1 hself he,
      Routine.linkedEach_of_recorded (hs.bind hp.1).derived_methods hp.2.2 hm⟩

/-- Statements without static faults are linked. -/
theorem Stmt.linkedEach_of_recorded {site : Site} (hs : site.Settled) : ∀ {body : List Stmt},
    Stmt.ProperEach body → Recorded t (Stmt.idsEach body) (Stmt.findingsEach site body) →
    Stmt.LinkedEach t site body
  | [], _, _ => trivial
  | s :: rest, hp, h => by
    rw [Stmt.LinkedEach]
    obtain ⟨hfirst, hrest⟩ := h.append (s.findings_within site) (Stmt.findingsEach_within _ rest)
    rw [Stmt.findings_fst site hp.1] at hrest
    exact ⟨Stmt.linked_of_recorded hs hp.1 hfirst,
      Stmt.linkedEach_of_recorded (hs.after hp.1 hfirst.faults) hp.2 hrest⟩

/-- A function or method without static faults is linked. -/
theorem Routine.linked_of_recorded {site : Site} (hs : site.Settled) {kind : BodyKind} :
    ∀ {r : Routine}, r.Proper → Recorded t r.ids (r.findings site kind) → r.Linked t site kind
  | .mk name params body, hp, h => by
    rw [Routine.Linked]
    obtain ⟨hdeclare, hbody⟩ := h.drop (Site.declareEach_within _ params [])
      (Stmt.findingsEach_within _ body)
    obtain ⟨hnodup, -⟩ := Site.distinct_of_faults rfl hdeclare
    have hsettled := (hs.withBody (some kind)).enter.declareEach hp.2.1
    exact ⟨hp.2.1, hnodup, Stmt.linkedEach_of_recorded hsettled hp.2.2 hbody⟩

/-- Methods without static faults are linked. -/
theorem Routine.linkedEach_of_recorded {site : Site} (hs : site.Settled) : ∀ {rs : List Routine},
    Routine.ProperEach rs → Recorded t (Routine.idsEach rs) (Routine.findingsEach site rs) →
    Routine.LinkedEach t site rs
  | [], _, _ => trivial
  | r :: rest, hp, h => by
    rw [Routine.LinkedEach]
    obtain ⟨hr, hrest⟩ :=
      h.append (r.findings_within site _) (Routine.findingsEach_within site rest)
    exact ⟨Routine.linked_of_recorded hs hp.1 hr, Routine.linkedEach_of_recorded hs hp.2 hrest⟩

end

end

end Lox
