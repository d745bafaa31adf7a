import Lox.Proofs.Scoping.Balanced

/-!
What the walk that resolves names finds. From every state it adds what `Expr.findings` and
`Stmt.findings` say of the site it has reached, so that it has the same distances and faults as a
program has by them (`resolve_eq_distances`). As it is balanced, it goes on behind a program as from
the start, and what it finds in two programs one after the other is what it finds in each of them
(`resolve_independent`).
-/

namespace Lox.Resolver

/-- The state at a site, with findings added to it. -/
def State.moved (s : State) (site : Site) (found : Findings) : State where
  scopes := site.scopes
  distances := found.distances.foldl (fun table entry => table.insert entry.1 entry.2) s.distances
  body := site.body
  classBody := site.classBody
  faults := s.faults ++ found.faults

theorem State.moved_none (s : State) : s.moved s.site .none = s := by
  show State.mk _ _ _ _ (s.faults ++ []) = s
  rw [List.append_nil]
  rfl

theorem State.moved_moved (s : State) (site site' : Site) (found more : Findings) :
    (s.moved site found).moved site' more = s.moved site' (found ++ more) := by
  simp only [State.moved, Findings.faults_append, Findings.distances_append, List.append_assoc,
    List.foldl_append]

theorem State.eq_of_site {s t : State} (hsite : s.site = t.site)
    (hdistances : s.distances = t.distances) (hfaults : s.faults = t.faults) : s = t := by
  obtain ⟨hscopes, hbody, hclass⟩ := Site.mk.inj hsite
  rw [State.mk.injEq]
  exact ⟨hscopes, hdistances, hbody, hclass, hfaults⟩

/-- From every state the walk goes to the site that is given for the one it starts at, and adds the
findings that are given for that one. -/
def Finds (walk : Resolving Unit) (find : Site → Site × Findings) : Prop :=
  ∀ s : State, after walk s = s.moved (find s.site).1 (find s.site).2

/-- From every state the walk adds the findings that are given for the site, and nothing else. -/
def Notes (walk : Resolving Unit) (note : Site → Findings) : Prop :=
  Finds walk fun site => (site, note site)

variable {walk next : Resolving Unit} {find find' : Site → Site × Findings}
  {note note' : Site → Findings}

/-! ### One step after another -/

theorem Finds.seq (h : Finds walk find) (h' : Finds next find') :
    Finds (do walk; next) fun site =>
      ((find' (find site).1).1, (find site).2 ++ (find' (find site).1).2) := by
  intro s
  show after next (after walk s) = _
  rw [h s, h' _, State.moved_moved]
  rfl

theorem Notes.pure : Notes (pure ()) fun _ => .none := fun s =>
  s.moved_none.symm

theorem Notes.seq (h : Notes walk note) (h' : Notes next note') :
    Notes (do walk; next) fun site => note site ++ note' site :=
  Finds.seq h h'

theorem Notes.get {step : State → Resolving Unit}
    (h : ∀ s : State, after (step s) s = s.moved s.site (note s.site)) :
    Notes (do step (← get)) note := fun s => h s

/-- A fault that is recorded if the site asks for it. -/
theorem Notes.faultIf (condition : Site → Bool) (token : Token) (cause : StaticFault)
    (h : Notes next note) :
    Notes (do
        let s ← MonadState.get
        if condition s.site then
          record token cause
        next) fun site => .faultIf (condition site) token cause ++ note site := by
  refine .get fun s => ?_
  cases condition s.site with
  | true =>
    show after next (after (record token cause) s) = _
    rw [h _]
    exact State.moved_moved s s.site s.site (.fault token cause) (note s.site)
  | false => exact h s

/-- What the innermost scope has come to bind is gone behind its end, but what was found is not. -/
theorem Finds.inScope (h : Finds walk find) (hbalanced : Balanced walk) :
    Notes (inScope walk) fun site => (find (site.enter [])).2 := by
  intro s
  have hwalk := h (after beginScope s)
  have hdistances := congrArg State.distances hwalk
  have hfaults := congrArg State.faults hwalk
  exact State.eq_of_site (hbalanced.inScope s) hdistances hfaults

/-! ### Scopes and names -/

theorem notes_record (token : Token) (cause : StaticFault) :
    Notes (record token cause) fun _ => .fault token cause := fun _ => rfl

theorem finds_bindInnermost (name : Token) (readable : Bool) :
    Finds (bindInnermost name.lexeme readable) fun site => (site.bind name readable, .none) := by
  rintro ⟨scopes, distances, body, classBody, faults⟩
  cases scopes with
  | nil => exact (State.moved_none _).symm
  | cons scope outer =>
    exact (State.moved_none
      ⟨scope.set name.lexeme readable :: outer, distances, body, classBody, faults⟩).symm

theorem finds_declare (name : Token) : Finds (declare name) fun site => site.declare name := by
  intro s
  show _ = s.moved (s.site.declare name).1 (s.site.declare name).2
  rw [after_declare, Site.declare]
  split
  · rfl
  · exact finds_bindInnermost name false s

theorem finds_declareReadable (name : Token) :
    Finds (do declare name; define name) fun site => site.declareReadable name := by
  intro s
  refine ((finds_declare name).seq (finds_bindInnermost name true) s).trans ?_
  show s.moved _ ((s.site.declare name).2 ++ .none) = _
  rw [Findings.append_none]
  rfl

theorem finds_parameters (params : List Token) :
    Finds (params.forM fun name => do declare name; define name) fun site =>
      site.declareEach params := by
  induction params with
  | nil => exact Notes.pure
  | cons name rest ih => exact (finds_declareReadable name).seq ih

theorem notes_recordNearest (id : Nat) (name : Token) (scopes : List (Bindings Bool)) :
    ∀ distance : Nat, Notes (recordNearest id name distance scopes) fun _ =>
      { distances := ((scopes.findIdx? (·.binds name.lexeme)).map
          fun place => (id, distance + place)).toList } := by
  induction scopes with
  | nil => exact fun _ => .pure
  | cons scope outer ih =>
    intro distance s
    rw [recordNearest, List.findIdx?_cons]
    cases scope.binds name.lexeme with
    | true => exact (State.moved_none _).symm
    | false =>
      refine (ih (distance + 1) s).trans ?_
      cases outer.findIdx? (·.binds name.lexeme) with
      | none => rfl
      | some place =>
        show s.moved s.site ⟨[], [(id, distance + 1 + place)]⟩
          = s.moved s.site ⟨[], [(id, distance + (place + 1))]⟩
        rw [Nat.add_assoc, Nat.add_comm 1 place]

theorem notes_resolveLocal (id : Nat) (name : Token) :
    Notes (resolveLocal id name) fun site => site.occurrence id name := by
  refine .get fun s => (notes_recordNearest id name s.scopes 0 s).trans ?_
  simp only [Nat.zero_add]
  rfl

theorem notes_resolveVariable (id : Nat) (name : Token) :
    Notes (resolveVariable id name) fun site =>
      .faultIf (site.isUnreadable name) name .readInOwnInitializer ++ site.occurrence id name :=
  (notes_resolveLocal id name).faultIf (·.isUnreadable name) name .readInOwnInitializer

theorem notes_resolveThis (id : Nat) (keyword : Token) :
    Notes (resolveThis id keyword) fun site => (Expr.this id keyword).findings site := by
  refine .get ?_
  rintro ⟨scopes, distances, body, classBody, faults⟩
  cases classBody with
  | none => exact notes_record keyword .thisOutsideClass _
  | some kind => exact notes_resolveLocal id keyword _

theorem notes_resolveSuper (id : Nat) (keyword method : Token) :
    Notes (resolveSuper id keyword) fun site => (Expr.super id keyword method).findings site := by
  refine .get ?_
  rintro ⟨scopes, distances, body, classBody, faults⟩
  cases classBody with
  | none => exact notes_record keyword .superOutsideClass _
  | some kind =>
    cases kind with
    | base => exact notes_record keyword .superWithoutSuperclass _
    | derived => exact notes_resolveLocal id keyword _

/-! ### Expressions -/

mutual

/-- Of an expression the walk finds what is found in it. -/
theorem notes_resolveExpr : ∀ e : Expr, Notes (resolveExpr e) fun site => e.findings site
  | .literal _ _ => .pure
  | .grouping _ inner => notes_resolveExpr inner
  | .unary _ _ right => notes_resolveExpr right
  | .binary _ left _ right | .logical _ left _ right =>
    (notes_resolveExpr left).seq (notes_resolveExpr right)
  | .var id name => notes_resolveVariable id name
  | .assign id name value => (notes_resolveExpr value).seq (notes_resolveLocal id name)
  | .call _ callee _ arguments => (notes_resolveExpr callee).seq (notes_resolveExprs arguments)
  | .get _ object _ => notes_resolveExpr object
  | .set _ object _ value => (notes_resolveExpr value).seq (notes_resolveExpr object)
  | .this id keyword => notes_resolveThis id keyword
  | .super id keyword method => notes_resolveSuper id keyword method

theorem notes_resolveExprs : ∀ es : List Expr,
    Notes (resolveExprs es) fun site => Expr.findingsEach site es
  | [] => .pure
  | e :: rest => (notes_resolveExpr e).seq (notes_resolveExprs rest)

end

/-! ### Statements -/

/-- A name is declared before its initializer and may be read behind it. -/
theorem finds_varDecl (name : Token) (h : Notes walk note) :
    Finds (do declare name; walk; define name) fun site =>
      let (declared, found) := site.declare name
      (declared.bind name true, found ++ note declared) := by
  intro s
  refine (((finds_declare name).seq h).seq (finds_bindInnermost name true) s).trans ?_
  show s.moved _ (_ ++ .none) = _
  rw [Findings.append_none]

theorem notes_resolveReturn (keyword : Token) (value : Option Expr) :
    Notes (resolveReturn keyword value) fun site =>
      ((Stmt.returnValue keyword value).findings site).2 := by
  intro s
  cases value with
  | none =>
    refine (Notes.pure.faultIf (·.body.isNone) keyword .returnAtTopLevel s).trans ?_
    show s.moved s.site (_ ++ .none) = s.moved s.site (_ ++ .none ++ .none)
    rw [Findings.append_none, Findings.append_none]
  | some e =>
    have hvalue := (notes_resolveExpr e).faultIf (·.body == some .initializer) keyword
      .returnValueFromInitializer
    refine (hvalue.faultIf (·.body.isNone) keyword .returnAtTopLevel s).trans ?_
    show s.moved s.site (_ ++ (.faultIf (s.site.body == some .initializer) _ _ ++ _)) = _
    rw [← Findings.append_assoc, Bool.beq_eq_decide_eq]
    rfl

/-- What is found in a function is found in its parameters and its body. -/
theorem notes_resolveFunction (kind : BodyKind) (params : List Token) (h : Finds walk find)
    (hbalanced : Balanced walk) :
    Notes (resolveFunction kind params walk) fun site =>
      let (declared, found) := ({ site with body := some kind }.enter []).declareEach params
      found ++ (find declared).2 := by
  intro s
  have hinside := ((finds_parameters params).seq h).inScope
    ((balanced_parameters params).seq hbalanced) { s with body := some kind }
  exact congrArg (fun t : State => { t with body := s.body }) hinside

theorem notes_checkAncestor (className : Token) (ancestor : Expr) :
    Notes (checkAncestor className ancestor) fun _ => ancestor.selfInheritance className := by
  cases ancestor with
  | var id name =>
    intro s
    show after (ite _ _ _) s
      = s.moved s.site (.faultIf (name.lexeme == className.lexeme) name .inheritsFromItself)
    cases name.lexeme == className.lexeme with
    | true => rfl
    | false => exact s.moved_none.symm
  | _ => exact .pure

theorem notes_keywordScope (keyword : String) (h : Notes walk note) :
    Notes (inScope do defineKeyword keyword; walk) fun site =>
      note (site.enter [(keyword, true)]) := by
  intro s
  have hwalk := h (after (defineKeyword keyword) (after beginScope s))
  have hended := congrArg (after endScope) hwalk
  exact hended

theorem classBody_declareReadable (site : Site) (name : Token) :
    (site.declareReadable name).1.classBody = site.classBody := by
  rw [Site.declareReadable_fst, Site.bind_classBody]

theorem declareReadable_inClass (site : Site) (name : Token) (kind : ClassKind) :
    Site.declareReadable { site with classBody := some kind } name
      = ({ (site.declareReadable name).1 with classBody := some kind },
        (site.declareReadable name).2) := by
  obtain ⟨scopes, body, classBody⟩ := site
  cases scopes with
  | nil => rfl
  | cons scope outer =>
    cases hbinds : scope.binds name.lexeme <;>
      simp [Site.declareReadable, Site.declare, Site.bindsHere, Site.bind, hbinds]

/-- The name of a class is declared when the class is already in force. -/
theorem after_className (name : Token) (s : State) :
    after (do declare name; define name) { s with classBody := some .base }
      = s.moved { (s.site.declareReadable name).1 with classBody := some .base }
        (s.site.declareReadable name).2 := by
  refine (finds_declareReadable name _).trans ?_
  show s.moved (Site.declareReadable { s.site with classBody := some .base } name).1
    (Site.declareReadable { s.site with classBody := some .base } name).2 = _
  rw [declareReadable_inClass]

/-- A superclass is looked at when the name of the class is declared. -/
theorem after_ancestorName (name : Token) (ancestor : Expr) (s : State) :
    after (do declare name; define name; checkAncestor name ancestor)
        { s with classBody := some .base }
      = s.moved { (s.site.declareReadable name).1 with classBody := some .base }
        ((s.site.declareReadable name).2 ++ ancestor.selfInheritance name) := by
  show after (checkAncestor name ancestor) (after (do declare name; define name) _) = _
  rw [after_className, notes_checkAncestor name ancestor _, State.moved_moved]
  rfl

/-- Of a class the walk finds what is found in it, if of its methods it does. -/
theorem finds_resolveClass (name : Token) (superclass : Option Expr) (methods : List Routine)
    (h : Notes walk fun site => Routine.findingsEach site methods) :
    Finds (resolveClass name superclass walk) fun site =>
      (Stmt.classDecl name superclass methods).findings site := by
  intro s
  let declared := (s.site.declareReadable name).1
  let found := (s.site.declareReadable name).2
  have hclass : declared.classBody = s.classBody := classBody_declareReadable s.site name
  have hthis := notes_keywordScope "this" h
  cases superclass with
  | none =>
    show { after (inScope do defineKeyword "this"; walk)
      (after (do declare name; define name) { s with classBody := some .base }) with
        classBody := s.classBody }
      = s.moved declared (found ++ Routine.findingsEach
          (Site.enter { declared with classBody := some .base } Site.thisScope) methods)
    rw [after_className, hthis _, State.moved_moved, ← hclass]
    rfl
  | some ancestor =>
    have hinside := (notes_resolveExpr ancestor).seq (notes_keywordScope "super" hthis)
    -- from here on the class has a superclass, up to where the class around it is put back
    let inside : Site := { declared with classBody := some .derived }
    show { after (do
        resolveExpr ancestor
        inScope do defineKeyword "super"; inScope do defineKeyword "this"; walk)
      { after (do declare name; define name; checkAncestor name ancestor)
        { s with classBody := some .base } with classBody := some .derived } with
        classBody := s.classBody }
      = s.moved declared (found ++ ancestor.selfInheritance name ++ ancestor.findings inside
        ++ Routine.findingsEach ((inside.enter Site.superScope).enter Site.thisScope) methods)
    rw [after_ancestorName, hinside _]
    show { (s.moved inside (found ++ ancestor.selfInheritance name)).moved inside (_ ++ _) with
        classBody := s.classBody } = _
    rw [State.moved_moved, ← Findings.append_assoc, ← hclass]
    rfl

mutual

/-- Of a statement the walk finds what is found in it. -/
theorem finds_resolveStmt : ∀ s : Stmt, Finds (resolveStmt s) fun site => s.findings site
  | .block body => (finds_resolveStmts body).inScope (balanced_resolveStmts body)
  | .varDecl name none => finds_varDecl name .pure
  | .varDecl name (some e) => finds_varDecl name (notes_resolveExpr e)
  | .funDecl routine =>
    (finds_declareReadable routine.name).seq (notes_resolveRoutine .function routine)
  | .expression value => notes_resolveExpr value
  | .ifThen condition thenBranch =>
    Finds.seq (notes_resolveExpr condition) (finds_resolveStmt thenBranch)
  | .ifElse condition thenBranch elseBranch =>
    (Finds.seq (notes_resolveExpr condition) (finds_resolveStmt thenBranch)).seq
      (finds_resolveStmt elseBranch)
  | .whileLoop condition body =>
    Finds.seq (notes_resolveExpr condition) (finds_resolveStmt body)
  | .returnValue keyword value => notes_resolveReturn keyword value
  | .classDecl name superclass methods =>
    finds_resolveClass name superclass methods (notes_resolveMethods methods)

theorem finds_resolveStmts : ∀ body : List Stmt,
    Finds (resolveStmts body) fun site => (Stmt.siteBehind site body, Stmt.findingsEach site body)
  | [] => Notes.pure
  | s :: rest => (finds_resolveStmt s).seq (finds_resolveStmts rest)

theorem notes_resolveRoutine (kind : BodyKind) : ∀ r : Routine,
    Notes (resolveRoutine kind r) fun site => r.findings site kind
  | .mk _ params body =>
    notes_resolveFunction kind params (finds_resolveStmts body) (balanced_resolveStmts body)

theorem notes_resolveMethods : ∀ rs : List Routine,
    Notes (resolveMethods rs) fun site => Routine.findingsEach site rs
  | [] => .pure
  | r :: rest => (notes_resolveRoutine r.methodKind r).seq (notes_resolveMethods rest)

end

/-! ### Whole programs -/

/-- The walk has the distances or the faults that the program has by what is found in its parts. -/
theorem resolve_eq_distances (p : Program) : resolve p = p.distances := by
  unfold resolve
  rw [finds_resolveStmts p {}]
  rfl

theorem after_resolveStmts_append (p q : Program) (s : State) :
    after (resolveStmts (p ++ q)) s = after (resolveStmts q) (after (resolveStmts p) s) := by
  induction p generalizing s with
  | nil => rfl
  | cons first rest ih => exact ih (after (resolveStmt first) s)

/-- Behind a program the walk goes on as from the start, and adds what it finds from there. -/
theorem after_resolveStmts_joined (p q : Program) :
    (after (resolveStmts (p ++ q)) {}).faults
        = (after (resolveStmts p) {}).faults ++ (after (resolveStmts q) {}).faults
      ∧ ∀ id : Nat, (after (resolveStmts (p ++ q)) {}).distances[id]?
        = (after (resolveStmts q) {}).distances[id]?.or
          (after (resolveStmts p) {}).distances[id]? := by
  rw [after_resolveStmts_append]
  have hsite := site_after_resolveStmts p
  generalize after (resolveStmts p) {} = s at hsite
  have hfresh : (({} : State).site : Site) = {} := rfl
  rw [finds_resolveStmts q s, finds_resolveStmts q {}, hsite, hfresh]
  refine ⟨rfl, fun id => ?_⟩
  show (List.foldl _ _ _)[id]? = (List.foldl _ _ _)[id]?.or _
  rw [Distances.getElem?_foldl_insert, Distances.getElem?_foldl_insert]
  simp

/-- The faults of a result, which are none if it is a table. -/
def faultsOf : Except (List Diagnostic) Distances → List Diagnostic
  | .ok _ => []
  | .error faults => faults

/-- The walk is left with a table, or with the faults that have been recorded. -/
theorem resolve_cases (p : Program) :
    (after (resolveStmts p) {}).faults = []
        ∧ resolve p = .ok (after (resolveStmts p) {}).distances
      ∨ (after (resolveStmts p) {}).faults ≠ []
        ∧ resolve p = .error (after (resolveStmts p) {}).faults := by
  unfold resolve
  cases hfaults : (after (resolveStmts p) {}).faults <;> simp [hfaults]

theorem exists_resolve_iff {p : Program} :
    (∃ d, resolve p = .ok d) ↔ (after (resolveStmts p) {}).faults = [] := by
  rcases resolve_cases p with ⟨hnil, h⟩ | ⟨hne, h⟩
  · simp [h, hnil]
  · simp [h, hne]

theorem faultsOf_resolve (p : Program) :
    faultsOf (resolve p) = (after (resolveStmts p) {}).faults := by
  rcases resolve_cases p with ⟨hnil, h⟩ | ⟨-, h⟩
  · rw [h, hnil]
    rfl
  · rw [h]
    rfl

theorem distances_of_resolve {p : Program} {d : Distances} (h : resolve p = .ok d) :
    d = (after (resolveStmts p) {}).distances := by
  rcases resolve_cases p with ⟨-, hok⟩ | ⟨-, herror⟩
  · exact Except.ok.inj (h.symm.trans hok)
  · cases h.symm.trans herror

/-- The distances of a program are what the walk finds. Behind every program the stack of scopes is
empty, and the walk is in no function and in no class, whatever faults have been recorded. So two
programs one after the other have distances if each of them has, of which those of the second count
more, and otherwise they have the faults of the first and then those of the second. -/
theorem resolve_independent (p q : Program) :
    (∀ r : Program, r.distances = resolve r)
      ∧ ((after (resolveStmts p) {}).scopes = []
        ∧ (after (resolveStmts p) {}).body = none
        ∧ (after (resolveStmts p) {}).classBody = none)
      ∧ ((∃ joined, resolve (p ++ q) = .ok joined)
        ↔ (∃ d, resolve p = .ok d) ∧ ∃ d', resolve q = .ok d')
      ∧ (∀ d d' joined : Distances, resolve p = .ok d → resolve q = .ok d' →
        resolve (p ++ q) = .ok joined → ∀ id : Nat, joined[id]? = d'[id]?.or d[id]?)
      ∧ ∀ faults, resolve (p ++ q) = .error faults →
        faults = faultsOf (resolve p) ++ faultsOf (resolve q) := by
  obtain ⟨hfaults, hdistances⟩ := after_resolveStmts_joined p q
  refine ⟨fun r => (resolve_eq_distances r).symm, Site.mk.inj (site_after_resolveStmts p), ?_, ?_,
    ?_⟩
  · rw [exists_resolve_iff, exists_resolve_iff, exists_resolve_iff, hfaults,
      List.append_eq_nil_iff]
  · intro d d' joined hp hq hjoined id
    rw [distances_of_resolve hp, distances_of_resolve hq, distances_of_resolve hjoined]
    exact hdistances id
  · intro faults h
    have hrecorded := faultsOf_resolve (p ++ q)
    rw [h, hfaults, ← faultsOf_resolve p, ← faultsOf_resolve q] at hrecorded
    exact hrecorded

end Lox.Resolver
