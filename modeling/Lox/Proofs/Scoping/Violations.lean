import Lox.Proofs.Scoping.Tables
import Lox.Proofs.Tree.Surroundings
import Lox.Session

/-!
The static faults of a program are the rules that its positions break. What is found in a tree is what
is found at each of its positions (`Stmt.findingsEach_eq`), which is said of the surroundings of the
position alone: they tell all that the scopes know there (`Site.Shows`). So a program has one fault for
each position that breaks a rule, in the order of the positions, and no other
(`Program.faults_eq_violations`).
-/

namespace Lox

/-! ### Rules -/

/-- The fault of a position that breaks a rule. -/
def Position.violation? : Position → Option Diagnostic
  | ⟨.declaration name, around⟩ =>
    if around.declaresHere name.lexeme then some (.static name .alreadyDeclared) else none
  | ⟨.read _ name, around⟩ =>
    if around.initializes name.lexeme then some (.static name .readInOwnInitializer) else none
  | ⟨.assignment _ _, _⟩ => none
  | ⟨.this _ keyword, around⟩ =>
    match around.classBody? with
    | none => some (.static keyword .thisOutsideClass)
    | some _ => none
  | ⟨.super _ keyword, around⟩ =>
    match around.classBody? with
    | none => some (.static keyword .superOutsideClass)
    | some .base => some (.static keyword .superWithoutSuperclass)
    | some .derived => none
  | ⟨.inheritance className ancestor, _⟩ =>
    if ancestor.lexeme = className.lexeme then some (.static ancestor .inheritsFromItself) else none
  | ⟨.departure keyword valued, around⟩ =>
    match around.body? with
    | none => some (.static keyword .returnAtTopLevel)
    | some .initializer =>
      if valued then some (.static keyword .returnValueFromInitializer) else none
    | some _ => none

/-- The faults of all positions that break a rule. -/
def Program.violations (p : Program) : List Diagnostic :=
  p.positions.filterMap Position.violation?

/-! ### What is found at a position -/

namespace Position

/-- The position holds a keyword where it may not stand. -/
def isMisplaced (q : Position) : Bool :=
  match q.spot with
  | .this _ _ | .super _ _ => q.violation?.isSome
  | _ => false

/-- The number and the address of the name that is looked up at a position. -/
def row? (q : Position) : Option (Nat × Nat) :=
  q.spot.occurrence?.bind fun (id, name) =>
    if q.isMisplaced then none else (q.around.address? name.lexeme).map (id, ·)

/-- What is found at a position. -/
def findings (q : Position) : Findings := ⟨q.violation?.toList, q.row?.toList⟩

end Position

namespace Findings

/-- What is found at positions, one after the other. -/
def atPositions (qs : List Position) : Findings :=
  ⟨qs.filterMap Position.violation?, qs.filterMap Position.row?⟩

theorem atPositions_append (qs rs : List Position) :
    atPositions (qs ++ rs) = atPositions qs ++ atPositions rs := by
  rw [atPositions, List.filterMap_append, List.filterMap_append]
  rfl

theorem atPositions_single (q : Position) : atPositions [q] = q.findings := by
  rw [atPositions, Position.findings, List.filterMap_cons, List.filterMap_cons]
  cases q.violation? <;> cases q.row? <;> rfl

theorem atPositions_cons (q : Position) (rest : List Position) :
    atPositions (q :: rest) = q.findings ++ atPositions rest := by
  rw [← atPositions_single, ← atPositions_append]
  rfl

end Findings

/-! ### What the scopes know at a position -/

/-- The surroundings tell all that the scopes, the function and the class around a position know. -/
structure Site.Shows (site : Site) (around : Surroundings) : Prop where
  isLocal : around.isLocal = !site.scopes.isEmpty
  declaresHere : ∀ name, site.bindsHere name = around.declaresHere name.lexeme
  initializes : ∀ name, site.isUnreadable name = around.initializes name.lexeme
  address : ∀ name, site.distance? name = around.address? name.lexeme
  body : site.body = around.body?
  classBody : site.classBody = around.classBody?

/-- The same between statements, where all names may be read. -/
structure Site.ShowsAll (site : Site) (around : Surroundings) : Prop extends site.Shows around where
  settled : ∀ name, around.initializes name = false

namespace Site

section

variable {site : Site} {name : Token}

theorem bindsHere_bind (site : Site) (name other : Token) (r : Bool) :
    (site.bind name r).bindsHere other
      = (!site.scopes.isEmpty && decide (name.lexeme = other.lexeme) || site.bindsHere other) := by
  unfold bindsHere
  rw [bind_scopes]
  cases site.scopes with
  | nil => rfl
  | cons scope outer => exact Bindings.binds_set scope name.lexeme other.lexeme r

theorem isUnreadable_bind (site : Site) (name other : Token) (r : Bool) :
    (site.bind name r).isUnreadable other
      = if name.lexeme = other.lexeme then !site.scopes.isEmpty && !r
        else site.isUnreadable other := by
  unfold isUnreadable
  rw [bind_scopes]
  cases site.scopes with
  | nil => simp
  | cons scope outer =>
    by_cases h : name.lexeme = other.lexeme <;> simp [Bindings.get?_set, h]

theorem distance?_bind (site : Site) (name other : Token) (r : Bool) :
    (site.bind name r).distance? other
      = if name.lexeme = other.lexeme ∧ site.scopes.isEmpty = false then some 0
        else site.distance? other := by
  unfold distance?
  rw [bind_scopes]
  cases site.scopes with
  | nil => simp
  | cons scope outer =>
    by_cases h : name.lexeme = other.lexeme <;>
      simp [List.findIdx?_cons, Bindings.binds_set, h]

theorem bind_isEmpty (site : Site) (name : Token) (r : Bool) :
    (site.bind name r).scopes.isEmpty = site.scopes.isEmpty := by
  rw [bind_scopes]
  cases site.scopes <;> rfl

theorem distance?_enter (site : Site) (scope : Bindings Bool) (name : Token) :
    (site.enter scope).distance? name
      = if scope.binds name.lexeme then some 0 else (site.distance? name).map (· + 1) :=
  site.distanceOf?_enter scope name.lexeme

theorem bindsHere_congr {other : Token} (h : name.lexeme = other.lexeme) :
    site.bindsHere name = site.bindsHere other := by
  rw [bindsHere, h, bindsHere]

theorem isEmpty_of_bindsHere (h : site.bindsHere name = true) : site.scopes.isEmpty = false := by
  unfold bindsHere at h
  cases hs : site.scopes with
  | nil => simp [hs] at h
  | cons scope outer => rfl

theorem distance?_of_bindsHere (h : site.bindsHere name = true) : site.distance? name = some 0 := by
  unfold bindsHere at h
  unfold distance?
  cases hs : site.scopes with
  | nil => simp [hs] at h
  | cons scope outer =>
    have hb : scope.binds name.lexeme = true := by simpa [hs] using h
    simp [List.findIdx?_cons, hb]

end

namespace ShowsAll

variable {site : Site} {around : Surroundings}

theorem initial : ShowsAll {} [] where
  isLocal := rfl
  declaresHere _ := rfl
  initializes _ := rfl
  address _ := rfl
  body := rfl
  classBody := rfl
  settled _ := rfl

/-- The scope of a block is entered. -/
theorem enter (h : site.ShowsAll around) : (site.enter []).ShowsAll around.enter where
  isLocal := by simp [Surroundings.enter, Site.enter, Surroundings.isLocal_cons]
  declaresHere name := (Surroundings.declaresHere_scope _ _).symm
  initializes _ := rfl
  address name := by
    rw [distance?_enter, h.address]
    rfl
  body := h.body
  classBody := h.classBody
  settled _ := rfl

/-- A name is declared that may be read at once. -/
theorem declare (h : site.ShowsAll around) (name : Token) :
    (site.bind name true).ShowsAll (around.declare name) where
  isLocal := by
    rw [Surroundings.declare, Surroundings.isLocal_cons, bind_isEmpty, ← h.isLocal]
    simp
  declaresHere other := by
    rw [bindsHere_bind, Surroundings.declare, Surroundings.declaresHere_declared, h.isLocal,
      h.declaresHere]
  initializes other := by
    rw [isUnreadable_bind, h.initializes, h.settled]
    simp [Surroundings.declare, Surroundings.initializes]
  address other := by
    rw [distance?_bind, Surroundings.declare, Surroundings.address?, h.isLocal, h.address]
    simp
  body := by
    rw [bind_body, h.body]
    rfl
  classBody := by
    rw [bind_classBody, h.classBody]
    rfl
  settled _ := rfl

/-- Names are declared one after the other, which may be read at once. -/
theorem declareEach (h : site.ShowsAll around) (names : List Token) :
    (site.declareEach names).1.ShowsAll (around.declareEach names) := by
  rw [declareEach_fst]
  induction names generalizing site around with
  | nil => exact h
  | cons name rest ih => exact ih (h.declare name)

/-- The initializer of a variable starts that the scope had not declared before: it may not be read. -/
theorem initializing_new (h : site.ShowsAll around) {name : Token}
    (hnew : site.bindsHere name = false) :
    (site.bind name false).Shows (around.initializing name) where
  isLocal := by
    rw [bind_isEmpty, ← h.isLocal]
    simp [Surroundings.initializing, Surroundings.declare, Surroundings.isLocal_cons]
  declaresHere other := by
    rw [Surroundings.initializing, Surroundings.declaresHere_cons _ _ (by simp) (by simp),
      ← (h.declare name).declaresHere, bindsHere_bind, bindsHere_bind]
  initializes other := by
    rw [isUnreadable_bind, h.initializes, h.settled, Surroundings.initializing,
      Surroundings.declare, Surroundings.initializes, h.isLocal]
    by_cases hname : name.lexeme = other.lexeme
    · simp [hname, ← h.declaresHere, ← bindsHere_congr hname, hnew]
    · simp [hname]
  address other := by
    rw [distance?_bind, ← distance?_bind site name other true, (h.declare name).address]
    rfl
  body := by
    rw [bind_body, h.body]
    rfl
  classBody := by
    rw [bind_classBody, h.classBody]
    rfl

/-- The initializer of a variable starts that the scope had declared before: it may be read. -/
theorem initializing_again (h : site.ShowsAll around) {name : Token}
    (hknown : site.bindsHere name = true) : site.Shows (around.initializing name) where
  isLocal := by
    rw [← h.isLocal]
    simp [Surroundings.initializing, Surroundings.declare, Surroundings.isLocal_cons]
  declaresHere other := by
    rw [Surroundings.initializing, Surroundings.declaresHere_cons _ _ (by simp) (by simp),
      ← (h.declare name).declaresHere, bindsHere_bind]
    by_cases hname : name.lexeme = other.lexeme
    · simp [← bindsHere_congr hname, hknown]
    · simp [hname]
  initializes other := by
    rw [h.initializes, h.settled, Surroundings.initializing, Surroundings.declare,
      Surroundings.initializes]
    by_cases hname : name.lexeme = other.lexeme
    · simp [← h.declaresHere, ← bindsHere_congr hname, hknown]
    · simp [hname]
  address other := by
    show _ = (around.declare name).address? other.lexeme
    rw [← (h.declare name).address, distance?_bind]
    by_cases hname : name.lexeme = other.lexeme
    · rw [if_pos ⟨hname, isEmpty_of_bindsHere hknown⟩,
        distance?_of_bindsHere (bindsHere_congr hname ▸ hknown)]
    · rw [if_neg fun hand => hname hand.1]
  body := h.body
  classBody := h.classBody

/-- The initializer of a variable starts. -/
theorem initializing (h : site.ShowsAll around) (name : Token) :
    (site.declare name).1.Shows (around.initializing name) := by
  unfold Site.declare
  split
  · rename_i hknown
    exact h.initializing_again hknown
  · rename_i hnew
    exact h.initializing_new (Bool.eq_false_iff.2 hnew)

/-- A function or a class starts, whose own scopes are not entered yet. -/
theorem inBody (h : site.ShowsAll around) (kind : BodyKind) :
    { site with body := some kind }.ShowsAll (.body kind :: around) where
  isLocal := by
    rw [Surroundings.isLocal_cons]
    simpa using h.isLocal
  declaresHere name := by
    rw [Surroundings.declaresHere_cons _ _ (by simp) (by simp)]
    exact h.declaresHere name
  initializes name := (h.initializes name).trans (h.settled _)
  address := h.address
  body := rfl
  classBody := h.classBody
  settled _ := rfl

theorem inClass (h : site.ShowsAll around) (name : Token) (kind : ClassKind) :
    { site.bind name true with classBody := some kind }.ShowsAll (around.inClass name kind) where
  isLocal := by
    rw [Surroundings.inClass, Surroundings.isLocal_cons]
    simpa using (h.declare name).isLocal
  declaresHere other := by
    rw [Surroundings.inClass, Surroundings.declaresHere_cons _ _ (by simp) (by simp)]
    exact (h.declare name).declaresHere other
  initializes := (h.declare name).initializes
  address := (h.declare name).address
  body := (h.declare name).body
  classBody := rfl
  settled _ := rfl

/-- The scope of a function or method is entered. -/
theorem enterBody (h : site.ShowsAll around) (kind : BodyKind) :
    ({ site with body := some kind }.enter []).ShowsAll (around.enterBody kind) :=
  (h.inBody kind).enter

/-- The scope of `this`, or of `super`, is entered, which declares that alone. -/
theorem enterKeyword (h : site.ShowsAll around) (keyword : String) :
    (site.enter [(keyword, true)]).ShowsAll (around.enterKeyword keyword) :=
  h.enter.declare { (default : Token) with lexeme := keyword }

end ShowsAll

end Site

/-! ### Findings of trees -/

section

variable {site : Site} {around : Surroundings}

namespace Site.Shows

/-- What is found where a name is declared. -/
theorem declaration (h : site.Shows around) (name : Token) :
    (site.declareReadable name).2 = Position.findings ⟨.declaration name, around⟩ := by
  rw [Site.declareReadable, Site.declare, h.declaresHere]
  cases hd : around.declaresHere name.lexeme <;>
    simp [Position.findings, Position.row?, Position.violation?, Spot.occurrence?, Findings.fault,
      Findings.none, hd]

theorem read (h : site.Shows around) (id : Nat) (name : Token) :
    .faultIf (site.isUnreadable name) name .readInOwnInitializer ++ site.occurrence id name
      = Position.findings ⟨.read id name, around⟩ := by
  rw [h.initializes, Site.occurrence, h.address]
  show Findings.mk _ _ = Findings.mk _ _
  cases hi : around.initializes name.lexeme <;>
    simp [Position.row?, Position.violation?, Position.isMisplaced, Spot.occurrence?,
      Findings.faultIf, Findings.fault, Findings.none, hi]

theorem assignment (h : site.Shows around) (id : Nat) (name : Token) :
    site.occurrence id name = Position.findings ⟨.assignment id name, around⟩ := by
  rw [Site.occurrence, h.address]
  rfl

theorem this (h : site.Shows around) (id : Nat) (keyword : Token) :
    (Expr.this id keyword).findings site = Position.findings ⟨.this id keyword, around⟩ := by
  rw [Expr.findings, h.classBody, Site.occurrence, h.address]
  cases hc : around.classBody? <;>
    simp [Position.findings, Position.row?, Position.violation?, Position.isMisplaced,
      Spot.occurrence?, Findings.fault, hc]

theorem super (h : site.Shows around) (id : Nat) (keyword method : Token) :
    (Expr.super id keyword method).findings site
      = Position.findings ⟨.super id keyword, around⟩ := by
  rw [Expr.findings, h.classBody, Site.occurrence, h.address]
  rcases hc : around.classBody? with _ | ⟨_ | _⟩ <;>
    simp [Position.findings, Position.row?, Position.violation?, Position.isMisplaced,
      Spot.occurrence?, Findings.fault, hc]

theorem departure (h : site.Shows around) (keyword : Token) (valued : Bool) :
    .faultIf site.body.isNone keyword .returnAtTopLevel
      ++ .faultIf (valued && site.body = some .initializer) keyword .returnValueFromInitializer
      = Position.findings ⟨.departure keyword valued, around⟩ := by
  rw [h.body]
  show Findings.mk _ _ = Findings.mk _ _
  rcases hb : around.body? with _ | ⟨_ | _ | _⟩ <;> cases valued <;>
    simp [Position.row?, Position.violation?, Spot.occurrence?, Findings.faultIf, Findings.fault,
      Findings.none, hb]

end Site.Shows

mutual

/-- What is found in an expression is what is found at its positions. -/
theorem Expr.findings_eq (h : site.Shows around) :
    ∀ e : Expr, e.findings site = .atPositions (e.positions around)
  | .literal _ _ => rfl
  | .unary _ _ right => right.findings_eq h
  | .binary _ left _ right | .logical _ left _ right => by
    rw [Expr.findings, Expr.positions, Findings.atPositions_append, left.findings_eq h,
      right.findings_eq h]
  | .grouping _ inner => inner.findings_eq h
  | .var id name => by
    rw [Expr.findings, Expr.positions, Findings.atPositions_single, h.read]
  | .assign id name value => by
    rw [Expr.findings, Expr.positions, Findings.atPositions_append, Findings.atPositions_single,
      value.findings_eq h, h.assignment]
  | .call _ callee _ arguments => by
    rw [Expr.findings, Expr.positions, Findings.atPositions_append, callee.findings_eq h,
      Expr.findingsEach_eq h arguments]
  | .get _ object _ => object.findings_eq h
  | .set _ object _ value => by
    rw [Expr.findings, Expr.positions, Findings.atPositions_append, object.findings_eq h,
      value.findings_eq h]
  | .this id keyword => by
    rw [Expr.positions, Findings.atPositions_single, h.this]
  | .super id keyword method => by
    rw [Expr.positions, Findings.atPositions_single, h.super]

theorem Expr.findingsEach_eq (h : site.Shows around) :
    ∀ es : List Expr, Expr.findingsEach site es = .atPositions (Expr.positionsEach around es)
  | [] => rfl
  | e :: rest => by
    rw [Expr.findingsEach, Expr.positionsEach, Findings.atPositions_append, e.findings_eq h,
      Expr.findingsEach_eq h rest]

end

theorem Expr.findingsOption_eq (h : site.Shows around) :
    ∀ e : Option Expr, Expr.findingsOption site e = .atPositions (Expr.positionsOption around e)
  | none => rfl
  | some e => e.findings_eq h

theorem Expr.selfInheritance_eq (around : Surroundings) (className : Token) :
    ∀ e : Expr, e.selfInheritance className = .atPositions (e.inheritance around className)
  | .var _ name => by
    rw [Expr.selfInheritance, Expr.inheritance, Findings.atPositions_single]
    by_cases hname : name.lexeme = className.lexeme <;>
      simp [Position.findings, Position.row?, Position.violation?, Spot.occurrence?,
        Findings.faultIf, Findings.fault, Findings.none, hname]
  | .literal _ _ | .unary _ _ _ | .binary _ _ _ _ | .logical _ _ _ _ | .grouping _ _
  | .assign _ _ _ | .call _ _ _ _ | .get _ _ _ | .set _ _ _ _ | .this _ _ | .super _ _ _ => rfl

theorem Site.ShowsAll.parameters : ∀ (names : List Token) {site : Site} {around : Surroundings},
    site.ShowsAll around → (site.declareEach names).2 = .atPositions (around.parameters names)
  | [], _, _, _ => rfl
  | name :: rest, _, _, h => by
    have hfirst := h.declare name
    rw [← Site.declareReadable_fst] at hfirst
    rw [Surroundings.parameters, Findings.atPositions_cons, ← h.declaration, ← parameters rest hfirst]
    rfl

theorem Surroundings.declareEach_append (around : Surroundings) (names more : List Token) :
    around.declareEach (names ++ more) = (around.declareEach names).declareEach more :=
  List.foldl_append

/-- What surrounds the position behind a statement. -/
theorem Stmt.showsAll_after : ∀ (s : Stmt) {site : Site} {around : Surroundings},
    site.ShowsAll around → (s.findings site).1.ShowsAll (around.declareEach s.introduces)
  | .expression _, _, _, h | .block _, _, _, h | .returnValue _ _, _, _, h => h
  | .varDecl name _, _, _, h | .classDecl name none _, _, _, h
  | .classDecl name (some _) _, _, _, h => by
    have hname := h.declare name
    rw [← Site.declareReadable_fst] at hname
    exact hname
  | .funDecl routine, _, _, h => by
    have hname := h.declare routine.name
    rw [← Site.declareReadable_fst] at hname
    exact hname
  | .ifThen _ body, _, _, h | .whileLoop _ body, _, _, h => body.showsAll_after h
  | .ifElse _ thenBranch elseBranch, _, _, h => by
    rw [Stmt.introduces, Surroundings.declareEach_append]
    exact elseBranch.showsAll_after (thenBranch.showsAll_after h)

end

mutual

/-- What is found in a statement is what is found at its positions: an induction on trees, in which the
surroundings of each part tell what the scopes around it know. -/
theorem Stmt.findings_eq : ∀ (s : Stmt) {site : Site} {around : Surroundings},
    site.ShowsAll around → (s.findings site).2 = .atPositions (s.positions around)
  | .expression value, _, _, h => value.findings_eq h.toShows
  | .varDecl name initializer, site, around, h => by
    rw [Stmt.positions, Findings.atPositions_cons, ← h.declaration,
      ← Expr.findingsOption_eq (h.initializing name)]
    rfl
  | .block body, _, _, h => Stmt.findingsEach_eq body h.enter
  | .ifThen condition body, _, _, h | .whileLoop condition body, _, _, h => by
    rw [Stmt.positions, Findings.atPositions_append, ← condition.findings_eq h.toShows,
      ← body.findings_eq h]
    rfl
  | .ifElse condition thenBranch elseBranch, _, _, h => by
    -- The second branch is looked at behind the first one, with what that declares.
    rw [Stmt.positions, Findings.atPositions_append, Findings.atPositions_append,
      ← condition.findings_eq h.toShows, ← thenBranch.findings_eq h,
      ← elseBranch.findings_eq (thenBranch.showsAll_after h)]
    rfl
  | .funDecl routine, site, around, h => by
    have hname := h.declare routine.name
    rw [← Site.declareReadable_fst] at hname
    rw [Stmt.positions, Findings.atPositions_cons, ← h.declaration, ← routine.findings_eq _ hname]
    rfl
  | .returnValue keyword value, _, _, h => by
    rw [Stmt.positions, Findings.atPositions_cons, ← h.departure, ← Expr.findingsOption_eq h.toShows]
    rfl
  | .classDecl name none methods, site, _, h => by
    have hmethods := (h.inClass name .base).enterKeyword "this"
    rw [← Site.declareReadable_fst] at hmethods
    rw [Stmt.positions, Findings.atPositions_cons, ← h.declaration,
      ← Routine.findingsEach_eq methods hmethods]
    rfl
  | .classDecl name (some ancestor) methods, site, _, h => by
    have hinside := h.inClass name .derived
    rw [← Site.declareReadable_fst] at hinside
    rw [Stmt.positions, Findings.atPositions_cons, Findings.atPositions_append,
      Findings.atPositions_append, ← h.declaration, ← Expr.selfInheritance_eq,
      ← ancestor.findings_eq hinside.toShows,
      ← Routine.findingsEach_eq methods ((hinside.enterKeyword "super").enterKeyword "this"),
      ← Findings.append_assoc, ← Findings.append_assoc]
    rfl

theorem Stmt.findingsEach_eq : ∀ (body : List Stmt) {site : Site} {around : Surroundings},
    site.ShowsAll around →
      Stmt.findingsEach site body = .atPositions (Stmt.positionsEach around body)
  | [], _, _, _ => rfl
  | s :: rest, _, _, h => by
    rw [Stmt.positionsEach, Findings.atPositions_append, ← s.findings_eq h,
      ← Stmt.findingsEach_eq rest (s.showsAll_after h)]
    rfl

theorem Routine.findings_eq (kind : BodyKind) :
    ∀ (r : Routine) {site : Site} {around : Surroundings},
      site.ShowsAll around → r.findings site kind = .atPositions (r.positions around kind)
  | .mk _ params body, _, _, h => by
    have hinside := h.enterBody kind
    rw [Routine.positions, Findings.atPositions_append, ← Site.ShowsAll.parameters params hinside,
      ← Stmt.findingsEach_eq body (hinside.declareEach params)]
    rfl

theorem Routine.findingsEach_eq :
    ∀ (methods : List Routine) {site : Site} {around : Surroundings},
      site.ShowsAll around →
        Routine.findingsEach site methods = .atPositions (Routine.positionsEach around methods)
  | [], _, _, _ => rfl
  | r :: rest, _, _, h => by
    rw [Routine.positionsEach, Findings.atPositions_append, ← r.findings_eq r.methodKind h,
      ← Routine.findingsEach_eq rest h]
    rfl

end

/-! ### Programs -/

/-- What is found in a program is what is found at its positions. -/
theorem Program.findings_eq (p : Program) : Stmt.findingsEach {} p = .atPositions p.positions :=
  Stmt.findingsEach_eq p .initial

/-- The faults of a program are those of its positions that break a rule, in their order. -/
theorem Program.faults_findings (p : Program) :
    (Stmt.findingsEach {} p).faults = p.violations := by
  rw [p.findings_eq]
  rfl

/-- Of a program in which positions break rules all faults are reported, one for each such position and
in their order, and no others; a program in which no position breaks a rule has distances. -/
theorem Program.faults_eq_violations (p : Program) :
    (∀ faults, p.distances = .error faults ↔ faults = p.violations ∧ faults ≠ [])
      ∧ ((∃ d, p.distances = .ok d) ↔ ∀ q ∈ p.positions, q.violation? = none) := by
  have hnone : p.violations = [] ↔ ∀ q ∈ p.positions, q.violation? = none :=
    List.filterMap_eq_nil_iff
  rw [Program.exists_distances_iff, ← hnone, p.faults_findings]
  refine ⟨fun faults => ?_, Iff.rfl⟩
  rw [Program.distances_eq_error_iff, p.faults_findings]

/-- The violations in `class A : A ( init() ( return this; ) ) ( var a = a; var a = super.m; ) return
this;`, with braces for the parentheses around statements and methods. -/
example : ((tokens ("class A : A \x7b init() \x7b return this; \x7d \x7d " ++
      "\x7b var a = a; var a = super.m; \x7d return this;")).toOption.bind fun ts =>
        (parseProgram {} 0 ts).result.toOption.map fun p => p.violations.map Diagnostic.text)
    = some ["[line 1] Error at 'A': A class can't inherit from itself.",
      "[line 1] Error at 'return': Can't return a value from an initializer.",
      "[line 1] Error at 'a': Can't read local variable in its own initializer.",
      "[line 1] Error at 'a': Already a variable with this name in this scope.",
      "[line 1] Error at 'super': Can't use 'super' outside of a class.",
      "[line 1] Error at 'return': Can't return from top-level code.",
      "[line 1] Error at 'this': Can't use 'this' outside of a class."] := by
  decide +kernel

end Lox
