import Lox.Proofs.Scoping.Joined
import Lox.Proofs.Scoping.Resolver

/-!
The walk that resolves names is balanced. From every state, and whatever faults it records, an
expression leaves the scopes, the function and the class as they are, and so does a statement, but
for what the innermost scope has come to bind (`balanced_resolveStmt`). Every scope that is begun is
ended, the two of a class with a superclass too, and a part that ends early has begun none.
-/

namespace Lox.Resolver

/-- What surrounds the place that the walk has reached. -/
def State.site (s : State) : Site where
  scopes := s.scopes
  body := s.body
  classBody := s.classBody

/-- From every state the walk comes back to the scopes, the function and the class it starts from,
but for what the innermost scope has come to bind. -/
def Balanced (walk : Resolving Unit) : Prop :=
  ∀ s : State, s.site.Returns (after walk s).site

/-- From every state the walk leaves the scopes, the function and the class as they are. -/
def Still (walk : Resolving Unit) : Prop :=
  ∀ s : State, (after walk s).site = s.site

variable {walk next : Resolving Unit}

/-! ### One step after another -/

theorem Still.balanced (h : Still walk) : Balanced walk := by
  intro s
  rw [h s]
  exact .refl s.site

theorem Still.pure : Still (pure ()) := fun _ => rfl

theorem Still.seq (h : Still walk) (h' : Still next) : Still (do walk; next) := fun s =>
  (h' (after walk s)).trans (h s)

theorem Balanced.seq (h : Balanced walk) (h' : Balanced next) : Balanced (do walk; next) := fun s =>
  (h s).trans (h' (after walk s))

theorem Still.get {step : State → Resolving Unit} (h : ∀ s : State, Still (step s)) :
    Still (do step (← get)) := fun s => h s s

theorem Still.ite {p : Prop} [Decidable p] (h : Still walk) (h' : Still next) :
    Still (if p then walk else next) := by
  split
  · exact h
  · exact h'

/-- A walk in a scope of its own. -/
def inScope (walk : Resolving Unit) : Resolving Unit := do
  beginScope
  walk
  endScope

/-- What the innermost scope has come to bind goes with it. -/
theorem Balanced.inScope (h : Balanced walk) : Still (inScope walk) := by
  intro s
  have hreturns := h (after beginScope s)
  have houter : (after walk (after beginScope s)).scopes.tail = s.scopes := hreturns.outer
  have hbody : (after walk (after beginScope s)).body = s.body := hreturns.body
  have hclass : (after walk (after beginScope s)).classBody = s.classBody := hreturns.classBody
  show Site.mk _ _ _ = Site.mk _ _ _
  rw [Site.mk.injEq]
  exact ⟨houter, hbody, hclass⟩

/-! ### Scopes and names -/

theorem after_declare (name : Token) (s : State) :
    after (declare name) s = if s.site.bindsHere name then after (record name .alreadyDeclared) s
      else after (bindInnermost name.lexeme false) s := by
  obtain ⟨scopes, distances, body, classBody, faults⟩ := s
  cases scopes with
  | nil => rfl
  | cons scope outer =>
    cases hbinds : scope.binds name.lexeme <;>
      simp [declare, after, State.site, Site.bindsHere, hbinds]

theorem still_record (token : Token) (cause : StaticFault) : Still (record token cause) := fun _ =>
  rfl

theorem balanced_bindInnermost (name : String) (readable : Bool) :
    Balanced (bindInnermost name readable) := by
  rintro ⟨scopes, distances, body, classBody, faults⟩
  cases scopes with
  | nil => exact .refl _
  | cons scope outer => exact ⟨rfl, rfl, rfl, rfl⟩

theorem balanced_declare (name : Token) : Balanced (declare name) := by
  intro s
  rw [after_declare]
  split
  · exact (still_record name .alreadyDeclared).balanced s
  · exact balanced_bindInnermost name.lexeme false s

theorem balanced_define (name : Token) : Balanced (define name) :=
  balanced_bindInnermost name.lexeme true

theorem still_recordNearest (id : Nat) (name : Token) (scopes : List (Bindings Bool)) :
    ∀ distance : Nat, Still (recordNearest id name distance scopes) := by
  induction scopes with
  | nil => exact fun _ => .pure
  | cons scope outer ih =>
    intro distance s
    rw [recordNearest]
    split
    · rfl
    · exact ih (distance + 1) s

theorem still_resolveLocal (id : Nat) (name : Token) : Still (resolveLocal id name) := fun s =>
  still_recordNearest id name s.scopes 0 s

theorem still_resolveVariable (id : Nat) (name : Token) : Still (resolveVariable id name) :=
  .get fun _ => .ite ((still_record name .readInOwnInitializer).seq (still_resolveLocal id name))
    (still_resolveLocal id name)

theorem still_resolveThis (id : Nat) (keyword : Token) : Still (resolveThis id keyword) :=
  .get fun _ => .ite (still_record keyword .thisOutsideClass) (still_resolveLocal id keyword)

theorem still_resolveSuper (id : Nat) (keyword : Token) : Still (resolveSuper id keyword) := by
  refine .get fun s => ?_
  cases s.classBody with
  | none => exact still_record keyword .superOutsideClass
  | some kind =>
    cases kind with
    | base => exact still_record keyword .superWithoutSuperclass
    | derived => exact still_resolveLocal id keyword

/-! ### Expressions -/

mutual

/-- Whatever is found in an expression, what surrounds it is the same behind it. -/
theorem still_resolveExpr : ∀ e : Expr, Still (resolveExpr e)
  | .literal _ _ => .pure
  | .grouping _ inner => still_resolveExpr inner
  | .unary _ _ right => still_resolveExpr right
  | .binary _ left _ right | .logical _ left _ right =>
    (still_resolveExpr left).seq (still_resolveExpr right)
  | .var id name => still_resolveVariable id name
  | .assign id name value => (still_resolveExpr value).seq (still_resolveLocal id name)
  | .call _ callee _ arguments => (still_resolveExpr callee).seq (still_resolveExprs arguments)
  | .get _ object _ => still_resolveExpr object
  | .set _ object _ value => (still_resolveExpr value).seq (still_resolveExpr object)
  | .this id keyword => still_resolveThis id keyword
  | .super id keyword _ => still_resolveSuper id keyword

theorem still_resolveExprs : ∀ es : List Expr, Still (resolveExprs es)
  | [] => .pure
  | e :: rest => (still_resolveExpr e).seq (still_resolveExprs rest)

end

/-! ### Statements -/

theorem still_resolveReturn (keyword : Token) (value : Option Expr) :
    Still (resolveReturn keyword value) := by
  cases value with
  | none => exact .get fun _ => .ite (still_record keyword .returnAtTopLevel) .pure
  | some e =>
    have hvalue : Still (do
        if (← get).body == some .initializer then
          record keyword .returnValueFromInitializer
        resolveExpr e) :=
      .get fun _ => .ite
        ((still_record keyword .returnValueFromInitializer).seq (still_resolveExpr e))
        (still_resolveExpr e)
    exact .get fun _ => .ite ((still_record keyword .returnAtTopLevel).seq hvalue) hvalue

theorem balanced_parameters (params : List Token) :
    Balanced (params.forM fun name => do declare name; define name) := by
  induction params with
  | nil => exact Still.pure.balanced
  | cons name rest ih => exact ((balanced_declare name).seq (balanced_define name)).seq ih

/-- The scope of a function is ended, and the function around it is put back. -/
theorem still_resolveFunction (kind : BodyKind) (params : List Token) (h : Balanced walk) :
    Still (resolveFunction kind params walk) := by
  intro s
  have hinside := ((balanced_parameters params).seq h).inScope { s with body := some kind }
  obtain ⟨hscopes, -, hclass⟩ := Site.mk.inj hinside
  show Site.mk _ _ _ = Site.mk _ _ _
  rw [Site.mk.injEq]
  exact ⟨hscopes, rfl, hclass⟩

theorem still_checkAncestor (className : Token) (ancestor : Expr) :
    Still (checkAncestor className ancestor) := by
  cases ancestor with
  | var id name => exact .ite (still_record name .inheritsFromItself) .pure
  | _ => exact .pure

/-- One scope is ended for a class without a superclass and two for one with a superclass, and the
class around it is put back. -/
theorem balanced_resolveClass (name : Token) (superclass : Option Expr) (h : Balanced walk) :
    Balanced (resolveClass name superclass walk) := by
  intro s
  have hname := (balanced_declare name).seq (balanced_define name)
  have hmethods : Still (inScope do defineKeyword "this"; walk) :=
    ((balanced_bindInnermost "this" true).seq h).inScope
  cases superclass with
  | none =>
    have hall := hname.seq hmethods.balanced { s with classBody := some .base }
    exact ⟨hall.body, rfl, hall.depth, hall.outer⟩
  | some ancestor =>
    let named := after (do declare name; define name; checkAncestor name ancestor)
      { s with classBody := some .base }
    have hnamed : Site.Returns { s.site with classBody := some .base } named.site :=
      hname.seq (still_checkAncestor name ancestor).balanced { s with classBody := some .base }
    have hinside : Still (do
        resolveExpr ancestor
        inScope do defineKeyword "super"; inScope do defineKeyword "this"; walk) :=
      (still_resolveExpr ancestor).seq
        ((balanced_bindInnermost "super" true).seq hmethods.balanced).inScope
    have hlast := hinside.balanced { named with classBody := some .derived }
    exact ⟨hlast.body.trans hnamed.body, rfl, hlast.depth.trans hnamed.depth,
      hlast.outer.trans hnamed.outer⟩

mutual

/-- Whatever is found in a statement, what surrounds it is the same behind it, but for what the
innermost scope has come to bind. -/
theorem balanced_resolveStmt : ∀ s : Stmt, Balanced (resolveStmt s)
  | .block body => (balanced_resolveStmts body).inScope.balanced
  | .varDecl name none => (balanced_declare name).seq (balanced_define name)
  | .varDecl name (some e) =>
    (balanced_declare name).seq ((still_resolveExpr e).balanced.seq (balanced_define name))
  | .funDecl routine =>
    (balanced_declare routine.name).seq
      ((balanced_define routine.name).seq (still_resolveRoutine .function routine).balanced)
  | .expression value => (still_resolveExpr value).balanced
  | .ifThen condition thenBranch =>
    (still_resolveExpr condition).balanced.seq (balanced_resolveStmt thenBranch)
  | .ifElse condition thenBranch elseBranch =>
    (still_resolveExpr condition).balanced.seq
      ((balanced_resolveStmt thenBranch).seq (balanced_resolveStmt elseBranch))
  | .whileLoop condition body =>
    (still_resolveExpr condition).balanced.seq (balanced_resolveStmt body)
  | .returnValue keyword value => (still_resolveReturn keyword value).balanced
  | .classDecl name superclass methods =>
    balanced_resolveClass name superclass (still_resolveMethods methods).balanced

theorem balanced_resolveStmts : ∀ body : List Stmt, Balanced (resolveStmts body)
  | [] => Still.pure.balanced
  | s :: rest => (balanced_resolveStmt s).seq (balanced_resolveStmts rest)

theorem still_resolveRoutine (kind : BodyKind) : ∀ r : Routine, Still (resolveRoutine kind r)
  | .mk _ params body => still_resolveFunction kind params (balanced_resolveStmts body)

theorem still_resolveMethods : ∀ rs : List Routine, Still (resolveMethods rs)
  | [] => .pure
  | r :: rest => (still_resolveRoutine _ r).seq (still_resolveMethods rest)

end

/-- Behind a whole program nothing is left of what surrounded its parts. -/
theorem site_after_resolveStmts (p : Program) : (after (resolveStmts p) {}).site = {} :=
  (balanced_resolveStmts p {}).eq_initial

end Lox.Resolver
