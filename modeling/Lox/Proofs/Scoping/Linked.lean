import Lox.Program.Scoping
import Lox.Proofs.Tree.Proper

/-!
Linked trees: every occurrence of a name has the distance that the scopes around it ask for, and
none that the scopes around it do not know has one. `Expr.Linked` and `Stmt.Linked` say so for a
table of distances and the scopes around a tree, and also what else keeps the table and the running
program in step: a name is declared once in a scope, and not read before it may be.
-/

namespace Lox

/-- The distances in use, which say something about the expressions with numbers below `bound`, and
nothing about others. -/
structure Table where
  distances : Distances
  bound : Nat
  fresh : ∀ id, bound ≤ id → distances[id]? = none

namespace Table

/-- The table before any program has been read. -/
def empty (bound : Nat) : Table := ⟨∅, bound, fun _ _ => by simp⟩

/-- The table is meant to say something about this expression, and says this. -/
def Gives (t : Table) (id : Nat) (distance : Option Nat) : Prop :=
  id < t.bound ∧ t.distances[id]? = distance

/-- The table says about the expressions with these numbers what the list says, in which the last
entry for a number counts. -/
def Records (t : Table) (ids : List Nat) (found : List (Nat × Nat)) : Prop :=
  ∀ id ∈ ids, t.Gives id (found.reverse.lookup id)

/-- The second table says what the first one says, and maybe more. -/
structure Le (t t' : Table) : Prop where
  bound : t.bound ≤ t'.bound
  same : ∀ id < t.bound, t'.distances[id]? = t.distances[id]?

theorem Le.refl (t : Table) : t.Le t := ⟨Nat.le_refl _, fun _ _ => rfl⟩

/-- The table with more numbers that it says nothing about. -/
def extend (t : Table) (bound : Nat) (h : t.bound ≤ bound) : Table :=
  ⟨t.distances, bound, fun id hid => t.fresh id (Nat.le_trans h hid)⟩

theorem le_extend (t : Table) {bound : Nat} (h : t.bound ≤ bound) : t.Le (t.extend bound h) :=
  ⟨h, fun _ _ => rfl⟩

theorem Gives.mono {t t' : Table} (ht : t.Le t') {id : Nat} {distance : Option Nat}
    (h : t.Gives id distance) : t'.Gives id distance :=
  ⟨Nat.lt_of_lt_of_le h.1 ht.bound, (ht.same id h.1).trans h.2⟩

end Table

namespace Site

/-- The number of scopes to go outward to the nearest one that binds a name. -/
def distanceOf? (site : Site) (name : String) : Option Nat :=
  site.scopes.findIdx? (·.binds name)

/-- The nearest scope that binds a name, if there is one, says that it may be read. -/
def MayRead (site : Site) (name : String) : Prop :=
  site.scopes.findSome? (·.get? name) ≠ some false

end Site

/-! ### Declaring a name -/

theorem Bindings.set_set {α : Type} (b : Bindings α) (name : String) (x y : α) :
    (b.set name x).set name y = b.set name y := by
  induction b with
  | nil => simp [set]
  | cons entry rest ih =>
    obtain ⟨key, old⟩ := entry
    by_cases h : key = name <;> simp [set, h, ih]

namespace Site

variable {site : Site} {name : Token}

theorem bind_bind (site : Site) (name : Token) (r r' : Bool) :
    (site.bind name r).bind name r' = site.bind name r' := by
  unfold bind
  cases hs : site.scopes with
  | nil => simp [hs]
  | cons scope outer => simp [Bindings.set_set]

/-- The scopes after a name has been declared in the innermost of them. -/
theorem bind_scopes (site : Site) (name : Token) (r : Bool) :
    (site.bind name r).scopes = match site.scopes with
      | [] => []
      | scope :: outer => scope.set name.lexeme r :: outer := by
  cases hs : site.scopes <;> simp [Site.bind, hs]

/-- Whatever has been declared before, a name may be read from its declaration on. -/
theorem declareReadable_fst (site : Site) (name : Token) :
    (site.declareReadable name).1 = site.bind name true := by
  unfold declareReadable declare
  cases site.bindsHere name with
  | true => rfl
  | false => exact bind_bind site name false true

theorem declareEach_fst (site : Site) (names : List Token) :
    (site.declareEach names).1 = names.foldl (fun site name => site.bind name true) site := by
  induction names generalizing site with
  | nil => rfl
  | cons name rest ih =>
    rw [declareEach, List.foldl_cons, ← declareReadable_fst]
    exact ih _

/-- The name may be declared in the innermost scope. -/
def Admits (site : Site) (name : Token) : Prop :=
  name.IsName ∧ site.bindsHere name = false

theorem declare_of_admits (h : site.Admits name) :
    site.declare name = (site.bind name false, .none) := by
  simp [declare, h.2]

theorem declareReadable_of_admits (h : site.Admits name) :
    site.declareReadable name = (site.bind name true, .none) := by
  simp [declareReadable, declare_of_admits h, bind_bind]

end Site

/-! ### Linked expressions -/

mutual

/-- The names in an expression have the distances that the scopes around it ask for. -/
def Expr.Linked (t : Table) (site : Site) : Expr → Prop
  | .literal _ _ => True
  | .unary _ _ right => right.Linked t site
  | .binary _ left _ right | .logical _ left _ right => left.Linked t site ∧ right.Linked t site
  | .grouping _ inner => inner.Linked t site
  | .var id name =>
    name.IsName ∧ t.Gives id (site.distanceOf? name.lexeme) ∧ site.MayRead name.lexeme
  | .assign id name value =>
    name.IsName ∧ value.Linked t site ∧ t.Gives id (site.distanceOf? name.lexeme)
  | .call _ callee _ arguments => callee.Linked t site ∧ Expr.LinkedEach t site arguments
  | .get _ object _ => object.Linked t site
  | .set _ object _ value => object.Linked t site ∧ value.Linked t site
  | .this id keyword =>
    keyword.lexeme = "this" ∧ site.MayRead "this"
      ∧ ∃ d, t.Gives id (some d) ∧ site.distanceOf? "this" = some d
  | .super id keyword _ =>
    keyword.lexeme = "super" ∧ site.MayRead "super" ∧ site.MayRead "this"
      ∧ ∃ d, t.Gives id (some (d + 1)) ∧ site.distanceOf? "super" = some (d + 1)
        ∧ site.distanceOf? "this" = some d

/-- The names in expressions have the distances that the scopes around them ask for. -/
def Expr.LinkedEach (t : Table) (site : Site) : List Expr → Prop
  | [] => True
  | e :: rest => e.Linked t site ∧ Expr.LinkedEach t site rest

end

/-- The names in an expression that may be missing have the distances that are asked for. -/
def Expr.LinkedOption (t : Table) (site : Site) : Option Expr → Prop
  | none => True
  | some e => e.Linked t site

/-! ### Linked statements -/

/-- What surrounds the statement after this one. -/
def Stmt.after (site : Site) : Stmt → Site
  | .varDecl name _ | .classDecl name _ _ => (site.declareReadable name).1
  | .funDecl routine => (site.declareReadable routine.name).1
  | _ => site

mutual

/-- The names in a statement have the distances that the scopes around it ask for. -/
def Stmt.Linked (t : Table) (site : Site) : Stmt → Prop
  | .expression value => value.Linked t site
  | .varDecl name initializer =>
    site.Admits name ∧ Expr.LinkedOption t (site.declare name).1 initializer
  | .block body => Stmt.LinkedEach t (site.enter []) body
  | .ifThen condition thenBranch =>
    condition.Linked t site ∧ thenBranch.Linked t site ∧ thenBranch.declares = false
  | .ifElse condition thenBranch elseBranch =>
    condition.Linked t site ∧ (thenBranch.Linked t site ∧ thenBranch.declares = false)
      ∧ elseBranch.Linked t site ∧ elseBranch.declares = false
  | .whileLoop condition body =>
    condition.Linked t site ∧ body.Linked t site ∧ body.declares = false
  | .funDecl routine =>
    site.Admits routine.name
      ∧ routine.Linked t (site.declareReadable routine.name).1 .function
  | .returnValue _ value => Expr.LinkedOption t site value
  | .classDecl name superclass methods =>
    site.Admits name ∧
      match superclass with
      | none =>
        let inside := { (site.declareReadable name).1 with classBody := some .base }
        Routine.LinkedEach t (inside.enter Site.thisScope) methods
      | some ancestor =>
        let inside := { (site.declareReadable name).1 with classBody := some .derived }
        ancestor.Linked t site
          ∧ Routine.LinkedEach t ((inside.enter Site.superScope).enter Site.thisScope) methods

/-- The names in statements, each of which sees what those before it declare, have the distances
that the scopes around them ask for. -/
def Stmt.LinkedEach (t : Table) (site : Site) : List Stmt → Prop
  | [] => True
  | s :: rest => s.Linked t site ∧ Stmt.LinkedEach t (s.after site) rest

/-- The names in a function or method have the distances that the scopes around it ask for. -/
def Routine.Linked (t : Table) (site : Site) (kind : BodyKind) : Routine → Prop
  | .mk _ params body =>
    let inside := { site with body := some kind }
    (∀ p ∈ params, p.IsName) ∧ (params.map Token.lexeme).Nodup
      ∧ Stmt.LinkedEach t ((inside.enter []).declareEach params).1 body

/-- The names in methods have the distances that the scopes around them ask for. -/
def Routine.LinkedEach (t : Table) (site : Site) : List Routine → Prop
  | [] => True
  | r :: rest => r.Linked t site r.methodKind ∧ Routine.LinkedEach t site rest

end

theorem Expr.LinkedEach.of_mem {t : Table} {site : Site} {es : List Expr}
    (h : Expr.LinkedEach t site es) {e : Expr} (he : e ∈ es) : e.Linked t site := by
  induction es with
  | nil => cases he
  | cons first rest ih =>
    rcases List.mem_cons.1 he with rfl | he
    · exact h.1
    · exact ih h.2 he

theorem Routine.linked_iff {t : Table} {site : Site} {kind : BodyKind} {r : Routine} :
    r.Linked t site kind ↔ (∀ p ∈ r.params, p.IsName) ∧ (r.params.map Token.lexeme).Nodup
      ∧ Stmt.LinkedEach t (({ site with body := some kind }.enter []).declareEach r.params).1
        r.body := by
  cases r
  rfl

theorem Routine.LinkedEach.of_mem {t : Table} {site : Site} {rs : List Routine}
    (h : Routine.LinkedEach t site rs) {r : Routine} (hr : r ∈ rs) : r.Linked t site r.methodKind := by
  induction rs with
  | nil => cases hr
  | cons first rest ih =>
    rcases List.mem_cons.1 hr with rfl | hr
    · exact h.1
    · exact ih h.2 hr

/-! ### More distances -/

section

variable {t t' : Table}

mutual

/-- A linked expression stays so when the table says more. -/
theorem Expr.Linked.mono (ht : t.Le t') {site : Site} :
    ∀ {e : Expr}, e.Linked t site → e.Linked t' site
  | .literal _ _, _ => trivial
  | .unary _ _ right, h => by
    rw [Expr.Linked] at h ⊢
    exact Expr.Linked.mono ht h
  | .binary _ left _ right, h | .logical _ left _ right, h => by
    rw [Expr.Linked] at h ⊢
    exact ⟨Expr.Linked.mono ht h.1, Expr.Linked.mono ht h.2⟩
  | .grouping _ inner, h => by
    rw [Expr.Linked] at h ⊢
    exact Expr.Linked.mono ht h
  | .var id name, h => by
    rw [Expr.Linked] at h ⊢
    exact ⟨h.1, h.2.1.mono ht, h.2.2⟩
  | .assign id name value, h => by
    rw [Expr.Linked] at h ⊢
    exact ⟨h.1, Expr.Linked.mono ht h.2.1, h.2.2.mono ht⟩
  | .call _ callee _ arguments, h => by
    rw [Expr.Linked] at h ⊢
    exact ⟨Expr.Linked.mono ht h.1, Expr.LinkedEach.mono ht h.2⟩
  | .get _ object _, h => by
    rw [Expr.Linked] at h ⊢
    exact Expr.Linked.mono ht h
  | .set _ object _ value, h => by
    rw [Expr.Linked] at h ⊢
    exact ⟨Expr.Linked.mono ht h.1, Expr.Linked.mono ht h.2⟩
  | .this id keyword, h => by
    rw [Expr.Linked] at h ⊢
    obtain ⟨hk, hr, d, hg, hd⟩ := h
    exact ⟨hk, hr, d, hg.mono ht, hd⟩
  | .super id keyword _, h => by
    rw [Expr.Linked] at h ⊢
    obtain ⟨hk, hr, hr', d, hg, hd⟩ := h
    exact ⟨hk, hr, hr', d, hg.mono ht, hd⟩

theorem Expr.LinkedEach.mono (ht : t.Le t') {site : Site} :
    ∀ {es : List Expr}, Expr.LinkedEach t site es → Expr.LinkedEach t' site es
  | [], _ => trivial
  | _ :: _, h => ⟨Expr.Linked.mono ht h.1, Expr.LinkedEach.mono ht h.2⟩

end

theorem Expr.LinkedOption.mono (ht : t.Le t') {site : Site} :
    ∀ {e : Option Expr}, Expr.LinkedOption t site e → Expr.LinkedOption t' site e
  | none, _ => trivial
  | some _, h => Expr.Linked.mono ht h

mutual

/-- A linked statement stays so when the table says more. -/
theorem Stmt.Linked.mono (ht : t.Le t') {site : Site} :
    ∀ {s : Stmt}, s.Linked t site → s.Linked t' site
  | .expression value, h => by
    rw [Stmt.Linked] at h ⊢
    exact h.mono ht
  | .varDecl name initializer, h => by
    rw [Stmt.Linked] at h ⊢
    exact ⟨h.1, h.2.mono ht⟩
  | .block body, h => by
    rw [Stmt.Linked] at h ⊢
    exact Stmt.LinkedEach.mono ht h
  | .ifThen condition thenBranch, h | .whileLoop condition thenBranch, h => by
    rw [Stmt.Linked] at h ⊢
    exact ⟨h.1.mono ht, Stmt.Linked.mono ht h.2.1, h.2.2⟩
  | .ifElse condition thenBranch elseBranch, h => by
    rw [Stmt.Linked] at h ⊢
    obtain ⟨hc, ⟨hthen, hd⟩, helse, hd'⟩ := h
    exact ⟨hc.mono ht, ⟨Stmt.Linked.mono ht hthen, hd⟩, Stmt.Linked.mono ht helse, hd'⟩
  | .funDecl routine, h => by
    rw [Stmt.Linked] at h ⊢
    exact ⟨h.1, Routine.Linked.mono ht h.2⟩
  | .returnValue _ value, h => by
    rw [Stmt.Linked] at h ⊢
    exact h.mono ht
  | .classDecl name none methods, h => by
    rw [Stmt.Linked] at h ⊢
    exact ⟨h.1, Routine.LinkedEach.mono ht h.2⟩
  | .classDecl name (some ancestor) methods, h => by
    rw [Stmt.Linked] at h ⊢
    exact ⟨h.1, h.2.1.mono ht, Routine.LinkedEach.mono ht h.2.2⟩

theorem Stmt.LinkedEach.mono (ht : t.Le t') {site : Site} :
    ∀ {body : List Stmt}, Stmt.LinkedEach t site body → Stmt.LinkedEach t' site body
  | [], _ => trivial
  | _ :: _, h => ⟨Stmt.Linked.mono ht h.1, Stmt.LinkedEach.mono ht h.2⟩

theorem Routine.Linked.mono (ht : t.Le t') {site : Site} {kind : BodyKind} :
    ∀ {r : Routine}, r.Linked t site kind → r.Linked t' site kind
  | .mk _ _ _, h => by
    rw [Routine.Linked] at h ⊢
    exact ⟨h.1, h.2.1, Stmt.LinkedEach.mono ht h.2.2⟩

theorem Routine.LinkedEach.mono (ht : t.Le t') {site : Site} :
    ∀ {rs : List Routine}, Routine.LinkedEach t site rs → Routine.LinkedEach t' site rs
  | [], _ => trivial
  | _ :: _, h => ⟨Routine.Linked.mono ht h.1, Routine.LinkedEach.mono ht h.2⟩

end

end

end Lox
