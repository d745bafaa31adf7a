import Lox.Proofs.Execution.Code
import Lox.Proofs.Scoping.Tables

/-!
Code that scoping accepts. A statement is accepted in the body of a function of some kind, or outside of
all functions, if the grammar gives it and no fault is found in it there; so are then all statements and
functions in it (`Code.accepted`). A `return` is not accepted outside of all functions, and with a value
not in an initializer (`Stmt.Accepted.returnValue`).
-/

namespace Lox

/-- The grammar gives the statement, and no fault is found in it where it stands in a function of this
kind, or in none. -/
def Stmt.Accepted (body : Option BodyKind) (s : Stmt) : Prop :=
  s.Proper ∧ ∃ site : Site, site.body = body ∧ (s.findings site).2.faults = []

/-- The grammar gives the function or method, and no fault is found in it as one of this kind. -/
def Routine.Accepted (kind : BodyKind) (r : Routine) : Prop :=
  r.Proper ∧ ∃ site : Site, (r.findings site kind).faults = []

/-! ### What stands in a proper tree -/

theorem Expr.ProperEach.of_mem {es : List Expr} (h : Expr.ProperEach es) {e : Expr} (he : e ∈ es) :
    e.Proper := by
  induction es with
  | nil => cases he
  | cons first rest ih =>
    rcases List.mem_cons.1 he with rfl | he
    · exact h.1
    · exact ih h.2 he

theorem Expr.Proper.inner {e e' : Expr} (h : e.Proper) (he : e' ∈ e.inner) : e'.Proper := by
  cases e with
  | literal | var | this | super => cases he
  | unary id operator inner | grouping id inner | get id inner name =>
    cases List.mem_singleton.1 he
    exact h
  | assign id name inner =>
    cases List.mem_singleton.1 he
    exact h.2
  | binary id left operator right | logical id left operator right | set id left operator right =>
    have he : e' = left ∨ e' = right := by simpa [Expr.inner] using he
    rcases he with rfl | rfl
    · exact h.1
    · exact h.2
  | call id callee paren arguments =>
    rcases List.mem_cons.1 he with rfl | he
    · exact h.1
    · exact h.2.of_mem he

theorem Stmt.Proper.evaluated {s : Stmt} {e : Expr} (h : s.Proper) (he : e ∈ s.evaluated) :
    e.Proper := by
  have hoption {e? : Option Expr} (hp : Expr.ProperOption e?) (hmem : e ∈ e?.toList) :
      e.Proper := by
    cases e? with
    | none => cases hmem
    | some e' =>
      cases List.mem_singleton.1 hmem
      exact hp
  cases s with
  | block | funDecl => cases he
  | expression value =>
    cases List.mem_singleton.1 he
    exact h
  | ifThen condition s | whileLoop condition s | ifElse condition s s' =>
    cases List.mem_singleton.1 he
    exact h.1
  | varDecl name initializer => exact hoption h.2 he
  | returnValue keyword value => exact hoption h he
  | classDecl name superclass methods =>
    cases superclass with
    | none => cases he
    | some ancestor =>
      cases List.mem_singleton.1 he
      obtain ⟨id, name, rfl, hname⟩ := h.2.1
      exact hname

/-! ### What is accepted in a part -/

section

variable {body : Option BodyKind} {site : Site} {s s' : Stmt}

/-- A statement leaves what surrounds it in the same function. -/
theorem Stmt.body_after (site : Site) (s : Stmt) : (s.after site).body = site.body := by
  cases s with
  | varDecl name | funDecl routine | classDecl name =>
    rw [after, Site.declareReadable_fst, Site.bind_body]
  | _ => rfl

/-- So do the parameters of a function. -/
theorem Site.declareEach_body (site : Site) (names : List Token) :
    (site.declareEach names).1.body = site.body := by
  rw [declareEach_fst]
  induction names generalizing site with
  | nil => rfl
  | cons name rest ih => exact (ih (site.bind name true)).trans (site.bind_body name true)

theorem Stmt.acceptedEach {body : List Stmt} (hp : Stmt.ProperEach body)
    (h : (Stmt.findingsEach site body).faults = []) : ∀ s ∈ body, s.Accepted site.body := by
  induction body generalizing site with
  | nil => simp
  | cons first rest ih =>
    obtain ⟨hfirst, hrest⟩ := List.append_eq_nil_iff.1 h
    have hbody : (first.findings site).1.body = site.body := by
      rw [Stmt.findings_fst site hp.1, Stmt.body_after]
    intro s hs
    rcases List.mem_cons.1 hs with rfl | hs
    · exact ⟨hp.1, site, rfl, hfirst⟩
    · rw [← hbody]
      exact ih hp.2 hrest s hs

theorem Routine.acceptedEach {rs : List Routine} (hp : Routine.ProperEach rs)
    (h : (Routine.findingsEach site rs).faults = []) : ∀ r ∈ rs, r.Accepted r.methodKind := by
  induction rs with
  | nil => simp
  | cons first rest ih =>
    obtain ⟨hfirst, hrest⟩ := List.append_eq_nil_iff.1 h
    intro r hr
    rcases List.mem_cons.1 hr with rfl | hr
    · exact ⟨hp.1, site, hfirst⟩
    · exact ih hp.2 hrest r hr

/-- The statements in a statement stand in the same function. -/
theorem Stmt.Accepted.executed (h : s.Accepted body) (hmem : s' ∈ s.executed) :
    s'.Accepted body := by
  obtain ⟨hp, site, rfl, hfaults⟩ := h
  cases s with
  | expression | varDecl | funDecl | returnValue | classDecl => cases hmem
  | block statements => exact @Stmt.acceptedEach (site.enter []) statements hp hfaults s' hmem
  | ifThen condition inner | whileLoop condition inner =>
    cases List.mem_singleton.1 hmem
    obtain ⟨-, hfaults⟩ := List.append_eq_nil_iff.1 hfaults
    exact ⟨hp.2.1, site, rfl, hfaults⟩
  | ifElse condition thenBranch elseBranch =>
    obtain ⟨hfaults, helse⟩ := List.append_eq_nil_iff.1 hfaults
    obtain ⟨-, hthen⟩ := List.append_eq_nil_iff.1 hfaults
    have hmem : s' = thenBranch ∨ s' = elseBranch := by simpa [Stmt.executed] using hmem
    rcases hmem with rfl | rfl
    · exact ⟨hp.2.1.1, site, rfl, hthen⟩
    · refine ⟨hp.2.2.1, (thenBranch.findings site).1, ?_, helse⟩
      rw [Stmt.findings_fst site hp.2.1.1, Stmt.body_after]

/-- A `return` stands in a function, and one with a value in none that is an initializer. -/
theorem Stmt.Accepted.returnValue {keyword : Token} {value : Option Expr}
    (h : (Stmt.returnValue keyword value).Accepted body) :
    ∃ kind, body = some kind ∧ (kind = .initializer → value = none) := by
  obtain ⟨-, site, rfl, hfaults⟩ := h
  obtain ⟨hfaults, -⟩ := List.append_eq_nil_iff.1 hfaults
  obtain ⟨hplace, hvalue⟩ := List.append_eq_nil_iff.1 hfaults
  have hplace := Findings.eq_false_of_faultIf hplace
  have hvalue := Findings.eq_false_of_faultIf hvalue
  cases hbody : site.body with
  | none => simp [hbody] at hplace
  | some kind =>
    refine ⟨kind, rfl, ?_⟩
    rintro rfl
    simpa [hbody] using hvalue

theorem Stmt.Accepted.funDecl {r : Routine} (h : (Stmt.funDecl r).Accepted body) :
    r.Accepted .function := by
  obtain ⟨hp, site, -, hfaults⟩ := h
  obtain ⟨-, hfaults⟩ := List.append_eq_nil_iff.1 hfaults
  exact ⟨hp, _, hfaults⟩

theorem Stmt.Accepted.classDecl {name : Token} {superclass : Option Expr} {methods : List Routine}
    (h : (Stmt.classDecl name superclass methods).Accepted body) :
    ∀ r ∈ methods, r.Accepted r.methodKind := by
  obtain ⟨hp, site, -, hfaults⟩ := h
  cases superclass with
  | none =>
    obtain ⟨-, hfaults⟩ := List.append_eq_nil_iff.1 hfaults
    exact Routine.acceptedEach hp.2.2 hfaults
  | some ancestor =>
    obtain ⟨-, hfaults⟩ := List.append_eq_nil_iff.1 hfaults
    exact Routine.acceptedEach hp.2.2 hfaults

end

namespace Routine.Accepted

variable {kind : BodyKind} {r : Routine}

theorem body (h : r.Accepted kind) : ∀ s ∈ r.body, s.Accepted (some kind) := by
  obtain ⟨hp, site, hfaults⟩ := h
  cases r with
  | mk name params body =>
    obtain ⟨-, hfaults⟩ := List.append_eq_nil_iff.1 hfaults
    have hinside : ((({ site with body := some kind } : Site).enter []).declareEach params).1.body
        = some kind := by
      rw [Site.declareEach_body]
      rfl
    rw [← hinside]
    exact Stmt.acceptedEach hp.2.2 hfaults

/-- No two parameters have one name. -/
theorem params (h : r.Accepted kind) : (r.params.map Token.lexeme).Nodup := by
  obtain ⟨hp, site, hfaults⟩ := h
  cases r with
  | mk name params body =>
    obtain ⟨hfaults, -⟩ := List.append_eq_nil_iff.1 hfaults
    exact (Site.distinct_of_faults rfl hfaults).1

end Routine.Accepted

/-! ### Accepted code -/

/-- The statements that are accepted somewhere, and the functions and methods in them: a function is called
as an initializer if it is accepted as one, and a class has a method under the name of the method. -/
def Code.accepted : Code where
  expr := Expr.Proper
  stmt s := ∃ body, s.Accepted body
  name n := n ≠ "this"
  function initializes r := ∃ kind, r.Accepted kind ∧ (initializes = true ↔ kind = .initializer)
  method n initializes r :=
    r.Accepted r.methodKind ∧ r.name.lexeme = n ∧ initializes = r.isInitializer
  inner := Expr.Proper.inner
  evaluated h := h.elim fun _ h => h.1.evaluated
  executed := by
    rintro s s' ⟨body, h⟩ hmem
    exact ⟨body, h.executed hmem⟩
  assigned h := h.1.1
  varDeclared h := h.elim fun _ h => h.1.1.1
  funDeclared := by
    rintro r ⟨body, h⟩
    have hp : r.Proper := h.1
    refine ⟨?_, .function, h.funDecl, by simp⟩
    cases r with
    | mk name params statements => exact hp.1.1
  classDeclared := by
    rintro name superclass methods ⟨body, h⟩
    exact ⟨h.1.1.1, fun r hr => ⟨h.classDecl r hr, rfl, rfl⟩⟩
  bound := by
    rintro n initializes r ⟨h, -, rfl⟩
    refine ⟨r.methodKind, h, ?_⟩
    unfold Routine.methodKind
    cases r.isInitializer <;> simp
  body := by
    rintro initializes r ⟨kind, h, -⟩ s hs
    exact ⟨some kind, h.body s hs⟩

/-- The statements of a program that scoping accepts stand outside of all functions. -/
theorem Program.accepted {p : Program} (hp : Stmt.ProperEach p) {d : Distances}
    (h : p.distances = .ok d) : ∀ s ∈ p, s.Accepted none :=
  @Stmt.acceptedEach {} p hp (Program.distances_eq_ok h).1

end Lox
