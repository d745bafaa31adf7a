import Lox.Proofs.Scoping.Relabeled
import Lox.Proofs.Scoping.Tables

/-!
Programs one after the other. Whatever is found in a statement, the function, the class and the scopes
around it are the same behind it, but for what the innermost scope has come to bind
(`Stmt.findings_returns`). Outside of all scopes there is none, so that what is found in two programs is
what is found in each (`Program.findings_append`), and they have distances if each of them has
(`Program.distances_append`).
-/

namespace Lox

/-! ### What surrounds a place behind statements -/

namespace Site

/-- Behind a part of a program its function, its class and all scopes are what they were before it,
but for what the innermost scope has come to bind. -/
structure Returns (site after : Site) : Prop where
  body : after.body = site.body
  classBody : after.classBody = site.classBody
  depth : after.scopes.length = site.scopes.length
  outer : after.scopes.tail = site.scopes.tail

variable {site after last : Site}

theorem Returns.refl (site : Site) : site.Returns site := ⟨rfl, rfl, rfl, rfl⟩

theorem Returns.trans (h : site.Returns after) (h' : after.Returns last) : site.Returns last :=
  ⟨h'.body.trans h.body, h'.classBody.trans h.classBody, h'.depth.trans h.depth,
    h'.outer.trans h.outer⟩

theorem returns_bind (site : Site) (name : Token) (r : Bool) : site.Returns (site.bind name r) where
  body := site.bind_body name r
  classBody := site.bind_classBody name r
  depth := by
    rw [bind_scopes]
    cases site.scopes <;> rfl
  outer := by
    rw [bind_scopes]
    cases site.scopes <;> rfl

theorem returns_declareReadable (site : Site) (name : Token) :
    site.Returns (site.declareReadable name).1 := by
  rw [declareReadable_fst]
  exact site.returns_bind name true

/-- Outside of all scopes nothing is bound. -/
theorem Returns.eq_initial (h : Returns {} after) : after = {} := by
  obtain ⟨scopes, body, classBody⟩ := after
  obtain rfl : scopes = [] := List.length_eq_zero_iff.1 h.depth
  obtain rfl : body = none := h.body
  obtain rfl : classBody = none := h.classBody
  rfl

end Site

/-- A statement returns to where it stands, whatever is found in it. -/
theorem Stmt.findings_returns : ∀ (s : Stmt) (site : Site), site.Returns (s.findings site).1
  | .expression _, site | .block _, site | .returnValue _ _, site => .refl site
  | .varDecl name _, site | .classDecl name none _, site | .classDecl name (some _) _, site =>
    site.returns_declareReadable name
  | .funDecl routine, site => site.returns_declareReadable routine.name
  | .ifThen _ thenBranch, site => thenBranch.findings_returns site
  | .whileLoop _ body, site => body.findings_returns site
  | .ifElse _ thenBranch elseBranch, site =>
    (thenBranch.findings_returns site).trans (elseBranch.findings_returns _)

/-- What surrounds the place behind statements. -/
def Stmt.siteBehind (site : Site) (body : List Stmt) : Site :=
  body.foldl (fun site s => (s.findings site).1) site

/-- So do statements one after the other. -/
theorem Stmt.siteBehind_returns (site : Site) (body : List Stmt) :
    site.Returns (Stmt.siteBehind site body) := by
  induction body generalizing site with
  | nil => exact .refl site
  | cons s rest ih => exact (s.findings_returns site).trans (ih _)

theorem Stmt.siteBehind_initial (p : Program) : Stmt.siteBehind {} p = {} :=
  (Stmt.siteBehind_returns {} p).eq_initial

/-! ### Programs one after the other -/

/-- What is found in statements is what is found in the first of them, and in the others behind
them. -/
theorem Stmt.findingsEach_append (site : Site) (body more : List Stmt) :
    Stmt.findingsEach site (body ++ more)
      = Stmt.findingsEach site body ++ Stmt.findingsEach (Stmt.siteBehind site body) more := by
  induction body generalizing site with
  | nil => rfl
  | cons s rest ih =>
    show (s.findings site).2 ++ Stmt.findingsEach (s.findings site).1 (rest ++ more)
      = (s.findings site).2 ++ Stmt.findingsEach (s.findings site).1 rest ++ _
    rw [ih, Findings.append_assoc]
    rfl

theorem Program.findings_append (p q : Program) :
    Stmt.findingsEach {} (p ++ q) = Stmt.findingsEach {} p ++ Stmt.findingsEach {} q := by
  rw [Stmt.findingsEach_append, Stmt.siteBehind_initial]

theorem Stmt.LinkedEach.of_append {t : Table} {site : Site} {p q : List Stmt}
    (h : Stmt.LinkedEach t site (p ++ q)) : Stmt.LinkedEach t site p := by
  induction p generalizing site with
  | nil => trivial
  | cons s rest ih => exact ⟨h.1, ih h.2⟩

/-- The distances of two programs one after the other. -/
theorem Program.distances_append {p q : Program} {d d' : Distances} (hp : p.distances = .ok d)
    (hq : q.distances = .ok d') :
    ∃ joined : Distances, Program.distances (p ++ q) = .ok joined
      ∧ ∀ id : Nat, joined[id]? = d'[id]?.or d[id]? := by
  obtain ⟨hfaults, hd⟩ := Program.distances_eq_ok hp
  obtain ⟨hfaults', hd'⟩ := Program.distances_eq_ok hq
  have hnone : (Stmt.findingsEach {} (p ++ q)).faults = [] := by
    rw [Program.findings_append, Findings.faults_append, hfaults, hfaults', List.append_nil]
  cases hj : Program.distances (p ++ q) with
  | error faults =>
    simp only [Program.distances, hnone] at hj
    cases hj
  | ok joined =>
    refine ⟨joined, rfl, ?_⟩
    intro id
    rw [(Program.distances_eq_ok hj).2, Program.findings_append, Findings.distances_append,
      List.reverse_append, List.lookup_append, hd, hd']

/-- On other lines a program has the same distances. -/
theorem Program.distances_onLines {p : Program} {d : Distances} (h : p.distances = .ok d)
    (line : Nat → Nat) :
    ∃ d' : Distances, Program.distances (Stmt.relabelEach (.lines line) p) = .ok d'
      ∧ ∀ id : Nat, d'[id]? = d[id]? :=
  Program.distances_relabel_of_ok (.lines line) Function.injective_id h

end Lox
