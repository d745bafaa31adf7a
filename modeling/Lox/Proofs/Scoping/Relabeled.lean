import Lox.Proofs.Scoping.Tables
import Lox.Proofs.Tree.Relabel

/-!
What is found in a program with other lines and numbers: the same distances, for the other numbers,
and the same faults, on the other lines (`Stmt.findingsEach_relabel`). So such a program is accepted
when the program is, and its table gives each number what the table of the program gives the number
it stands for (`Program.distances_relabel`).
-/

namespace Lox

namespace Findings

/-- The findings with other lines and numbers. -/
def relabel (g : Relabel) (found : Findings) : Findings where
  faults := found.faults.map (Diagnostic.relabel g)
  distances := found.distances.map fun entry => (g.number entry.1, entry.2)

section

variable (g : Relabel)

@[simp] theorem relabel_none : Findings.none.relabel g = .none := rfl

@[simp] theorem relabel_append (a b : Findings) :
    (a ++ b).relabel g = a.relabel g ++ b.relabel g := by
  show Findings.mk _ _ = Findings.mk _ _
  simp [relabel]

@[simp] theorem relabel_fault (token : Token) (cause : StaticFault) :
    (fault token cause).relabel g = fault (token.relabel g) cause := rfl

@[simp] theorem relabel_faultIf (condition : Bool) (token : Token) (cause : StaticFault) :
    (faultIf condition token cause).relabel g = faultIf condition (token.relabel g) cause := by
  cases condition <;> rfl

end

end Findings

namespace Site

variable (g : Relabel) (site : Site)

theorem bindsHere_relabel (name : Token) :
    site.bindsHere (name.relabel g) = site.bindsHere name := rfl

theorem bind_relabel (name : Token) (readable : Bool) :
    site.bind (name.relabel g) readable = site.bind name readable := rfl

theorem declare_relabel (name : Token) :
    site.declare (name.relabel g) = ((site.declare name).1, (site.declare name).2.relabel g) := by
  unfold declare
  rw [bindsHere_relabel, bind_relabel]
  split <;> rfl

theorem declareReadable_relabel (name : Token) :
    site.declareReadable (name.relabel g)
      = ((site.declareReadable name).1, (site.declareReadable name).2.relabel g) := by
  unfold declareReadable
  rw [declare_relabel]
  rfl

theorem declareEach_relabel (names : List Token) :
    site.declareEach (names.map (Token.relabel g))
      = ((site.declareEach names).1, (site.declareEach names).2.relabel g) := by
  induction names generalizing site with
  | nil => rfl
  | cons name rest ih => simp [declareEach, declareReadable_relabel, ih]

theorem occurrence_relabel (id : Nat) (name : Token) :
    site.occurrence (g.number id) (name.relabel g) = (site.occurrence id name).relabel g := by
  have hd : site.distance? (name.relabel g) = site.distance? name := rfl
  unfold occurrence Findings.relabel
  rw [hd]
  cases site.distance? name <;> rfl

end Site

section

variable (g : Relabel)

mutual

theorem Expr.findings_relabel (site : Site) :
    ∀ e : Expr, (e.relabel g).findings site = (e.findings site).relabel g
  | .literal _ _ => rfl
  | .unary _ _ right => right.findings_relabel site
  | .binary _ left _ right | .logical _ left _ right => by
    simp only [Expr.relabel, Expr.findings, left.findings_relabel, right.findings_relabel,
      Findings.relabel_append]
  | .grouping _ inner => inner.findings_relabel site
  | .var id name => by
    have hu : site.isUnreadable (name.relabel g) = site.isUnreadable name := rfl
    simp only [Expr.relabel, Expr.findings, hu, Site.occurrence_relabel, Findings.relabel_append,
      Findings.relabel_faultIf]
  | .assign id name value => by
    simp only [Expr.relabel, Expr.findings, value.findings_relabel, Site.occurrence_relabel,
      Findings.relabel_append]
  | .call _ callee _ arguments => by
    simp only [Expr.relabel, Expr.findings, callee.findings_relabel,
      Expr.findingsEach_relabel site arguments, Findings.relabel_append]
  | .get _ object _ => object.findings_relabel site
  | .set _ object _ value => by
    simp only [Expr.relabel, Expr.findings, object.findings_relabel, value.findings_relabel,
      Findings.relabel_append]
  | .this id keyword => by
    rw [Expr.relabel, Expr.findings, Expr.findings]
    split
    · rfl
    · exact Site.occurrence_relabel g site id keyword
  | .super id keyword _ => by
    rw [Expr.relabel, Expr.findings, Expr.findings]
    split
    · rfl
    · rfl
    · exact Site.occurrence_relabel g site id keyword

theorem Expr.findingsEach_relabel (site : Site) :
    ∀ es : List Expr,
      Expr.findingsEach site (Expr.relabelEach g es) = (Expr.findingsEach site es).relabel g
  | [] => rfl
  | e :: rest => by
    simp only [Expr.relabelEach, Expr.findingsEach, e.findings_relabel,
      Expr.findingsEach_relabel site rest, Findings.relabel_append]

end

theorem Expr.findingsOption_relabel (site : Site) (e? : Option Expr) :
    Expr.findingsOption site (e?.map (Expr.relabel g))
      = (Expr.findingsOption site e?).relabel g := by
  cases e? with
  | none => rfl
  | some e => exact e.findings_relabel g site

theorem Expr.selfInheritance_relabel (className : Token) (e : Expr) :
    (e.relabel g).selfInheritance (className.relabel g)
      = (e.selfInheritance className).relabel g := by
  cases e with
  | var id name => exact (Findings.relabel_faultIf g _ name _).symm
  | _ => rfl

theorem Routine.methodKind_relabel (r : Routine) : (r.relabel g).methodKind = r.methodKind := by
  simp [Routine.methodKind, Routine.isInitializer]

mutual

theorem Stmt.findings_relabel (site : Site) :
    ∀ s : Stmt, (s.relabel g).findings site = ((s.findings site).1, (s.findings site).2.relabel g)
  | .expression value => by
    simp only [Stmt.relabel, Stmt.findings, value.findings_relabel]
  | .varDecl name initializer => by
    simp only [Stmt.relabel, Stmt.findings, Site.declare_relabel, Site.bind_relabel,
      Expr.findingsOption_relabel, Findings.relabel_append]
  | .block body => by
    simp only [Stmt.relabel, Stmt.findings, Stmt.findingsEach_relabel _ body]
  | .ifThen condition thenBranch => by
    simp only [Stmt.relabel, Stmt.findings, condition.findings_relabel,
      thenBranch.findings_relabel, Findings.relabel_append]
  | .ifElse condition thenBranch elseBranch => by
    simp only [Stmt.relabel, Stmt.findings, condition.findings_relabel,
      thenBranch.findings_relabel, elseBranch.findings_relabel, Findings.relabel_append]
  | .whileLoop condition body => by
    simp only [Stmt.relabel, Stmt.findings, condition.findings_relabel, body.findings_relabel,
      Findings.relabel_append]
  | .funDecl routine => by
    simp only [Stmt.relabel, Stmt.findings, Routine.relabel_name, Site.declareReadable_relabel,
      routine.findings_relabel, Findings.relabel_append]
  | .returnValue keyword value => by
    simp only [Stmt.relabel, Stmt.findings, Expr.findingsOption_relabel, Option.isSome_map,
      Findings.relabel_append, Findings.relabel_faultIf]
  | .classDecl name none methods => by
    simp only [Stmt.relabel, Stmt.findings, Option.map_none, Site.declareReadable_relabel,
      Routine.findingsEach_relabel _ methods, Findings.relabel_append]
  | .classDecl name (some ancestor) methods => by
    simp only [Stmt.relabel, Stmt.findings, Option.map_some, Site.declareReadable_relabel,
      Expr.selfInheritance_relabel, ancestor.findings_relabel,
      Routine.findingsEach_relabel _ methods, Findings.relabel_append]

theorem Stmt.findingsEach_relabel (site : Site) :
    ∀ body : List Stmt,
      Stmt.findingsEach site (Stmt.relabelEach g body) = (Stmt.findingsEach site body).relabel g
  | [] => rfl
  | s :: rest => by
    simp only [Stmt.relabelEach, Stmt.findingsEach, s.findings_relabel,
      Stmt.findingsEach_relabel _ rest, Findings.relabel_append]

theorem Routine.findings_relabel (site : Site) (kind : BodyKind) :
    ∀ r : Routine, (r.relabel g).findings site kind = (r.findings site kind).relabel g
  | .mk _ params body => by
    simp only [Routine.relabel, Routine.findings, Site.declareEach_relabel,
      Stmt.findingsEach_relabel _ body, Findings.relabel_append]

theorem Routine.findingsEach_relabel (site : Site) :
    ∀ methods : List Routine,
      Routine.findingsEach site (Routine.relabelEach g methods)
        = (Routine.findingsEach site methods).relabel g
  | [] => rfl
  | r :: rest => by
    simp only [Routine.relabelEach, Routine.findingsEach, r.findings_relabel,
      Routine.methodKind_relabel, Routine.findingsEach_relabel site rest, Findings.relabel_append]

end

/-! ### Tables -/

/-- What is written for a number is found where the number was. -/
theorem lookup_map_number (hg : Function.Injective g.number) (entries : List (Nat × Nat))
    (id : Nat) :
    (entries.map fun entry => (g.number entry.1, entry.2)).lookup (g.number id)
      = entries.lookup id := by
  induction entries with
  | nil => rfl
  | cons entry rest ih =>
    obtain ⟨key, distance⟩ := entry
    rw [List.map_cons, List.lookup_cons, List.lookup_cons, ih]
    by_cases h : id = key
    · simp [h]
    · simp only [beq_eq_false_iff_ne.2 h, beq_eq_false_iff_ne.2 (hg.ne h)]

/-- How the results for a program and for one with other lines and numbers go together. -/
def Distances.Relabeled (g : Relabel) :
    Except (List Diagnostic) Distances → Except (List Diagnostic) Distances → Prop
  | .ok d, .ok d' => ∀ id, d'[g.number id]? = d[id]?
  | .error faults, .error faults' => faults' = faults.map (Diagnostic.relabel g)
  | _, _ => False

/-- A program with other lines and numbers has the distances or the faults of the program. -/
theorem Program.distances_relabel (hg : Function.Injective g.number) (p : Program) :
    Distances.Relabeled g p.distances (Program.distances (Stmt.relabelEach g p)) := by
  unfold Program.distances
  rw [Stmt.findingsEach_relabel]
  cases hf : (Stmt.findingsEach {} p).faults with
  | nil =>
    simp only [Findings.relabel, hf, List.map_nil]
    intro id
    rw [Distances.getElem?_foldl_insert, Distances.getElem?_foldl_insert, ← List.map_reverse,
      lookup_map_number g hg]
    simp
  | cons d rest =>
    simp only [Findings.relabel, hf, List.map_cons]
    rfl

/-- A program for which there are distances has them with other lines and numbers. -/
theorem Program.distances_relabel_of_ok (hg : Function.Injective g.number) {p : Program}
    {d : Distances} (h : p.distances = .ok d) :
    ∃ d' : Distances, Program.distances (Stmt.relabelEach g p) = .ok d'
      ∧ ∀ id : Nat, d'[g.number id]? = d[id]? := by
  have hrelabeled := Program.distances_relabel g hg p
  rw [h] at hrelabeled
  cases hd : Program.distances (Stmt.relabelEach g p) with
  | ok d' =>
    rw [hd] at hrelabeled
    exact ⟨d', rfl, hrelabeled⟩
  | error faults =>
    rw [hd] at hrelabeled
    exact hrelabeled.elim

/-- It has them if there are distances with other lines and numbers. -/
theorem Program.distances_of_relabel_ok (hg : Function.Injective g.number) {p : Program}
    {d' : Distances} (h : Program.distances (Stmt.relabelEach g p) = .ok d') :
    ∃ d : Distances, p.distances = .ok d ∧ ∀ id : Nat, d'[g.number id]? = d[id]? := by
  have hrelabeled := Program.distances_relabel g hg p
  rw [h] at hrelabeled
  cases hd : p.distances with
  | ok d =>
    rw [hd] at hrelabeled
    exact ⟨d, rfl, hrelabeled⟩
  | error faults =>
    rw [hd] at hrelabeled
    exact hrelabeled.elim

end

end Lox
