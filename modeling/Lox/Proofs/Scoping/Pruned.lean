import Lox.Proofs.Parsing.Makes
import Lox.Proofs.Scoping.Addresses
import Lox.Proofs.Tree.Pruned

/-!
What is found in code without what follows a `return`. Its positions are a part of those that were there,
with the same surroundings, since what follows a `return` stands around nothing that is left. So a program
is still accepted when this is left out, and its table gives each number that is left what it gave
(`Program.distances_pruned`).
-/

namespace Lox

open List Position

/-! ### Parts of positions -/

/-- Some positions with some numbers of expressions, out of more of both: none of the numbers that are
left is that of a position that is not. -/
def Position.Part (part whole : List Position) (ids' ids : List Nat) : Prop :=
  ∃ missing others, whole ~ part ++ missing ∧ ids ~ ids' ++ others ∧ numbers missing <+~ others

namespace Position.Part

variable {a a' b b' : List Position} {i i' j j' : List Nat}

theorem refl (a : List Position) (i : List Nat) : Part a a i i :=
  ⟨[], [], by simp, by simp, .refl _⟩

/-- Everything is left out. -/
theorem dropped (h : numbers a <+~ i) : Part [] a [] i :=
  ⟨a, i, .refl a, .refl i, h⟩

theorem cons (q : Position) (h : Part a' a i' i) : Part (q :: a') (q :: a) i' i := by
  obtain ⟨missing, others, ha, hi, hnumbers⟩ := h
  exact ⟨missing, others, ha.cons q, hi, hnumbers⟩

theorem perm_append {α : Type} {a a' b b' as bs : List α} (ha : a ~ a' ++ as) (hb : b ~ b' ++ bs) :
    a ++ b ~ (a' ++ b') ++ (as ++ bs) := by
  refine (ha.append hb).trans ?_
  rw [append_assoc, append_assoc]
  exact (perm_append_comm_assoc as b' bs).append_left a'

theorem append (h : Part a' a i' i) (h' : Part b' b j' j) :
    Part (a' ++ b') (a ++ b) (i' ++ j') (i ++ j) := by
  obtain ⟨missing, others, ha, hi, hnumbers⟩ := h
  obtain ⟨missing', others', hb, hj, hnumbers'⟩ := h'
  refine ⟨missing ++ missing', others ++ others', perm_append ha hb, perm_append hi hj, ?_⟩
  rw [numbers_append]
  exact hnumbers.append hnumbers'

end Position.Part

@[simp] theorem Stmt.pruned_introduces : ∀ s : Stmt, s.pruned.introduces = s.introduces
  | .expression _ | .varDecl _ _ | .block _ | .returnValue _ _ | .classDecl _ _ _ => rfl
  | .ifThen _ body | .whileLoop _ body => body.pruned_introduces
  | .ifElse _ thenBranch elseBranch => by
    rw [pruned, introduces, introduces, thenBranch.pruned_introduces, elseBranch.pruned_introduces]
  | .funDecl routine => congrArg (fun name => [name]) routine.pruned_name

@[simp] theorem Routine.pruned_methodKind (r : Routine) : r.pruned.methodKind = r.methodKind := by
  simp [methodKind, isInitializer]

mutual

/-- Leaving out what follows a `return` leaves positions as they are. -/
theorem Stmt.positions_pruned : ∀ (around : Surroundings) (s : Stmt),
    Part (s.pruned.positions around) (s.positions around) s.pruned.ids s.ids
  | _, .expression _ | _, .varDecl _ _ | _, .returnValue _ _ => .refl _ _
  | around, .block body => Stmt.positionsEach_pruned around.enter body
  | around, .ifThen condition body | around, .whileLoop condition body =>
    (Part.refl (condition.positions around) condition.ids).append (body.positions_pruned around)
  | around, .ifElse condition thenBranch elseBranch => by
    have hcondition := Part.refl (condition.positions around) condition.ids
    have hthen := thenBranch.positions_pruned around
    have helse := elseBranch.positions_pruned (around.declareEach thenBranch.introduces)
    have hall := (hcondition.append hthen).append helse
    rw [append_assoc condition.ids, append_assoc condition.ids] at hall
    rw [Stmt.pruned, Stmt.positions, Stmt.positions, thenBranch.pruned_introduces]
    exact hall
  | around, .funDecl routine => by
    rw [Stmt.pruned, Stmt.positions, routine.pruned_name]
    exact (routine.positions_pruned (around.declare routine.name) .function).cons _
  | around, .classDecl name none methods => (Routine.positionsEach_pruned _ methods).cons _
  | around, .classDecl name (some ancestor) methods => by
    refine Part.cons _ ?_
    have hancestor := Part.refl
      (ancestor.inheritance around name ++ ancestor.positions (around.inClass name .derived))
      ancestor.ids
    exact hancestor.append (Routine.positionsEach_pruned _ methods)

theorem Stmt.positionsEach_pruned : ∀ (around : Surroundings) (body : List Stmt),
    Part (Stmt.positionsEach around (Stmt.prunedEach body)) (Stmt.positionsEach around body)
      (Stmt.idsEach (Stmt.prunedEach body)) (Stmt.idsEach body)
  | _, [] => .refl _ _
  | around, s :: rest => by
    rw [Stmt.prunedEach, Stmt.positionsEach, Stmt.positionsEach, s.pruned_introduces]
    refine (s.positions_pruned around).append ?_
    split
    · exact .dropped (Stmt.numbersEach_subperm _ rest)
    · exact Stmt.positionsEach_pruned _ rest

theorem Routine.positions_pruned : ∀ (around : Surroundings) (kind : BodyKind) (r : Routine),
    Part (r.pruned.positions around kind) (r.positions around kind) r.pruned.ids r.ids
  | around, kind, .mk _ params body =>
    (Part.refl ((around.enterBody kind).parameters params) []).append
      (Stmt.positionsEach_pruned _ body)

theorem Routine.positionsEach_pruned : ∀ (around : Surroundings) (methods : List Routine),
    Part (Routine.positionsEach around (Routine.prunedEach methods))
      (Routine.positionsEach around methods)
      (Routine.idsEach (Routine.prunedEach methods)) (Routine.idsEach methods)
  | _, [] => .refl _ _
  | around, r :: rest => by
    rw [Routine.prunedEach, Routine.positionsEach, Routine.positionsEach, r.pruned_methodKind]
    exact (r.positions_pruned around r.methodKind).append (Routine.positionsEach_pruned around rest)

end

/-! ### Programs -/

theorem Numbered.pruned {p : Program} {n n' : Nat} (h : Numbered n n' (Stmt.idsEach p)) :
    Numbered n n' (Stmt.idsEach (Stmt.prunedEach p)) := by
  obtain ⟨-, others, -, hids, -⟩ := Stmt.positionsEach_pruned [] p
  have hperm := h.perm hids
  exact ⟨(nodup_append.1 hperm.nodup).1, fun id hid => hperm.bounds id (mem_append_left _ hid)⟩

/-- A program of which what follows a `return` is left out is accepted as well, and what its table gives
for the numbers that are left is the same. -/
theorem Program.distances_pruned {p : Program} {d : Distances} (hids : (Stmt.idsEach p).Nodup)
    (h : p.distances = .ok d) :
    ∃ e, Program.distances (Stmt.prunedEach p) = .ok e
      ∧ ∀ id ∈ Stmt.idsEach (Stmt.prunedEach p), e[id]? = d[id]? := by
  obtain ⟨missing, others, hpositions, hperm, hnumbers⟩ := Stmt.positionsEach_pruned [] p
  have hnodup := hperm.nodup_iff.1 hids
  have hfaults : (Stmt.findingsEach {} (Stmt.prunedEach p)).faults = [] := by
    have hnone : p.violations = [] := p.faults_findings.symm.trans (Program.distances_eq_ok h).1
    rw [Program.faults_findings]
    refine filterMap_eq_nil_iff.2 fun q hq => filterMap_eq_nil_iff.1 hnone q ?_
    exact hpositions.mem_iff.2 (mem_append_left _ hq)
  obtain ⟨e, he⟩ := Program.exists_distances_iff.2 hfaults
  refine ⟨e, he, fun id hid => Option.ext fun distance => ?_⟩
  rw [Program.distances_iff_row (nodup_append.1 hnodup).1 he, Program.distances_iff_row hids h]
  constructor
  · rintro ⟨q, hq, hrow⟩
    exact ⟨q, hpositions.mem_iff.2 (mem_append_left _ hq), hrow⟩
  · rintro ⟨q, hq, hrow⟩
    rcases mem_append.1 (hpositions.mem_iff.1 hq) with hq | hq
    · exact ⟨q, hq, hrow⟩
    · have hmem : id ∈ numbers missing := mem_filterMap.2 ⟨q, hq, number?_of_row? hrow⟩
      exact absurd rfl ((nodup_append.1 hnodup).2.2 id hid id (hnumbers.subset hmem))

end Lox
