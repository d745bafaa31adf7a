import Lox.Proofs.Scoping.Violations
import Lox.Proofs.Session.Stages
import Mathlib.Data.List.Perm.Subperm

/-!
The table of distances is the table of lexical addresses. If no two expressions of a program share a
number, then the table has an entry for a number exactly if it is that of a name which an enclosing
scope has declared before, and the entry says how many scopes further out than the innermost one the
nearest such scope stands (`Program.distances_iff_reaches`).
-/

namespace Lox

/-! ### Numbers of positions -/

/-- The number of the expression that is looked up at a position. -/
def Position.number? (q : Position) : Option Nat :=
  q.spot.occurrence?.map Prod.fst

/-- The numbers of the expressions that are looked up at positions. -/
def Position.numbers (qs : List Position) : List Nat :=
  qs.filterMap Position.number?

namespace Position

theorem numbers_append (qs rs : List Position) : numbers (qs ++ rs) = numbers qs ++ numbers rs :=
  List.filterMap_append

/-- A position at which nothing is looked up. -/
theorem numbers_cons {q : Position} (h : q.number? = none) (rest : List Position) :
    numbers (q :: rest) = numbers rest :=
  List.filterMap_cons_none h

theorem numbers_parameters (around : Surroundings) (names : List Token) :
    numbers (around.parameters names) = [] := by
  induction names generalizing around with
  | nil => rfl
  | cons name rest ih =>
    rw [Surroundings.parameters, numbers_cons rfl]
    exact ih _

theorem numbers_inheritance (around : Surroundings) (className : Token) (e : Expr) :
    numbers (e.inheritance around className) = [] := by
  cases e <;> rfl

end Position

open Position List

mutual

/-- An expression is looked up at most once at the positions of a tree. -/
theorem Expr.numbers_subperm (around : Surroundings) :
    ∀ e : Expr, numbers (e.positions around) <+~ e.ids
  | .literal _ _ => nil_subperm
  | .unary id _ right => (right.numbers_subperm around).cons_right id
  | .binary id left _ right | .logical id left _ right => by
    rw [Expr.positions, numbers_append]
    exact ((left.numbers_subperm around).append (right.numbers_subperm around)).cons_right id
  | .grouping id inner => (inner.numbers_subperm around).cons_right id
  | .var _ _ | .this _ _ | .super _ _ _ => Subperm.refl _
  | .assign id _ value => by
    rw [Expr.positions, numbers_append, Expr.ids]
    exact (perm_append_comm.subperm).trans ((subperm_cons id).2 (value.numbers_subperm around))
  | .call id callee _ arguments => by
    rw [Expr.positions, numbers_append]
    exact ((callee.numbers_subperm around).append
      (Expr.numbersEach_subperm around arguments)).cons_right id
  | .get id object _ => (object.numbers_subperm around).cons_right id
  | .set id object _ value => by
    rw [Expr.positions, numbers_append]
    exact perm_append_comm.subperm.trans
      (((object.numbers_subperm around).append (value.numbers_subperm around)).cons_right id)

theorem Expr.numbersEach_subperm (around : Surroundings) :
    ∀ es : List Expr, numbers (Expr.positionsEach around es) <+~ Expr.idsEach es
  | [] => nil_subperm
  | e :: rest => by
    rw [Expr.positionsEach, numbers_append]
    exact (e.numbers_subperm around).append (Expr.numbersEach_subperm around rest)

end

theorem Expr.numbersOption_subperm (around : Surroundings) :
    ∀ e : Option Expr, numbers (Expr.positionsOption around e) <+~ Expr.idsOption e
  | none => nil_subperm
  | some e => e.numbers_subperm around

mutual

theorem Stmt.numbers_subperm : ∀ (around : Surroundings) (s : Stmt),
    numbers (s.positions around) <+~ s.ids
  | around, .expression value => value.numbers_subperm around
  | around, .varDecl name initializer => by
    rw [Stmt.positions, numbers_cons rfl]
    exact Expr.numbersOption_subperm _ initializer
  | around, .block body => Stmt.numbersEach_subperm _ body
  | around, .ifThen condition body | around, .whileLoop condition body => by
    rw [Stmt.positions, numbers_append]
    exact (condition.numbers_subperm around).append (Stmt.numbers_subperm around body)
  | around, .ifElse condition thenBranch elseBranch => by
    rw [Stmt.positions, numbers_append, numbers_append, Stmt.ids, ← append_assoc]
    exact ((condition.numbers_subperm around).append (Stmt.numbers_subperm around thenBranch)).append
      (Stmt.numbers_subperm _ elseBranch)
  | around, .funDecl routine => by
    rw [Stmt.positions, numbers_cons rfl]
    exact Routine.numbers_subperm _ _ routine
  | around, .returnValue keyword value => by
    rw [Stmt.positions, numbers_cons rfl]
    exact Expr.numbersOption_subperm around value
  | around, .classDecl name none methods => by
    rw [Stmt.positions, numbers_cons rfl]
    exact Routine.numbersEach_subperm _ methods
  | around, .classDecl name (some ancestor) methods => by
    rw [Stmt.positions, numbers_cons rfl, numbers_append, numbers_append, numbers_inheritance]
    exact (ancestor.numbers_subperm _).append (Routine.numbersEach_subperm _ methods)

theorem Stmt.numbersEach_subperm : ∀ (around : Surroundings) (body : List Stmt),
    numbers (Stmt.positionsEach around body) <+~ Stmt.idsEach body
  | _, [] => nil_subperm
  | around, s :: rest => by
    rw [Stmt.positionsEach, numbers_append]
    exact (Stmt.numbers_subperm around s).append (Stmt.numbersEach_subperm _ rest)

theorem Routine.numbers_subperm : ∀ (around : Surroundings) (kind : BodyKind) (r : Routine),
    numbers (r.positions around kind) <+~ r.ids
  | around, kind, .mk _ params body => by
    rw [Routine.positions, numbers_append, numbers_parameters]
    exact Stmt.numbersEach_subperm _ body

theorem Routine.numbersEach_subperm : ∀ (around : Surroundings) (methods : List Routine),
    numbers (Routine.positionsEach around methods) <+~ Routine.idsEach methods
  | _, [] => nil_subperm
  | around, r :: rest => by
    rw [Routine.positionsEach, numbers_append]
    exact (Routine.numbers_subperm around r.methodKind r).append
      (Routine.numbersEach_subperm around rest)

end

/-! ### Entries of the table -/

section

variable {q : Position} {id distance : Nat}

theorem Position.number?_of_row? {entry : Nat × Nat} (h : q.row? = some entry) :
    q.number? = some entry.1 := by
  obtain ⟨⟨id, name⟩, hspot, hentry⟩ := Option.bind_eq_some_iff.1 h
  dsimp only at hentry
  split at hentry
  · cases hentry
  · obtain ⟨distance, -, rfl⟩ := Option.map_eq_some_iff.1 hentry
    rw [Position.number?, hspot]
    rfl

/-- No keyword stands where it may not if no rule is broken. -/
theorem Position.isMisplaced_eq_false (hq : q.violation? = none) : q.isMisplaced = false := by
  unfold Position.isMisplaced
  split <;> simp [hq]

/-- At a position that breaks no rule the address of its name is found. -/
theorem Position.row?_eq_some_iff (hq : q.violation? = none) :
    q.row? = some (id, distance)
      ↔ ∃ name, q.spot.occurrence? = some (id, name) ∧ q.around.Reaches name.lexeme distance := by
  simp only [Position.row?, Position.isMisplaced_eq_false hq, Bool.false_eq_true, if_false,
    Option.bind_eq_some_iff, Option.map_eq_some_iff, Prod.mk.injEq,
    Surroundings.address?_eq_some_iff]
  constructor
  · rintro ⟨⟨_, name⟩, hspot, d, hreach, rfl, rfl⟩
    exact ⟨name, hspot, hreach⟩
  · rintro ⟨name, hspot, hreach⟩
    exact ⟨(id, name), hspot, distance, hreach, rfl, rfl⟩

/-- Positions where no expression is looked up twice have one entry at most for a number. -/
theorem Position.nodup_entries {qs : List Position} (h : (numbers qs).Nodup) :
    ((qs.filterMap Position.row?).map Prod.fst).Nodup := by
  rw [List.Nodup, pairwise_map, pairwise_filterMap]
  refine (pairwise_filterMap.1 h).imp fun hne entry he entry' he' => ?_
  exact hne _ (number?_of_row? he) _ (number?_of_row? he')

/-- In a list that has one entry at most for a number, this entry is found. -/
theorem lookup_eq_some_iff_of_nodup {entries : List (Nat × Nat)}
    (h : (entries.map Prod.fst).Nodup) :
    entries.lookup id = some distance ↔ (id, distance) ∈ entries := by
  induction entries with
  | nil => simp
  | cons entry rest ih =>
    obtain ⟨key, value⟩ := entry
    obtain ⟨hnew, hrest⟩ := nodup_cons.1 h
    rw [lookup_cons, mem_cons]
    by_cases hkey : id = key
    · subst hkey
      have hnot : (id, distance) ∉ rest := fun hmem => hnew (mem_map.2 ⟨_, hmem, rfl⟩)
      simp [hnot, eq_comm]
    · simp [hkey, beq_eq_false_iff_ne.2 hkey, ih hrest]

end

section

variable {p : Program} {d : Distances}

/-- The table of a program whose expressions have numbers of their own has the entries of its positions. -/
theorem Program.distances_iff_row (hids : (Stmt.idsEach p).Nodup) (h : p.distances = .ok d)
    {id distance : Nat} :
    d[id]? = some distance ↔ ∃ q ∈ p.positions, q.row? = some (id, distance) := by
  obtain ⟨l, hperm, hsub⟩ := Stmt.numbersEach_subperm [] p
  have hnumbers : (numbers p.positions).Nodup := hperm.nodup_iff.1 (hids.sublist hsub)
  have hentries := nodup_entries hnumbers
  -- Of several entries for one number the last would count, but there is one at most.
  rw [(Program.distances_eq_ok h).2, p.findings_eq, lookup_eq_some_iff_of_nodup, mem_reverse]
  · exact mem_filterMap
  · rw [map_reverse]
    exact (reverse_perm _).nodup_iff.2 hentries

/-- The table of a program without static faults, whose expressions have numbers of their own, has an
entry for a number exactly if it is that of a name which a scope around it has declared before, and
the entry is the number of scopes to go outward to the nearest such scope. -/
theorem Program.distances_iff_reaches (hids : (Stmt.idsEach p).Nodup) (h : p.distances = .ok d)
    (id distance : Nat) :
    d[id]? = some distance
      ↔ ∃ q ∈ p.positions, ∃ name, q.spot.occurrence? = some (id, name)
          ∧ q.around.Reaches name.lexeme distance := by
  have hrules : ∀ q ∈ p.positions, q.violation? = none :=
    filterMap_eq_nil_iff.1 (p.faults_findings.symm.trans (Program.distances_eq_ok h).1)
  refine (Program.distances_iff_row hids h).trans (exists_congr fun q => and_congr_right fun hq => ?_)
  exact Position.row?_eq_some_iff (hrules q hq)

end

/-- The text `fun outer(a) ( class B ( m() ( return nil; ) ) class C : B ( m() ( fun inner() ( a =
this; return super.m(); ) return inner; ) ) ( var a = C; return a; ) )`, with braces for the
parentheses around statements and methods. -/
def nesting : String :=
  "fun outer(a) \x7b class B \x7b m() \x7b return nil; \x7d \x7d class C : B \x7b m() \x7b " ++
    "fun inner() \x7b a = this; return super.m(); \x7d return inner; \x7d \x7d " ++
    "\x7b var a = C; return a; \x7d \x7d"

/-- From a function in a method of a class with a superclass `this` is two scopes further out, `super`
three, and a parameter of the function around the class four. -/
theorem Program.distances_iff_reaches_nesting :
    ∃ p d n, ({} : Limit).Reads 0 nesting p d n ∧ (Stmt.idsEach p).Nodup
      ∧ (∀ id distance, d[id]? = some distance
        ↔ ∃ q ∈ p.positions, ∃ name, q.spot.occurrence? = some (id, name)
            ∧ q.around.Reaches name.lexeme distance)
      ∧ (Stmt.idsEach p).filterMap (d[·]?) = [0, 4, 2, 3, 0, 1, 0] := by
  have hrun : ((({} : Limit).read? 0 nesting).map fun (p, d, _) =>
      (decide (Stmt.idsEach p).Nodup, (Stmt.idsEach p).filterMap (d[·]?)))
      = some (true, [0, 4, 2, 3, 0, 1, 0]) := by decide +kernel
  obtain ⟨⟨p, d, n⟩, hread, hout⟩ := Option.map_eq_some_iff.1 hrun
  obtain ⟨hids, hvalues⟩ := Prod.mk.inj hout
  have h := Limit.read?_eq_some_iff.1 hread
  have hnodup := of_decide_eq_true hids
  exact ⟨p, d, n, h, hnodup, Program.distances_iff_reaches hnodup h.distances, hvalues⟩

end Lox
