import Lox.Machine
import Lox.Proofs.Scoping.Linking

/-!
Tables of distances that grow from program to program. A program whose expressions have numbers that
no program before it has used adds its distances to the table in use, which goes on saying what it
said (`Table.le_add`), and the program is linked by the larger table (`Program.linked_add`).
-/

namespace Lox

namespace Distances

/-- Of the entries of a list that are inserted the last one for a number counts. -/
theorem getElem?_foldl_insert (entries : List (Nat × Nat)) (d : Distances) (id : Nat) :
    (entries.foldl (fun table entry => table.insert entry.1 entry.2) d)[id]?
      = (entries.reverse.lookup id).or d[id]? := by
  induction entries generalizing d with
  | nil => rfl
  | cons entry rest ih =>
    rw [List.foldl_cons, ih, List.reverse_cons, List.lookup_append, Option.or_assoc]
    congr 1
    obtain ⟨key, distance⟩ := entry
    rw [Std.TreeMap.getElem?_insert, List.lookup_cons]
    by_cases h : key = id
    · simp [h]
    · simp [h, beq_eq_false_iff_ne.2 (Ne.symm h)]

/-- Distances that are added count more than those that were there. -/
theorem getElem?_insertMany (d added : Distances) (id : Nat) :
    (d.insertMany added.toList)[id]? = added[id]?.or d[id]? := by
  cases h : added[id]? with
  | some distance =>
    rw [← Std.TreeMap.mem_toList_iff_getElem?_eq_some] at h
    rw [Std.TreeMap.getElem?_insertMany_list_of_mem Std.ReflCmp.compare_self
      Std.TreeMap.distinct_keys_toList h]
    rfl
  | none =>
    rw [Std.TreeMap.getElem?_insertMany_list_of_contains_eq_false]
    · rfl
    · rw [Bool.eq_false_iff]
      intro hmem
      obtain ⟨⟨key, distance⟩, hentry, rfl⟩ := List.mem_map.1 (List.contains_iff_mem.1 hmem)
      rw [Std.TreeMap.mem_toList_iff_getElem?_eq_some] at hentry
      simp [h] at hentry

theorem getElem?_insertMany_empty (added : Distances) (id : Nat) :
    ((∅ : Distances).insertMany added.toList)[id]? = added[id]? := by
  rw [getElem?_insertMany]
  exact Option.or_none

end Distances

section

variable {p : Program} {d : Distances} {n n' : Nat}

/-- The table of a program without static faults is made of all distances found in it. -/
theorem Program.distances_eq_ok (h : p.distances = .ok d) :
    (Stmt.findingsEach {} p).faults = []
      ∧ ∀ id, d[id]? = (Stmt.findingsEach {} p).distances.reverse.lookup id := by
  simp only [Program.distances] at h
  split at h
  · rename_i hfaults
    refine ⟨hfaults, ?_⟩
    intro id
    cases h
    rw [Distances.getElem?_foldl_insert]
    simp
  · cases h

/-- A program has distances if no fault is found in it. -/
theorem Program.exists_distances_iff :
    (∃ d, p.distances = .ok d) ↔ (Stmt.findingsEach {} p).faults = [] := by
  constructor
  · rintro ⟨d, h⟩
    exact (Program.distances_eq_ok h).1
  · intro h
    simp only [Program.distances, h]
    exact ⟨_, rfl⟩

/-- A program fails with all the faults that are found in it, if there is one. -/
theorem Program.distances_eq_error_iff {faults : List Diagnostic} :
    p.distances = .error faults ↔ faults = (Stmt.findingsEach {} p).faults ∧ faults ≠ [] := by
  simp only [Program.distances]
  split
  · rename_i h
    rw [h]
    exact ⟨nofun, fun hnil => absurd hnil.1 hnil.2⟩
  · rename_i h
    rw [Except.error.injEq, eq_comm]
    exact (and_iff_left_of_imp fun he => he ▸ h).symm

/-- The faults of a program that has some are found in its scopes. -/
theorem Program.distances_eq_error {faults : List Diagnostic} (h : p.distances = .error faults) :
    ∀ d ∈ faults, d.stage = .scoping := by
  simp only [Program.distances] at h
  split at h
  · cases h
  · cases h
    exact (Stmt.findingsEach_within {} p).faults

/-- A program says nothing about numbers that it does not use. -/
theorem Program.getElem?_distances (h : p.distances = .ok d) {id : Nat}
    (hid : id ∉ Stmt.idsEach p) : d[id]? = none := by
  rw [(Program.distances_eq_ok h).2, Recorded.lookup_eq_none]
  intro entry hmem he
  exact hid (he ▸ (Stmt.findingsEach_within {} p).keys entry (List.mem_reverse.1 hmem))

namespace Table

/-- The table with the distances of one more program, whose expressions have numbers below
`bound`. -/
def add (t : Table) (p : Program) (h : p.distances = .ok d) (bound : Nat) (hle : t.bound ≤ bound)
    (hids : ∀ id ∈ Stmt.idsEach p, id < bound) : Table where
  distances := t.distances.insertMany d.toList
  bound := bound
  fresh := by
    intro id hid
    rw [Distances.getElem?_insertMany, t.fresh id (Nat.le_trans hle hid),
      Program.getElem?_distances h fun hmem => Nat.not_lt.2 hid (hids id hmem)]
    rfl

variable {t : Table} {h : p.distances = .ok d} {hle : t.bound ≤ n'}
  {hids : ∀ id ∈ Stmt.idsEach p, id < n'}

/-- The table goes on saying what it said if the program only uses new numbers. -/
theorem le_add (hnew : ∀ id ∈ Stmt.idsEach p, t.bound ≤ id) : t.Le (t.add p h n' hle hids) where
  bound := hle
  same := by
    intro id hid
    have hnone := Program.getElem?_distances h fun hmem => Nat.not_le.2 hid (hnew id hmem)
    simp [add, Distances.getElem?_insertMany, hnone]

end Table

/-- A program is linked by the table to which its distances have been added. -/
theorem Program.linked_add {t : Table} {h : p.distances = .ok d} {hle : t.bound ≤ n'}
    {hids : ∀ id ∈ Stmt.idsEach p, id < n'} (hp : Stmt.ProperEach p)
    (hnodup : (Stmt.idsEach p).Nodup) (hnew : ∀ id ∈ Stmt.idsEach p, t.bound ≤ id) :
    Stmt.LinkedEach (t.add p h n' hle hids) {} p := by
  obtain ⟨hfaults, hd⟩ := Program.distances_eq_ok h
  have hrecorded : Recorded (t.add p h n' hle hids) (Stmt.idsEach p) (Stmt.findingsEach {} p) := by
    refine ⟨hfaults, hnodup, fun id hid => ⟨hids id hid, ?_⟩⟩
    simp [Table.add, Distances.getElem?_insertMany, t.fresh id (hnew id hid), hd]
  have hsettled : Site.Settled {} :=
    ⟨⟨by simp, by simp, by simp, by simp⟩, by simp⟩
  exact Stmt.linkedEach_of_recorded hsettled hp hrecorded

end

end Lox
