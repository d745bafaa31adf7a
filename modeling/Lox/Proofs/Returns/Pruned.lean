import Lox.Proofs.Scoping.Accepted
import Lox.Proofs.Scoping.Pruned
import Lox.Proofs.Session.Alike

/-!
Programs without what follows a `return`. A machine executes such a program as it executes the program
itself, since both are the same once this is left out of all functions in the store as well, and what is
left has the same distances (`Session.Reachable.interpret_pruned`). So two accepted sources print the same
and give the same answer if what follows a `return` is all that they differ in
(`Session.Reachable.run_pruned`).
-/

namespace Lox

/-- The machine, of whose functions what follows a `return` is left out. -/
def Machine.pruned (m : Machine) : Machine :=
  { m with store := m.store.recode .pruning }

theorem Machine.recoded_pruned (m : Machine) : m.Recoded .pruning m.pruned :=
  ⟨rfl, rfl, rfl, fun _ => rfl, rfl⟩

/-- No statement of an accepted program is a `return`. -/
theorem Program.not_isReturn {p : Program} (hp : Stmt.ProperEach p) {d : Distances}
    (h : p.distances = .ok d) : ∀ s ∈ p, s.isReturn = false := by
  intro s hs
  cases s with
  | returnValue keyword value =>
    obtain ⟨kind, hkind, -⟩ := (Program.accepted hp h _ hs).returnValue
    cases hkind
  | _ => rfl

/-- A machine executes a program, also without what follows a `return`, up to the same end. -/
theorem Machine.interpret_pruned (m : Machine) {p : Program} (h : ∀ s ∈ p, s.isReturn = false)
    (fuel : Nat) :
    (m.interpret fuel (Stmt.prunedEach p)).1 = (m.interpret fuel p).1
      ∧ (m.interpret fuel (Stmt.prunedEach p)).2.toHost = (m.interpret fuel p).2.toHost := by
  have hmap := Stmt.prunedEach_eq_map h
  have htwice : (Stmt.prunedEach p).map Stmt.pruned = p.map Stmt.pruned := by
    rw [hmap, List.map_map]
    exact List.map_congr_left fun s _ => s.pruned_pruned
  obtain ⟨hanswer, hmachine⟩ := m.recoded_pruned.interpret (.refl True fuel) p (.inl trivial)
  obtain ⟨hanswer', hmachine'⟩ :=
    m.recoded_pruned.interpret (.refl True fuel) (Stmt.prunedEach p) (.inl trivial)
  rw [show (Stmt.prunedEach p).map Recoding.pruning.stmt = p.map Recoding.pruning.stmt from htwice]
    at hanswer' hmachine'
  rw [Answer.relabel_of_line rfl] at hanswer hanswer'
  exact ⟨hanswer'.symm.trans hanswer, hmachine'.host.symm.trans hmachine.host⟩

namespace Session

variable {s : Session} {source source' : String} {p p' : Program} {d d' : Distances} {n n' : Nat}

/-- A program that has been read gives the same answer, and uses the host in the same way, without what
follows a `return` and with the table for that. -/
theorem Reachable.interpret_pruned (h : s.Reachable) (hr : s.limit.Reads s.nextId source p d n)
    {e : Distances} (he : Program.distances (Stmt.prunedEach p) = .ok e) (fuel : Nat) :
    let run := (s.machine.addDistances d).interpret fuel p
    let run' := (s.machine.addDistances e).interpret fuel (Stmt.prunedEach p)
    run'.1 = run.1 ∧ run'.2.toHost = run.2.toHost := by
  have hnumbered := hr.made.2.numbered
  have hpruned := hnumbered.pruned
  obtain ⟨e', he', hsame⟩ := Program.distances_pruned hnumbered.nodup hr.distances
  cases he'.symm.trans he
  let left := fun i => i < s.nextId ∨ i ∈ Stmt.idsEach (Stmt.prunedEach p)
  -- numbers of what is left out are taken to numbers that the table does not know
  let g : Relabel := .numbers fun i => if left i then i else n + i
  have hleft : ∀ i, left i → g.number i = i := fun i hi => if_pos hi
  have hg : g.Keeps s.nextId := by
    refine ⟨rfl, fun i hi => hleft i (.inl hi), fun i hi => ?_⟩
    show s.nextId ≤ if left i then i else n + i
    split <;> omega
  have hdistances : ∀ i, d[g.number i]? = e[i]? := by
    intro i
    by_cases hi : left i
    · rw [hleft i hi]
      rcases hi with hi | hi
      · have hbelow {q : Program} (hq : Numbered s.nextId n (Stmt.idsEach q)) :
            i ∉ Stmt.idsEach q := fun hmem => Nat.not_le.2 hi (hq.bounds i hmem).1
        rw [Program.getElem?_distances hr.distances (hbelow hnumbered),
          Program.getElem?_distances he (hbelow hpruned)]
      · exact (hsame i hi).symm
    · have habove : g.number i = n + i := if_neg hi
      rw [habove, Program.getElem?_distances he fun hmem => hi (.inr hmem),
        Program.getElem?_distances hr.distances fun hmem => by
          have := hnumbered.below _ hmem
          omega]
  have hrelabeled : (s.machine.addDistances e).Relabeled g (s.machine.addDistances d) :=
    Shifted.addDistances (h.steady.relabeled hg) hdistances
  have hprogram : Stmt.relabelEach g (Stmt.prunedEach p) = Stmt.prunedEach p :=
    (Stmt.relabelEach_congr (h := .refl) hg.line _ fun i hi => hleft i (.inr hi)).trans
      (Stmt.relabelEach_refl _)
  have hrun := hrelabeled.interpret (.refl True fuel) (Stmt.prunedEach p) (.inl trivial)
  rw [hprogram, Answer.relabel_of_line rfl] at hrun
  obtain ⟨hanswer, hhost⟩ := (s.machine.addDistances d).interpret_pruned
    (Program.not_isReturn hr.made.2.proper hr.distances) fuel
  exact ⟨hrun.1.symm.trans hanswer, hrun.2.host.symm.trans hhost⟩

/-- Accepted sources that are the same on such lines, apart from what follows a `return`, use the host in
the same way and give the same answer but for lines. -/
theorem Reachable.run_pruned (h : s.Reachable) (hr : s.limit.Reads s.nextId source p d n)
    (hr' : s.limit.Reads s.nextId source' p' d' n') {f : Nat → Nat}
    (hsame : Program.SameOn f (Stmt.prunedEach p) (Stmt.prunedEach p')) (fuel : Nat) :
    (s.run fuel source).1.relabel (.lines f) = (s.run fuel source').1.relabel (.lines f)
      ∧ (s.run fuel source').2.machine.toHost = (s.run fuel source).2.machine.toHost := by
  have hnumbered := hr.made.2.numbered
  have hnumbered' := hr'.made.2.numbered
  obtain ⟨e, he, -⟩ := Program.distances_pruned hnumbered.nodup hr.distances
  obtain ⟨e', he', -⟩ := Program.distances_pruned hnumbered'.nodup hr'.distances
  obtain ⟨hanswer, hhost⟩ := h.interpret_pruned hr he fuel
  obtain ⟨hanswer', hhost'⟩ := h.interpret_pruned hr' he' fuel
  have hboth := h.interpret_sameOn hsame hnumbered.pruned hnumbered'.pruned he he' fuel
  rw [run_of_reads hr, run_of_reads hr', ← hanswer, ← hanswer', ← hhost, ← hhost']
  exact hboth

end Session

end Lox
