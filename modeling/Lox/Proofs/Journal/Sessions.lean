import Lox.Proofs.Journal.Traits
import Lox.Proofs.Session.Joined

/-!
Journals of sessions. A source that all stages before the execution accept is executed, and what is done
then is its journal (`Session.run_of_read?`); of any other source the journal is empty, and it is
rejected with the same faults whatever the machine is (`Session.run_of_read?_none`).
-/

namespace Lox

namespace Session

variable {s : Session} {source : String}

/-- What is done when the source is run. -/
def journal (fuel : Nat) (source : String) (s : Session) : List Event :=
  match s.limit.read? s.nextId source with
  | none => []
  | some (p, d, _) => (Journaled.program fuel p (s.machine.addDistances d)).2

/-- The journal is that of the program that is executed. -/
theorem run_of_read? {p : Program} {d : Distances} {n : Nat}
    (h : s.limit.read? s.nextId source = some (p, d, n)) (fuel : Nat) :
    s.journal fuel source = (Journaled.program fuel p (s.machine.addDistances d)).2
      ∧ s.run fuel source =
        let (answer, machine) :=
          Run.answer (Journaled.program fuel p).run (s.machine.addDistances d)
        (answer.flushed machine.toHost, { s with nextId := n, machine }) := by
  constructor
  · rw [journal, h]
  · rw [run_of_reads (Limit.read?_eq_some_iff.1 h), Journaled.run_program]
    rfl

/-- A source that some stage before the execution rejects is not executed, and the machine plays no part
in its rejection. -/
theorem run_of_read?_none (h : s.limit.read? s.nextId source = none) :
    (∀ fuel, s.journal fuel source = [])
      ∧ ∃ faults n, ∀ (m : Machine) fuel, { s with machine := m }.run fuel source
        = (.failure faults, { s with nextId := n, machine := m }) := by
  refine ⟨fun fuel => by rw [journal, h], ?_⟩
  unfold Limit.read? at h
  split at h
  · rename_i faults hts
    exact ⟨faults, s.nextId, fun m fuel => by simp only [run, runBy, parse, hts]⟩
  · rename_i ts hts
    split at h
    · rename_i faults n hp
      exact ⟨faults, n, fun m fuel => by simp only [run, runBy, parse, hts, hp]⟩
    · rename_i p n hp
      split at h
      · rename_i faults hd
        exact ⟨faults, n, fun m fuel => by simp only [run, runBy, parse, hts, hp, runProgramBy, hd]⟩
      · cases h

end Session

end Lox
