import Lox.Proofs.Parsing.Joined
import Lox.Proofs.Scoping.Relabeled
import Lox.Proofs.Session.Relabeled

/-!
Sessions that number expressions differently. A program that is rejected has used up numbers, and that
is all it leaves behind: every run after it does what it would have done without. The two sessions go
on in step, with numbers that are apart by a constant from the point on at which the program was
rejected (`Session.Shifted`).
-/

namespace Lox

/-- Numbers from the bound on are `k` higher. -/
def Relabel.shift (bound k : Nat) : Relabel :=
  .numbers fun i => if i < bound then i else i + k

namespace Relabel

variable (bound k : Nat)

theorem shift_keeps : (shift bound k).Keeps bound where
  line := rfl
  below := fun i hi => if_pos hi
  above := by
    intro i hi
    show bound ≤ if i < bound then i else i + k
    split <;> omega

theorem shift_of_le {i : Nat} (hi : bound ≤ i) : (shift bound k).number i = i + k :=
  if_neg (Nat.not_lt.2 hi)

theorem shift_injective : Function.Injective (shift bound k).number := by
  intro i j h
  change (if i < bound then i else i + k) = if j < bound then j else j + k at h
  split at h <;> split at h <;> omega

end Relabel

namespace Session

/-- The second session gives numbers that are `k` higher, and did so for those from `bound` on. -/
structure Shifted (bound k : Nat) (s s' : Session) : Prop where
  limit : s'.limit = s.limit
  le : bound ≤ s.nextId
  nextId : s'.nextId = s.nextId + k
  machine : s.machine.Relabeled (.shift bound k) s'.machine

namespace Shifted

variable {bound k : Nat} {s s' : Session}

/-- Nothing is executed, and the numbers go on equally. -/
theorem skip (h : Shifted bound k s s') {n : Nat} (hn : s.nextId ≤ n) :
    Shifted bound k { s with nextId := n } { s' with nextId := n + k } :=
  ⟨h.limit, Nat.le_trans h.le hn, rfl, h.machine⟩

/-- Distances that are found for numbers that are `k` higher. -/
theorem addDistances {g : Recoding} {m m' : Machine} (h : m.Recoded g m') {d d' : Distances}
    (hd : ∀ i, d'[g.number i]? = d[i]?) : (m.addDistances d).Recoded g (m'.addDistances d') where
  host := h.host
  store := h.store
  environment := h.environment
  distances := by
    intro i
    simp only [Machine.addDistances, Distances.getElem?_insertMany, hd, h.distances]
  nextIdentity := h.nextIdentity

/-- A program is executed, whose expressions all have new numbers. -/
theorem runProgram (h : Shifted bound k s s') (fuel : Nat) {p : Program}
    (hp : ∀ i ∈ Stmt.idsEach p, bound ≤ i) :
    (s'.runProgramBy (execute fuel) (Stmt.relabelEach (.numbers (· + k)) p)).1
        = (s.runProgramBy (execute fuel) p).1
      ∧ Shifted bound k (s.runProgramBy (execute fuel) p).2
        (s'.runProgramBy (execute fuel) (Stmt.relabelEach (.numbers (· + k)) p)).2 := by
  have hsame : Stmt.relabelEach (.numbers (· + k)) p = Stmt.relabelEach (.shift bound k) p := by
    refine Stmt.relabelEach_congr ?_ p fun i hi => ?_
    · rfl
    · exact (Relabel.shift_of_le bound k (hp i hi)).symm
  rw [hsame]
  have hdistances := Program.distances_relabel (.shift bound k) (Relabel.shift_injective bound k) p
  unfold runProgramBy
  generalize p.distances = r, Program.distances (Stmt.relabelEach (.shift bound k) p) = r'
    at hdistances
  cases r with
  | error faults =>
    cases r' with
    | ok d' => exact hdistances.elim
    | error faults' =>
      have hfaults : faults' = faults :=
        hdistances.trans (Diagnostic.map_relabel_of_line rfl faults)
      exact ⟨by rw [hfaults], h⟩
  | ok d =>
    cases r' with
    | error faults' => exact hdistances.elim
    | ok d' =>
      obtain ⟨hanswer, hmachine⟩ := Machine.Relabeled.interpret
        (addDistances h.machine hdistances) (.refl True fuel) p (.inl trivial)
      refine ⟨hanswer.trans (Answer.relabel_of_line rfl _), h.limit, h.le, h.nextId, hmachine⟩

/-- Both sessions give the same answer to a source, and go on in step. -/
theorem run (h : Shifted bound k s s') (fuel : Nat) (source : String) :
    (s'.run fuel source).1 = (s.run fuel source).1
      ∧ Shifted bound k (s.run fuel source).2 (s'.run fuel source).2 := by
  cases hts : tokens source with
  | error faults =>
    simp only [Session.run, runBy, parse, hts, true_and]
    exact h
  | ok ts =>
    obtain ⟨hle, hmade, -⟩ := parseProgram_made s.limit s.nextId (tokens_sound hts)
    have hnext := h.skip hle
    rw [h.limit] at hnext
    simp only [Session.run, runBy, parse, hts, h.limit, h.nextId, parseProgram_add]
    cases hp : (parseProgram s.limit s.nextId ts).result with
    | error faults =>
      dsimp only [Except.map]
      exact ⟨rfl, hnext⟩
    | ok p =>
      dsimp only [Except.map]
      exact hnext.runProgram fuel fun i hi =>
        Nat.le_trans h.le ((hmade p hp).numbered.bounds i hi).1

end Shifted

/-! ### Rejected sources -/

/-- What each of a number of runs answers, and what the host is after it. -/
def history : List (Nat × String) → Session → List (Answer Unit × Host)
  | [], _ => []
  | (fuel, source) :: later, s =>
    ((s.run fuel source).1, (s.run fuel source).2.machine.toHost)
      :: history later (s.run fuel source).2

theorem Shifted.history {bound k : Nat} {s s' : Session} (h : Shifted bound k s s')
    (later : List (Nat × String)) : s'.history later = s.history later := by
  induction later generalizing s s' with
  | nil => rfl
  | cons entry later ih =>
    obtain ⟨fuel, source⟩ := entry
    obtain ⟨hanswer, hnext⟩ := h.run fuel source
    rw [Session.history, Session.history, hanswer, hnext.machine.host, ih hnext]

/-- A session that has used up numbers is in step with the one that has not. -/
theorem Reachable.shifted {s : Session} (h : s.Reachable) (k : Nat) :
    Shifted s.nextId k s { s with nextId := s.nextId + k } :=
  ⟨rfl, Nat.le_refl _, rfl, h.steady.relabeled (Relabel.shift_keeps _ _)⟩

/-- No fault of the stages before the execution is among those of an execution. -/
theorem interpret_isEarly {m : Machine} {fuel : Nat} {p : Program}
    {faults : List Diagnostic} (h : (m.interpret fuel p).1 = .failure faults) :
    ∀ d ∈ faults, d.isEarly = false := by
  unfold Machine.interpret Machine.interpretBy Run.answer at h
  cases hr : (p.forM fun s => discard (execute fuel s)) m with
  | ok a m' =>
    rw [hr] at h
    simp only [Answer.flushed] at h
    split at h <;> cases h
    simp [Diagnostic.isEarly]
  | error stop m' =>
    rw [hr] at h
    cases stop <;> cases h
    simp [Diagnostic.isEarly]

/-- A source that is rejected leaves nothing behind but that numbers are used up: the machine is what
it was, and all runs to come give the answers that they would have given without it. -/
theorem Reachable.rejected_invisible {s : Session} (h : s.Reachable) {fuel : Nat} {source : String}
    {faults : List Diagnostic} {d : Diagnostic} (hrun : (s.run fuel source).1 = .failure faults)
    (hd : d ∈ faults) (hearly : d.isEarly = true) :
    (∃ n, s.nextId ≤ n ∧ (s.run fuel source).2 = { s with nextId := n })
      ∧ ∀ later, (s.run fuel source).2.history later = s.history later := by
  rcases s.run_cases source with ⟨faults', n, hn, -, hrejected⟩ | ⟨p, d', n, hr, hexecuted⟩
  · have hafter : (s.run fuel source).2 = { s with nextId := n } := by
      rw [Session.run, hrejected]
    refine ⟨⟨n, hn, hafter⟩, ?_⟩
    intro later
    obtain ⟨k, rfl⟩ := Nat.exists_eq_add_of_le hn
    rw [hafter]
    exact (h.shifted k).history later
  · rw [Session.run, hexecuted] at hrun
    have hlate := interpret_isEarly hrun d hd
    rw [hearly] at hlate
    cases hlate

/-- A block whose second line reads a local name before it is set. -/
def readingTooEarly : String :=
  "\x7b var a = 1;\n var b = b; \x7d"

/-- The block is rejected, and has used up numbers; what was declared before it is still there. -/
theorem Reachable.rejected_invisible_readingTooEarly :
    let s := (({ machine := .fresh {} fun _ => 0 } : Session).run 20 "var a = 2;").2
    s.Reachable
      ∧ (s.run 20 readingTooEarly).1
        = .failure [.static ⟨.identifier, "b", 2⟩ .readInOwnInitializer]
      ∧ ((∃ n, s.nextId ≤ n ∧ (s.run 20 readingTooEarly).2 = { s with nextId := n })
        ∧ ∀ later, (s.run 20 readingTooEarly).2.history later = s.history later) := by
  have h : (({ machine := .fresh {} fun _ => 0 } : Session).run 20 "var a = 2;").2.Reachable :=
    .run 20 "var a = 2;" (.fresh {} {} fun _ => 0)
  have hrun : ((({ machine := .fresh {} fun _ => 0 } : Session).run 20 "var a = 2;").2.run 20
      readingTooEarly).1 = .failure [.static ⟨.identifier, "b", 2⟩ .readInOwnInitializer] := by
    decide +kernel
  exact ⟨h, hrun, h.rejected_invisible hrun (List.mem_singleton_self _) rfl⟩

end Session

end Lox
