import Lox.Proofs.Execution.Undisturbed
import Lox.Proofs.Safety.Sessions
import Lox.Proofs.Session.Relabeled

/-!
The numbers of expressions over a whole session. The programs that are read in a session never share
a number, whatever becomes of them (`Session.numbered_programs`), and a run leaves what the table in
use says about the numbers before it (`Session.Reachable.le_table_run`). So at every later moment the
table says about an expression what scoping has said about it in its own program
(`Session.Identifies`).
-/

namespace Lox

/-- The distance that scoping finds for the expression with this number; it finds none in a program
with faults. -/
def Program.distance? (p : Program) (id : Nat) : Option Nat :=
  p.distances.toOption.bind (·[id]?)

/-- The table in use says about each expression of the program what scoping says. -/
def Machine.Records (m : Machine) (p : Program) : Prop :=
  ∀ id ∈ Stmt.idsEach p, m.distances[id]? = p.distance? id

instance (m : Machine) (p : Program) : Decidable (m.Records p) :=
  inferInstanceAs (Decidable (∀ id ∈ Stmt.idsEach p, m.distances[id]? = p.distance? id))

/-- No run of a program changes the table in use. -/
theorem Machine.distances_interpret (m : Machine) (fuel : Nat) (p : Program) :
    (m.interpret fuel p).2.distances = m.distances :=
  congrArg Fixed.distances (m.fixed_interpret fuel p)

/-- The watch for a program that the table in use says the right things about. -/
def Watch.records (p : Program) (stop : Stop) : Watch :=
  ⟨fun m _ => decide (m.Records p), stop⟩

/-- If the table says the right things about a program, it does so while any program runs. -/
theorem Machine.Records.interpretBy {m : Machine} {p : Program} (h : m.Records p) (fuel : Nat)
    (stop : Stop) (q : Program) :
    m.interpretBy ((Watch.records p stop).execute fuel) q = m.interpret fuel q := by
  refine (interpretBy_undisturbed (fun n _ hn => ?_) fuel q).1
  have hrecords : n.Records p := fun id hid => hn ▸ h id hid
  exact decide_eq_true hrecords

namespace Session

/-! ### What is read in a session -/

/-- The program that is read from a source, if there is one. -/
def program? (s : Session) (source : String) : Option Program :=
  (s.parse parseProgram source).1.toOption

/-- The session after runs, each of which has its fuel. -/
def after (s : Session) (runs : List (Nat × String)) : Session :=
  runs.foldl (fun s entry => (s.run entry.1 entry.2).2) s

/-- All programs that are read in runs, also those that scoping rejects and those that fail. -/
def programs (s : Session) : List (Nat × String) → List Program
  | [] => []
  | (fuel, source) :: later =>
    (s.program? source).toList ++ (s.run fuel source).2.programs later

/-- If a source is read, its program has the next numbers, and goes to the stages after. -/
theorem runBy_of_program? {s : Session} {source : String} {p : Program}
    (hp : s.program? source = some p) :
    ∃ n, s.nextId ≤ n ∧ Stmt.MadeEach s.nextId n p
      ∧ ∀ execute, s.runBy execute source = { s with nextId := n }.runProgramBy execute p := by
  unfold program? parse at hp
  cases hts : tokens source with
  | error faults =>
    rw [hts] at hp
    cases hp
  | ok ts =>
    obtain ⟨hle, hmade, -⟩ := parseProgram_made s.limit s.nextId (tokens_sound hts)
    rw [hts] at hp
    cases hr : (parseProgram s.limit s.nextId ts).result with
    | error faults =>
      simp only [hr] at hp
      cases hp
    | ok q =>
      simp only [hr] at hp
      cases hp
      exact ⟨_, hle, hmade p hr, fun execute => by simp only [runBy, parse, hts, hr]⟩

theorem program?_of_reads {s : Session} {source : String} {p : Program} {d : Distances} {n : Nat}
    (hr : s.limit.Reads s.nextId source p d n) : s.program? source = some p := by
  obtain ⟨ts, hts, hp⟩ := hr.parsed
  simp only [program?, parse, hts, hp]
  rfl

theorem nextId_runProgramBy (s : Session) (execute : Stmt → Run Completion) (p : Program) :
    (s.runProgramBy execute p).2.nextId = s.nextId := by
  unfold runProgramBy
  cases p.distances <;> rfl

/-- Numbers never go back. -/
theorem nextId_le_run (s : Session) (fuel : Nat) (source : String) :
    s.nextId ≤ (s.run fuel source).2.nextId := by
  rcases s.run_cases source with ⟨faults, n, hn, -, hrun⟩ | ⟨p, d, n, hr, hrun⟩
  · rw [Session.run, hrun]
    exact hn
  · rw [Session.run, hrun]
    exact hr.made.1

/-- The number of the next expression after runs is that of the next expression before them or
higher. -/
theorem nextId_le_after (s : Session) (runs : List (Nat × String)) :
    s.nextId ≤ (s.after runs).nextId := by
  induction runs generalizing s with
  | nil => exact Nat.le_refl _
  | cons entry later ih => exact Nat.le_trans (s.nextId_le_run entry.1 entry.2) (ih _)

/-- The program that a run reads has the numbers that the run uses up. -/
theorem made_of_program? {s : Session} {source : String} {p : Program}
    (hp : s.program? source = some p) (fuel : Nat) :
    Stmt.MadeEach s.nextId (s.run fuel source).2.nextId p := by
  obtain ⟨n, -, hmade, hrun⟩ := runBy_of_program? hp
  rw [Session.run, hrun, nextId_runProgramBy]
  exact hmade

/-- All programs that are read in runs have numbers of their own. -/
theorem numbered_programs (s : Session) (runs : List (Nat × String)) :
    Numbered s.nextId (s.after runs).nextId ((s.programs runs).flatMap Stmt.idsEach) := by
  induction runs generalizing s with
  | nil => exact .nil _ _
  | cons entry later ih =>
    obtain ⟨fuel, source⟩ := entry
    have hfirst : Numbered s.nextId (s.run fuel source).2.nextId
        ((s.program? source).toList.flatMap Stmt.idsEach) := by
      cases hp : s.program? source with
      | none => exact .nil _ _
      | some p => simpa using (made_of_program? hp fuel).numbered
    rw [programs, List.flatMap_append]
    exact hfirst.append (ih _) (s.nextId_le_run fuel source) (nextId_le_after _ later)

/-! ### The table in use -/

variable {s : Session}

/-- The table in use, which says nothing about numbers that no expression has yet. -/
def Reachable.table (h : s.Reachable) : Table :=
  ⟨s.machine.distances, s.nextId, h.sound.distances_eq_none⟩

theorem Reachable.after (h : s.Reachable) (runs : List (Nat × String)) :
    (s.after runs).Reachable := by
  induction runs generalizing s with
  | nil => exact h
  | cons entry later ih => exact ih (h.run entry.1 entry.2)

/-- After the run of a program that scoping accepts, its distances have been added to the table. -/
theorem distances_run {source : String} {p : Program} {d : Distances} {n fuel : Nat}
    (hrun : ∀ execute, s.runBy execute source = { s with nextId := n }.interpretBy execute p d) :
    (s.run fuel source).2.machine.distances = (s.machine.addDistances d).distances := by
  rw [Session.run, hrun]
  exact Machine.distances_interpret _ fuel p

/-- A run leaves what the table says about the numbers before it. -/
theorem Reachable.le_table_run (h : s.Reachable) (fuel : Nat) (source : String) :
    h.table.Le (h.run fuel source).table := by
  refine ⟨s.nextId_le_run fuel source, fun id hid => ?_⟩
  show (s.run fuel source).2.machine.distances[id]? = s.machine.distances[id]?
  rcases s.run_cases source with ⟨faults, n, -, -, hrun⟩ | ⟨p, d, n, hr, hrun⟩
  · rw [Session.run, hrun]
  · have hnone : d[id]? = none := Program.getElem?_distances hr.distances fun hmem =>
      Nat.not_le.2 hid (hr.made.2.numbered.bounds id hmem).1
    rw [distances_run hrun, Machine.addDistances, Distances.getElem?_insertMany, hnone]
    rfl

theorem Reachable.le_table_after (h : s.Reachable) (runs : List (Nat × String)) :
    h.table.Le (h.after runs).table := by
  induction runs generalizing s with
  | nil => exact .refl _
  | cons entry later ih =>
    have hrest := ih (h.run entry.1 entry.2)
    have hfirst := h.le_table_run entry.1 entry.2
    exact ⟨Nat.le_trans hfirst.bound hrest.bound, fun id hid =>
      (hrest.same id (Nat.lt_of_lt_of_le hid hfirst.bound)).trans (hfirst.same id hid)⟩

/-- A program adds to the table what scoping says about it. -/
theorem Reachable.records_addDistances (h : s.Reachable) {p : Program} {d : Distances} {n : Nat}
    (hmade : Stmt.MadeEach s.nextId n p) (hd : p.distances = .ok d) :
    (s.machine.addDistances d).Records p := by
  intro id hid
  have hnew : s.machine.distances[id]? = none :=
    h.sound.distances_eq_none id (hmade.numbered.bounds id hid).1
  rw [Machine.addDistances, Distances.getElem?_insertMany, hnew, Option.or_none, Program.distance?,
    hd]
  rfl

/-- After its run the table says about a program what scoping says, also if scoping rejects it. -/
theorem Reachable.records_run (h : s.Reachable) {source : String} {p : Program}
    (hp : s.program? source = some p) (fuel : Nat) :
    (s.run fuel source).2.machine.Records p := by
  obtain ⟨n, -, hmade, hrun⟩ := runBy_of_program? hp
  intro id hid
  rw [Session.run, hrun, runProgramBy]
  cases hd : p.distances with
  | error faults =>
    rw [Program.distance?, hd]
    exact h.sound.distances_eq_none id (hmade.numbered.bounds id hid).1
  | ok d =>
    show ((s.machine.addDistances d).interpret fuel p).2.distances[id]? = _
    rw [Machine.distances_interpret]
    exact h.records_addDistances hmade hd id hid

/-- What the table says about a program it says after all runs to come. -/
theorem Reachable.records_after (h : s.Reachable) {p : Program}
    (hp : ∀ id ∈ Stmt.idsEach p, id < s.nextId) (hrecords : s.machine.Records p)
    (later : List (Nat × String)) : (s.after later).machine.Records p :=
  fun id hid => ((h.le_table_after later).same id (hp id hid)).trans (hrecords id hid)

/-- After its run the table links a program that scoping accepts. -/
theorem Reachable.linked_run (h : s.Reachable) {source : String} {p : Program} {d : Distances}
    (hp : s.program? source = some p) (hd : p.distances = .ok d) (fuel : Nat) :
    Stmt.LinkedEach (h.run fuel source).table {} p := by
  obtain ⟨n, hn, hmade, hrun⟩ := runBy_of_program? hp
  have hlinked : Stmt.LinkedEach (h.table.add p hd n hn hmade.numbered.below) {} p :=
    Program.linked_add hmade.proper hmade.numbered.nodup fun id hid =>
      (hmade.numbered.bounds id hid).1
  refine hlinked.mono ⟨?_, fun id _ => ?_⟩
  · have hnext : (s.run fuel source).2.nextId = n := by
      rw [Session.run, hrun, nextId_runProgramBy]
    exact Nat.le_of_eq hnext.symm
  · show (s.run fuel source).2.machine.distances[id]? = _
    rw [Session.run, hrun, runProgramBy, hd]
    show ((s.machine.addDistances d).interpret fuel p).2.distances[id]? = _
    rw [Machine.distances_interpret]
    rfl

/-! ### Runs that are watched for the right distances -/

/-- If the table says the right things about `p` as soon as the distances of a source have been
added to it, it does so during the whole run of the source. -/
theorem runBy_records {p : Program} {source : String}
    (h : ∀ q d n, s.limit.Reads s.nextId source q d n → (s.machine.addDistances d).Records p)
    (fuel : Nat) (stop : Stop) :
    s.runBy ((Watch.records p stop).execute fuel) source = s.run fuel source := by
  rcases s.run_cases source with ⟨faults, n, -, -, hrun⟩ | ⟨q, d, n, hr, hrun⟩
  · rw [Session.run, hrun, hrun]
  · simp only [Session.run, hrun, interpretBy]
    rw [(h q d n hr).interpretBy]
    rfl

/-- The run of a program has the right distances for it. -/
theorem Reachable.runBy_own (h : s.Reachable) {source : String} {p : Program}
    (hp : s.program? source = some p) (fuel : Nat) (stop : Stop) :
    s.runBy ((Watch.records p stop).execute fuel) source = s.run fuel source := by
  refine runBy_records (fun q d n hr => ?_) fuel stop
  obtain rfl : q = p := Option.some.inj ((program?_of_reads hr).symm.trans hp)
  exact h.records_addDistances hr.made.2 hr.distances

/-- The runs to come have the right distances for a program that the table is right about. -/
theorem runBy_later {p : Program} (hp : ∀ id ∈ Stmt.idsEach p, id < s.nextId)
    (hrecords : s.machine.Records p) (fuel : Nat) (source : String) (stop : Stop) :
    s.runBy ((Watch.records p stop).execute fuel) source = s.run fuel source := by
  refine runBy_records (fun q d n hr => ?_) fuel stop
  intro id hid
  have hnone : d[id]? = none := Program.getElem?_distances hr.distances fun hmem =>
    Nat.not_le.2 (hp id hid) (hr.made.2.numbered.bounds id hmem).1
  rw [Machine.addDistances, Distances.getElem?_insertMany, hnone]
  exact hrecords id hid

/-! ### Identities -/

/-- The numbers of a program's expressions stand for them and nothing else, in its own run from this
session and for ever after. -/
structure Identifies (s : Session) (fuel : Nat) (source : String) (p : Program) : Prop where
  bounds : ∀ id ∈ Stmt.idsEach p, s.nextId ≤ id ∧ id < (s.run fuel source).2.nextId
  rising : Stmt.RisingEach p
  /-- A run that stops as soon as the table says anything else about the program is the run. -/
  during : ∀ stop, s.runBy ((Watch.records p stop).execute fuel) source = s.run fuel source
  between : ∀ later, ((s.run fuel source).2.after later).machine.Records p
  /-- Runs to come that stop as soon as the table says anything else are these runs. -/
  later : ∀ later fuel' source' stop,
    ((s.run fuel source).2.after later).runBy ((Watch.records p stop).execute fuel') source'
      = ((s.run fuel source).2.after later).run fuel' source'
  /-- If scoping accepts the program, every name in it goes on having the distance that the scopes
  around it ask for, and a global one none. -/
  linked : ∀ d, p.distances = .ok d → ∀ later, ∃ t : Table,
    t.distances = ((s.run fuel source).2.after later).machine.distances
      ∧ Stmt.LinkedEach t {} p

/-- The programs of a session never share a number, and the number of an expression stands for this
expression at every later moment. -/
theorem numbers_identify (limit : Limit) (console : Console) (clock : Nat → Float)
    (runs : List (Nat × String)) :
    let first : Session := { limit, machine := .fresh console clock }
    ((first.programs runs).flatMap Stmt.idsEach).Nodup
      ∧ ∀ fuel source p, (first.after runs).program? source = some p →
        (first.after runs).Identifies fuel source p := by
  refine ⟨(numbered_programs _ runs).nodup, fun fuel source p hp => ?_⟩
  have h := (Reachable.fresh limit console clock).after runs
  have hmade := made_of_program? hp fuel
  have hrun := h.run fuel source
  have hrecords := h.records_run hp fuel
  have hbelow := hmade.numbered.below
  have hafter := hrun.records_after hbelow hrecords
  refine ⟨hmade.numbered.bounds, hmade.rising, h.runBy_own hp fuel, hafter, ?_, ?_⟩
  · intro later fuel' source'
    exact runBy_later (fun id hid => Nat.lt_of_lt_of_le (hbelow id hid) (nextId_le_after _ later))
      (hafter later) fuel' source'
  · intro d hd later
    exact ⟨(hrun.after later).table, rfl,
      (h.linked_run hp hd fuel).mono (hrun.le_table_after later)⟩

/-- Sources of which the first is no program, the second one that scoping rejects, and the third one
that stops at a fault. -/
def troubled : List (Nat × String) :=
  [(20, "f(1 = 2);"), (20, "\x7b var b = b; \x7d"), (20, "var o = 1; o.x;")]

/-- A program with a function in a block. -/
def closing : String :=
  "\x7b var a = o; fun f() \x7b return a; \x7d f(); \x7d"

/-- The numbers go on after the sources in trouble, of which two have been read. -/
theorem numbers_identify_closing :
    let first : Session := { machine := .fresh {} fun _ => 0 }
    ((first.programs troubled).flatMap Stmt.idsEach).Nodup
      ∧ (first.programs troubled).map Stmt.idsEach = [[4], [5, 7, 6]]
      ∧ ∃ p, (first.after troubled).program? closing = some p ∧ Stmt.idsEach p = [8, 9, 11, 10]
        ∧ (first.after troubled).Identifies 20 closing p := by
  intro first
  have hread : ((first.after troubled).program? closing).map Stmt.idsEach = some [8, 9, 11, 10] := by
    decide +kernel
  obtain ⟨p, hp, hids⟩ := Option.map_eq_some_iff.1 hread
  obtain ⟨hnodup, h⟩ := numbers_identify {} {} (fun _ => 0) troubled
  exact ⟨hnodup, by decide +kernel, p, hp, hids, h 20 closing p hp⟩

end Session

end Lox
