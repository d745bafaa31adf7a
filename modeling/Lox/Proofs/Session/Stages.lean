import Lox.Session
import Lox.Proofs.Lexing.Sound
import Lox.Proofs.Parsing.Trees
import Lox.Proofs.Scoping.Tables

/-!
The stages of a run. A source is rejected before anything is executed, or it is the text of a program
that is then executed (`Session.run_cases`); in both cases the numbers of expressions only go up, and
those of the program are between what they were and what they are then.
-/

namespace Lox

namespace Parser

/-- What reading a list of tokens makes. -/
theorem parse_makes {α : Type} {p : Reading α} {firstId : Nat} {ts : List Token}
    {post : Nat → α → Prop} (h : Makes firstId p post) (hts : ∀ t ∈ ts, t.Sound) :
    let parsed := (Cursor.start firstId ts).parse p
    firstId ≤ parsed.nextId ∧ (∀ a, parsed.result = .ok a → post parsed.nextId a)
      ∧ ∀ faults, parsed.result = .error faults → ∀ d ∈ faults, d.stage = .parsing := by
  have h := h (Cursor.start firstId ts) rfl fun t ht =>
    hts t ((List.takeWhile_sublist _).mem ht)
  unfold MakesAt at h
  unfold Cursor.parse
  split at h
  · rename_i a s hp
    obtain ⟨hbefore, hpost⟩ := h
    have hfaults : ∀ d ∈ s.faults, d.stage = .parsing := fun d hd =>
      (hbefore.faults d hd).resolve_left (by simp [Cursor.start])
    rw [hp]
    dsimp only
    by_cases hs : s.faults = []
    · rw [if_pos hs]
      refine ⟨hbefore.nextId, ?_, nofun⟩
      intro a' ha
      cases ha
      exact hpost
    · rw [if_neg hs]
      refine ⟨hbefore.nextId, nofun, ?_⟩
      intro faults hf
      cases hf
      exact hfaults
  · rename_i e s hp
    obtain ⟨hbefore, he⟩ := h
    have hfaults : ∀ d ∈ s.faults, d.stage = .parsing := fun d hd =>
      (hbefore.faults d hd).resolve_left (by simp [Cursor.start])
    rw [hp]
    cases e with
    | fault d =>
      refine ⟨hbefore.nextId, nofun, ?_⟩
      intro faults hf d' hd'
      cases hf
      rcases List.mem_append.1 hd' with hd' | hd'
      · exact hfaults d' hd'
      · exact List.mem_singleton.1 hd' ▸ he d rfl
    | outOfRounds =>
      refine ⟨hbefore.nextId, nofun, ?_⟩
      intro faults hf
      cases hf
      exact hfaults

end Parser

/-- The program that is read from tokens has proper trees, with numbers of their own. -/
theorem parseProgram_made (limit : Limit) (firstId : Nat) {ts : List Token}
    (hts : ∀ t ∈ ts, t.Sound) :
    firstId ≤ (parseProgram limit firstId ts).nextId
      ∧ (∀ p, (parseProgram limit firstId ts).result = .ok p →
        Stmt.MadeEach firstId (parseProgram limit firstId ts).nextId p)
      ∧ ∀ faults, (parseProgram limit firstId ts).result = .error faults →
        ∀ d ∈ faults, d.stage = .parsing :=
  Parser.parse_makes (Parser.Makes.program limit _ firstId) hts

/-- The text is one that all stages before the execution accept: these are its program and the
distances in it, and its expressions have the numbers from `firstId` on and below `nextId`. -/
structure Limit.Reads (limit : Limit) (firstId : Nat) (source : String) (p : Program)
    (d : Distances) (nextId : Nat) : Prop where
  parsed : ∃ ts, tokens source = .ok ts ∧ parseProgram limit firstId ts = ⟨.ok p, nextId⟩
  distances : p.distances = .ok d

/-- What all stages before the execution make of a text: its program, the distances in it and the
number of the next expression. -/
def Limit.read? (limit : Limit) (firstId : Nat) (source : String) :
    Option (Program × Distances × Nat) :=
  match tokens source with
  | .error _ => none
  | .ok ts =>
    match parseProgram limit firstId ts with
    | ⟨.error _, _⟩ => none
    | ⟨.ok p, nextId⟩ =>
      match p.distances with
      | .error _ => none
      | .ok d => some (p, d, nextId)

theorem Limit.read?_eq_some_iff {limit : Limit} {firstId nextId : Nat} {source : String}
    {p : Program} {d : Distances} :
    limit.read? firstId source = some (p, d, nextId) ↔ limit.Reads firstId source p d nextId := by
  unfold read?
  constructor
  · intro h
    split at h
    · cases h
    rename_i ts hts
    split at h
    · cases h
    rename_i p' n' hp
    split at h
    · cases h
    rename_i d' hd
    cases h
    exact ⟨⟨ts, hts, hp⟩, hd⟩
  · rintro ⟨⟨ts, hts, hp⟩, hd⟩
    simp only [hts, hp, hd]

namespace Limit.Reads

variable {limit : Limit} {firstId nextId : Nat} {source : String} {p : Program} {d : Distances}

theorem made (h : limit.Reads firstId source p d nextId) :
    firstId ≤ nextId ∧ Stmt.MadeEach firstId nextId p := by
  obtain ⟨ts, hts, hp⟩ := h.parsed
  have hmade := parseProgram_made limit firstId (tokens_sound hts)
  rw [hp] at hmade
  exact ⟨hmade.1, hmade.2.1 p rfl⟩

/-- The table with the distances of the text. -/
def table (h : limit.Reads firstId source p d nextId) (t : Table) (ht : t.bound = firstId) : Table :=
  t.add p h.distances nextId (ht ▸ h.made.1) fun id hid => (h.made.2.numbered.bounds id hid).2

theorem le_table (h : limit.Reads firstId source p d nextId) (t : Table) (ht : t.bound = firstId) :
    t.Le (h.table t ht) :=
  Table.le_add fun id hid => ht ▸ (h.made.2.numbered.bounds id hid).1

theorem linked (h : limit.Reads firstId source p d nextId) (t : Table) (ht : t.bound = firstId) :
    Stmt.LinkedEach (h.table t ht) {} p :=
  Program.linked_add h.made.2.proper h.made.2.numbered.nodup fun id hid =>
    ht ▸ (h.made.2.numbered.bounds id hid).1

end Limit.Reads

namespace Session

/-- A run is rejected by one stage before anything is executed, or a program is executed. -/
theorem run_stages (s : Session) (source : String) :
    (∃ faults n stage, s.nextId ≤ n ∧ stage ≠ .execution ∧ (∀ d ∈ faults, d.stage = stage)
        ∧ ∀ execute, s.runBy execute source = (.failure faults, { s with nextId := n }))
      ∨ ∃ p d n, s.limit.Reads s.nextId source p d n
        ∧ ∀ execute, s.runBy execute source = { s with nextId := n }.interpretBy execute p d := by
  cases hts : tokens source with
  | error faults =>
    refine .inl ⟨faults, s.nextId, .lexing, Nat.le_refl _, nofun, tokens_eq_error hts, ?_⟩
    intro execute
    simp only [runBy, parse, hts]
  | ok ts =>
    obtain ⟨hle, hmade, hfaults⟩ := parseProgram_made s.limit s.nextId (tokens_sound hts)
    cases hp : (parseProgram s.limit s.nextId ts).result with
    | error faults =>
      refine .inl ⟨faults, _, .parsing, hle, nofun, hfaults faults hp, fun execute => ?_⟩
      simp only [runBy, parse, hts, hp]
    | ok p =>
      have hrun : ∀ execute, s.runBy execute source =
          { s with nextId := (parseProgram s.limit s.nextId ts).nextId }.runProgramBy execute p :=
        fun execute => by simp only [runBy, parse, hts, hp]
      cases hd : p.distances with
      | error faults =>
        refine .inl ⟨faults, _, .scoping, hle, nofun, Program.distances_eq_error hd, ?_⟩
        intro execute
        simp only [hrun, runProgramBy, hd]
      | ok d =>
        refine .inr ⟨p, d, (parseProgram s.limit s.nextId ts).nextId, ⟨⟨ts, hts, ?_⟩, hd⟩,
          fun execute => ?_⟩
        · rw [← hp]
        · simp only [hrun, runProgramBy, hd]

/-- A run is rejected before anything is executed, or a program is executed. -/
theorem run_cases (s : Session) (source : String) :
    (∃ faults n, s.nextId ≤ n ∧ (∀ d ∈ faults, d.isEarly = true)
        ∧ ∀ execute, s.runBy execute source = (.failure faults, { s with nextId := n }))
      ∨ ∃ p d n, s.limit.Reads s.nextId source p d n
        ∧ ∀ execute, s.runBy execute source = { s with nextId := n }.interpretBy execute p d := by
  rcases s.run_stages source with ⟨faults, n, stage, hn, hstage, hfaults, hrun⟩ | hexecuted
  · refine .inl ⟨faults, n, hn, fun d hd => ?_, hrun⟩
    rw [Diagnostic.isEarly_iff, hfaults d hd]
    exact hstage
  · exact .inr hexecuted

/-- A session that any number of runs lead to, however they end. -/
inductive Reachable : Session → Prop where
  | fresh (limit : Limit) (console : Console) (clock : Nat → Float) :
      Reachable { limit, machine := .fresh console clock }
  | run {s : Session} (fuel : Nat) (source : String) (h : Reachable s) :
      Reachable (s.run fuel source).2

end Session

end Lox
