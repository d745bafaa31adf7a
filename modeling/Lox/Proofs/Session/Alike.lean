import Lox.Proofs.Parsing.Accepts
import Lox.Proofs.Session.Joined
import Lox.Proofs.Tree.Renumbered

/-!
Sources with the same program but for lines and numbers. If one of them is accepted, so is the other
(`Limit.Accepts.alike`), and then both print the same and give the same answer but for lines
(`Session.Reachable.run_alike`). To see this the lines are made the same: both programs become one, whose
numbers stand for those of the one and of the other (`Session.Reachable.interpret_sameOn`).
-/

namespace Lox

/-! ### The same but for lines -/

/-- Everything is on one line. -/
def Relabel.oneLine : Relabel := .lines fun _ => 1

/-- The tokens are the same but for lines. -/
def SameTokens (ts ts' : List Token) : Prop :=
  ts.map (Token.relabel .oneLine) = ts'.map (Token.relabel .oneLine)

/-- The programs are the same but for lines and numbers. -/
def Program.SameText (p p' : Program) : Prop :=
  Stmt.AlikeEach (Stmt.relabelEach .oneLine p) (Stmt.relabelEach .oneLine p')

/-- The answers are the same but for lines. -/
def Answer.SameText {α : Type} (answer answer' : Answer α) : Prop :=
  answer.relabel .oneLine = answer'.relabel .oneLine

/-- The second source is read as the program of the first one but for lines and numbers. -/
def Limit.ReadsAlike (limit : Limit) (source source' : String) : Prop :=
  ∃ us, tokens source' = .ok us ∧ ∀ ts n p, tokens source = .ok ts →
    (parseProgram limit n ts).result = .ok p →
    ∃ p', (parseProgram limit n us).result = .ok p' ∧ p.SameText p'

namespace Program.SameText

variable {p p' p'' : Program}

theorem symm (h : p.SameText p') : p'.SameText p :=
  Eq.symm h

theorem trans (h : p.SameText p') (h' : p'.SameText p'') : p.SameText p'' :=
  Eq.trans h h'

theorem of_alikeEach (h : Stmt.AlikeEach p p') : p.SameText p' := by
  have hlines := congrArg (Stmt.relabelEach .oneLine) h
  rw [Stmt.relabelEach_relabelEach, Stmt.relabelEach_relabelEach] at hlines
  unfold SameText Stmt.AlikeEach
  rw [Stmt.relabelEach_relabelEach, Stmt.relabelEach_relabelEach]
  exact hlines

end Program.SameText

section

open Lox.Parser

variable {limit : Limit} {n : Nat} {p : Program} {us us' : List Token}

/-- What is read on one line is what is read on several, but for lines. -/
theorem parseProgram_oneLine_eq_ok_iff :
    (parseProgram limit n (us.map (Token.relabel .oneLine))).result = .ok p
      ↔ ∃ q, (parseProgram limit n us).result = .ok q ∧ Stmt.relabelEach .oneLine q = p := by
  have hparsed : parseProgram limit n (us.map (Token.relabel .oneLine))
      = (parseProgram limit n us).relabel .oneLine := parseProgram_relabel limit n us (fun _ => rfl) rfl
  rw [hparsed, Parsed.relabel]
  cases (parseProgram limit n us).result <;> simp

/-- Tokens on other lines are read as a program that is the same but for lines. -/
theorem parseProgram_sameTokens (h : SameTokens (upToEof us) (upToEof us'))
    (hp : (parseProgram limit n us).result = .ok p) (n' : Nat) :
    ∃ p', (parseProgram limit n' us').result = .ok p' ∧ p.SameText p' := by
  have honLine := written_of_parseProgram (parseProgram_oneLine_eq_ok_iff.2 ⟨p, hp, rfl⟩)
  rw [upToEof_map, h, ← upToEof_map] at honLine
  obtain ⟨r, hr, halike⟩ := parseProgram_of_written (n := n') honLine
  obtain ⟨p', hp', rfl⟩ := parseProgram_oneLine_eq_ok_iff.1 hr
  exact ⟨p', hp', halike.symm⟩

end

/-! ### Answers -/

theorem Diagnostic.relabel_congr {g g' : Relabel} (h : g.line = g'.line) (d : Diagnostic) :
    d.relabel g = d.relabel g' := by
  cases d <;> simp only [Diagnostic.relabel, Token.relabel, h]

/-- Only lines stand in an answer. -/
theorem Answer.relabel_congr {α : Type} {g g' : Relabel} (h : g.line = g'.line)
    (answer : Answer α) : answer.relabel g = answer.relabel g' := by
  cases answer with
  | failure faults =>
    exact congrArg Answer.failure (List.map_congr_left fun d _ => Diagnostic.relabel_congr h d)
  | _ => rfl

/-! ### Machines -/

/-- The machine with other lines. -/
def Machine.onLines (m : Machine) (f : Nat → Nat) : Machine :=
  { m with store := m.store.relabel (.lines f) }

theorem Machine.relabeled_onLines (m : Machine) (f : Nat → Nat) :
    m.Relabeled (.lines f) (m.onLines f) :=
  ⟨rfl, rfl, rfl, fun _ => rfl, rfl⟩

/-! ### Programs -/

/-- The programs are the same but for numbers, with these lines for their lines. -/
def Program.SameOn (f : Nat → Nat) (p p' : Program) : Prop :=
  Stmt.AlikeEach (Stmt.relabelEach (.lines f) p) (Stmt.relabelEach (.lines f) p')

section

variable {f : Nat → Nat} {p p' : Program} {n n' bound : Nat}

/-- Programs that are the same on such lines become one by other numbers, which leave those below `bound`
as they are. -/
theorem Program.SameOn.exists_renumbering (h : p.SameOn f p')
    (hp : Numbered bound n (Stmt.idsEach p)) (hp' : Numbered bound n' (Stmt.idsEach p')) :
    ∃ σ : Equiv.Perm Nat, (∀ i < bound, σ i = i)
      ∧ Stmt.relabelEach ((Relabel.numbers σ).trans (.lines f)) p
        = Stmt.relabelEach (.lines f) p' := by
  have hids (q : Program) : Stmt.idsEach (Stmt.relabelEach (.lines f) q) = Stmt.idsEach q :=
    (Stmt.idsEach_relabelEach (.lines f) q).trans (List.map_id _)
  obtain ⟨σ, hbelow, hσ⟩ := Stmt.exists_renumbering h ((hids p).symm ▸ hp.nodup)
    ((hids p').symm ▸ hp'.nodup) (fun i hi => (hp.bounds i (hids p ▸ hi)).1)
    (fun i hi => (hp'.bounds i (hids p' ▸ hi)).1)
  refine ⟨σ, hbelow, ?_⟩
  rw [← hσ, Stmt.relabelEach_relabelEach]
  rfl

/-- One of them has the distances of the other. -/
theorem Program.distances_of_renumbering {σ : Equiv.Perm Nat}
    (hσ : Stmt.relabelEach ((Relabel.numbers σ).trans (.lines f)) p = Stmt.relabelEach (.lines f) p')
    {d : Distances} (hd : p.distances = .ok d) :
    ∃ d', p'.distances = .ok d' ∧ ∀ i, d'[σ i]? = d[i]? := by
  obtain ⟨between, hbetween, hfirst⟩ :=
    Program.distances_relabel_of_ok ((Relabel.numbers σ).trans (.lines f)) σ.injective hd
  rw [hσ] at hbetween
  obtain ⟨d', hd', hsecond⟩ :=
    Program.distances_of_relabel_ok (.lines f) Function.injective_id hbetween
  exact ⟨d', hd', fun i => (hsecond (σ i)).symm.trans (hfirst i)⟩

end

/-- A source that is read alike is accepted as well. -/
theorem Limit.Reads.alike {limit : Limit} {source source' : String} {p : Program} {d : Distances}
    {firstId n : Nat} (hr : limit.Reads firstId source p d n)
    (halike : limit.ReadsAlike source source') :
    ∃ (p' : Program) (d' : Distances) (n' : Nat),
      limit.Reads firstId source' p' d' n' ∧ p.SameText p' := by
  obtain ⟨us, hus, hread⟩ := halike
  obtain ⟨ts, hts, hp⟩ := hr.parsed
  obtain ⟨p', hp', hsame⟩ := hread ts firstId p hts (congrArg Parser.Parsed.result hp)
  have hmade := (parseProgram_made limit firstId (tokens_sound hus)).2.1 p' hp'
  obtain ⟨σ, -, hσ⟩ := Program.SameOn.exists_renumbering (f := fun _ => 1) hsame
    hr.made.2.numbered hmade.numbered
  obtain ⟨d', hd', -⟩ := Program.distances_of_renumbering hσ hr.distances
  have hparsed : parseProgram limit firstId us = ⟨.ok p', (parseProgram limit firstId us).nextId⟩ := by
    rw [← hp']
  exact ⟨p', d', _, ⟨⟨us, hus, hparsed⟩, hd'⟩, hsame⟩

/-- A source is accepted if it is read alike as one that is. -/
theorem Limit.Accepts.alike {limit : Limit} {source source' : String} (h : limit.Accepts source)
    (halike : limit.ReadsAlike source source') : limit.Accepts source' := by
  obtain ⟨p, d, n, hr⟩ := h
  obtain ⟨p', d', n', hr', -⟩ := hr.alike halike
  exact ⟨p', d', n', hr'⟩

/-! ### Sessions -/

namespace Session

variable {s : Session} {source source' : String}

/-- Numbers that are still to be given are kept apart from the others if those are kept. -/
theorem renumbering_keeps {σ : Equiv.Perm Nat} {bound : Nat} (hσ : ∀ i < bound, σ i = i) :
    (Relabel.numbers σ).Keeps bound := by
  refine ⟨rfl, hσ, fun i hi => Nat.le_of_not_lt fun hlt => ?_⟩
  have hfixed : σ i = i := σ.injective (hσ _ hlt)
  exact absurd (hfixed ▸ hlt) (Nat.not_lt.2 hi)

/-- Programs that are the same on such lines use the host in the same way and give the same answer but for
lines. -/
theorem Reachable.interpret_sameOn (h : s.Reachable) {f : Nat → Nat} {p p' : Program}
    (hsame : p.SameOn f p') {n n' : Nat} (hp : Numbered s.nextId n (Stmt.idsEach p))
    (hp' : Numbered s.nextId n' (Stmt.idsEach p')) {d d' : Distances} (hd : p.distances = .ok d)
    (hd' : p'.distances = .ok d') (fuel : Nat) :
    let run := (s.machine.addDistances d).interpret fuel p
    let run' := (s.machine.addDistances d').interpret fuel p'
    run.1.relabel (.lines f) = run'.1.relabel (.lines f) ∧ run'.2.toHost = run.2.toHost := by
  obtain ⟨σ, hbelow, hσ⟩ := hsame.exists_renumbering hp hp'
  obtain ⟨_, hok, hdistances⟩ := Program.distances_of_renumbering hσ hd
  cases hok.symm.trans hd'
  -- both machines become the one that has everything on these lines, with the numbers of the second
  let m := (s.machine.onLines f).addDistances d'
  have honLines := s.machine.relabeled_onLines f
  have hfirst : (s.machine.addDistances d).Relabeled ((Relabel.numbers σ).trans (.lines f)) m :=
    Shifted.addDistances ((h.steady.relabeled (renumbering_keeps hbelow)).trans honLines) hdistances
  have hsecond : (s.machine.addDistances d').Relabeled (.lines f) m :=
    Shifted.addDistances honLines fun _ => rfl
  obtain ⟨hanswer, hmachine⟩ := hfirst.interpret (.refl True fuel) p (.inl trivial)
  obtain ⟨hanswer', hmachine'⟩ := hsecond.interpret (.refl True fuel) p' (.inl trivial)
  rw [hσ] at hanswer hmachine
  refine ⟨?_, hmachine'.host.symm.trans hmachine.host⟩
  exact (Answer.relabel_congr rfl _).trans (hanswer.symm.trans hanswer')

/-- Two sources that are read alike use the host in the same way and give the same answer but for
lines. -/
theorem Reachable.run_alike (h : s.Reachable) (haccepts : s.limit.Accepts source)
    (halike : s.limit.ReadsAlike source source') (fuel : Nat) :
    (s.run fuel source).1.SameText (s.run fuel source').1
      ∧ (s.run fuel source').2.machine.toHost = (s.run fuel source).2.machine.toHost := by
  obtain ⟨p, d, n, hr⟩ := haccepts.reads s.nextId
  obtain ⟨p', d', n', hr', hsame⟩ := hr.alike halike
  rw [run_of_reads hr, run_of_reads hr']
  exact h.interpret_sameOn (f := fun _ => 1) hsame hr.made.2.numbered hr'.made.2.numbered
    hr.distances hr'.distances fuel

end Session

end Lox
