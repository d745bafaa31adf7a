import Lox.Proofs.Lexical.Execution
import Lox.Proofs.Session.Stages

/-!
The machine runs programs as lexical scoping says. A program that is run from a machine and a state
that agree leaves them in agreement and gives one answer (`Agrees.interpret`). Before any program
has run they agree (`Agrees.fresh`), so that a program that all stages accept behaves as names alone
say, whatever its table of distances is.
-/

namespace Lox

namespace Lexical

/-! ### Before any program has run -/

/-- There are no local names yet. -/
def World.initial : World where
  scopes := 1
  place := fun _ _ => none
  bound := fun i n => i = 0 ∧ Machine.initialGlobals.binds n = true

/-- The globals of a fresh machine are those of a fresh state. -/
theorem initialGlobals_rel (t : Table) (w : World) (console : Console) (clock : Nat → Float) :
    Bindings.Rel (ValueRel t w) Machine.initialGlobals (State.fresh console clock).globals := by
  unfold Machine.initialGlobals State.fresh Bindings.Rel
  rw [List.forall₂_map_left_iff, List.forall₂_map_right_iff, List.forall₂_same]
  exact fun host _ => ⟨rfl, .native host⟩

/-- A fresh machine, whatever its distances are, and a fresh state agree. -/
theorem Agrees.fresh (t : Table) (console : Console) (clock : Nat → Float) :
    Agrees t .initial { Machine.fresh console clock with distances := t.distances }
      (.fresh console clock) where
  distances := rfl
  host := rfl
  nextIdentity := rfl
  scopes := rfl
  positive := Nat.one_pos
  globals := initialGlobals_rel t .initial console clock
  objects := rfl
  fields := fun _ => .nil
  place := nofun
  apart := nofun
  contents := by
    intro i n v hi hv
    obtain ⟨j, rfl⟩ := Nat.exists_eq_succ_of_ne_zero (Nat.ne_of_gt hi)
    simp [Machine.fresh, Store.scope] at hv
  bound := by
    rintro i n ⟨rfl, hn⟩
    obtain ⟨v, hv⟩ := Option.isSome_iff_exists.1 hn
    refine ⟨v, hv, ?_, ?_⟩
    · intro he
      subst he
      exact absurd hn (by decide)
    · intro he
      subst he
      exact absurd hn (by decide)
  known := fun hn => ⟨rfl, hn⟩

/-! ### Programs -/

section

variable {k : Watch} {t : Table} {w : World} {env : Environment} {inside : Option ScopeId}
  {watched run : Lox.Run Unit} {spec : Run Unit} {post : World → Unit → Unit → Prop}
  {m : Machine} {st : State}

/-- Runs that end together give one answer. -/
theorem Simulates.answer (h : Simulates k t env inside w watched run spec post)
    (ha : Agrees t w m st) (he : m.environment = env) :
    (Run.answer spec st).1 = (Run.answer run m).1
      ∧ (Run.answer run m).2.environment = env
      ∧ ∃ w', Agrees t w' (Run.answer run m).2 (Run.answer spec st).2 := by
  have h := h m st ha he
  unfold Run.answer
  generalize run m = r, spec st = s at h
  cases h with
  | ok _ _ agrees environment _ => exact ⟨rfl, environment, _, agrees⟩
  | @error w' stop _ _ _ agrees environment _ =>
    cases stop with
    | fault => exact ⟨rfl, environment, _, agrees⟩
    | outOfFuel => exact ⟨rfl, environment, _, agrees⟩

/-- A linked program is run in step, and gives one answer. -/
theorem Agrees.interpret (ha : Agrees t w m st) (he : m.environment = .globals) {p : Program}
    (hl : Stmt.LinkedEach t {} p) (fuel : Nat) :
    (Lexical.interpret fuel p st).1 = (m.interpret fuel p).1
      ∧ (m.interpret fuel p).2.environment = .globals
      ∧ ∃ w', Agrees t w' (m.interpret fuel p).2 (Lexical.interpret fuel p st).2 := by
  have hrun := Simulates.program ⟨fun _ _ => true, .outOfFuel⟩ fuel (w := w) hl rfl
  obtain ⟨hanswer, henv, w', hagrees⟩ := hrun.answer ha he
  refine ⟨?_, henv, w', hagrees⟩
  unfold Lexical.interpret Machine.interpret Machine.interpretBy
  dsimp only
  rw [hanswer, hagrees.host]

end

/-- A program that all stages accept, run by a machine that finds each local name at its distance,
gives the answer and leaves the host that lexical scoping says. -/
theorem interpret_eq_lexical {limit : Limit} {firstId nextId : Nat} {source : String} {p : Program}
    {d : Distances} (h : limit.Reads firstId source p d nextId) (fuel : Nat) (console : Console)
    (clock : Nat → Float) :
    let run := ((Machine.fresh console clock).addDistances d).interpret fuel p
    let lexical := Lexical.interpret fuel p (.fresh console clock)
    run.1 = lexical.1 ∧ run.2.toHost = lexical.2.toHost := by
  have ha := Agrees.fresh (h.table (.empty firstId) rfl) console clock
  obtain ⟨hanswer, -, w', hagrees⟩ := ha.interpret rfl (h.linked (.empty firstId) rfl) fuel
  exact ⟨hanswer.symm, hagrees.host.symm⟩

/-- The text `fun f() ( return "a"; ) ( fun g() ( return f(); ) print(g()); fun f() ( return "b"; )
print(g()); )`, with braces for the parentheses around statements. -/
def recapturing : String :=
  "fun f() \x7b return \"a\"; \x7d \x7b fun g() \x7b return f(); \x7d print(g()); " ++
    "fun f() \x7b return \"b\"; \x7d print(g()); \x7d"

/-- A function goes on calling what its name stood for where it was declared, also when the block has
declared another function of that name since. -/
theorem interpret_eq_lexical_recapturing :
    ∃ p d n,
      ({} : Limit).Reads 0 recapturing p d n
      ∧ (let run := ((Machine.fresh {} fun _ => 0).addDistances d).interpret 9 p
        let lexical := Lexical.interpret 9 p (.fresh {} fun _ => 0)
        run.1 = lexical.1 ∧ run.2.toHost = lexical.2.toHost)
      ∧ (((Machine.fresh {} fun _ => 0).addDistances d).interpret 9 p).2.console.output.written.data
        = "aa".toUTF8.data := by
  have hrun : ((({} : Limit).read? 0 recapturing).map fun (p, d, _) =>
      (((Machine.fresh {} fun _ => 0).addDistances d).interpret 9 p).2.console.output.written.data)
      = some "aa".toUTF8.data := by decide +kernel
  obtain ⟨⟨p, d, n⟩, hread, hout⟩ := Option.map_eq_some_iff.1 hrun
  have h := Limit.read?_eq_some_iff.1 hread
  exact ⟨p, d, n, h, interpret_eq_lexical h 9 {} _, hout⟩

end Lexical

end Lox
