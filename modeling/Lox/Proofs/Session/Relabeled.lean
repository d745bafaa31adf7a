import Lox.Session
import Lox.Proofs.Execution.Relabeled
import Lox.Proofs.Safety.Sessions

/-!
Sessions with other lines and numbers. Programs with other code give the same answers but for lines
(`Machine.Recoded.interpret`), among them those with other lines and numbers. In a session that runs
lead to, no expression in the store has a number that is still to be given (`Session.Reachable.steady`),
so that it makes no difference there what is written for those.
-/

namespace Lox

/-- Nothing changes in diagnostics if the lines are the same. -/
theorem Diagnostic.map_relabel_of_line {g : Relabel} (hg : g.line = id) (faults : List Diagnostic) :
    faults.map (Diagnostic.relabel g) = faults := by
  refine List.map_id'' (fun d => ?_) faults
  cases d <;> simp [Diagnostic.relabel, Token.relabel, hg]

/-- The answer with other lines. -/
def Answer.relabel {α : Type} (g : Relabel) : Answer α → Answer α
  | .failure faults => .failure (faults.map (Diagnostic.relabel g))
  | answer => answer

namespace Answer

variable {g : Relabel}

theorem relabel_of_line {α : Type} (hg : g.line = id) (answer : Answer α) :
    answer.relabel g = answer := by
  cases answer with
  | failure faults => exact congrArg Answer.failure (Diagnostic.map_relabel_of_line hg faults)
  | _ => rfl

theorem flushed_relabel (answer : Answer Unit) (host : Host) :
    (answer.relabel g).flushed host = (answer.flushed host).relabel g := by
  cases answer with
  | success =>
    simp only [relabel, flushed]
    split <;> rfl
  | _ => rfl

end Answer

/-- The program with other code, run by a machine that is the same but for that. With more fuel it may
go on where the program has used up its own. -/
theorem Machine.Recoded.interpret {g : Recoding} {m m' : Machine} (h : m.Recoded g m')
    {exact : Prop} {fuel fuel' : Nat} (hfuel : Suffices exact fuel fuel') (p : Program)
    (he : exact ∨ (m.interpret fuel p).1 ≠ .outOfFuel) :
    (m'.interpret fuel' (p.map g.stmt)).1 = (m.interpret fuel p).1.relabel g.toRelabel
      ∧ (m.interpret fuel p).2.Recoded g (m'.interpret fuel' (p.map g.stmt)).2 := by
  have hends : exact ∨ ¬ OutOfFuel ((p.forM fun s => discard (execute fuel s)) m) := by
    refine he.imp_right fun he ⟨n, hn⟩ => he ?_
    simp only [Machine.interpret, Machine.interpretBy, Run.answer, hn, Answer.flushed]
  have hfollows := Follows.program g hfuel p m m' h hends
  unfold Machine.interpret Machine.interpretBy Run.answer
  generalize (p.forM fun s => discard (execute fuel s)) m = r,
    ((p.map g.stmt).forM fun s => discard (execute fuel' s)) m' = r' at hfollows
  cases hfollows with
  | @ok n n' _ hn =>
    refine ⟨?_, hn⟩
    show Answer.flushed (.success ()) n'.toHost
      = (Answer.flushed (.success ()) n.toHost).relabel g.toRelabel
    rw [hn.host]
    exact Answer.flushed_relabel (.success ()) _
  | error stop hn =>
    cases stop with
    | fault line cause => exact ⟨rfl, hn⟩
    | outOfFuel => exact ⟨rfl, hn⟩

/-- The program with other lines and numbers, run by a machine that is the same but for those. -/
theorem Machine.Relabeled.interpret {g : Relabel} {m m' : Machine} (h : m.Relabeled g m')
    {exact : Prop} {fuel fuel' : Nat} (hfuel : Suffices exact fuel fuel') (p : Program)
    (he : exact ∨ (m.interpret fuel p).1 ≠ .outOfFuel) :
    (m'.interpret fuel' (Stmt.relabelEach g p)).1 = (m.interpret fuel p).1.relabel g
      ∧ (m.interpret fuel p).2.Relabeled g (m'.interpret fuel' (Stmt.relabelEach g p)).2 := by
  rw [Stmt.relabelEach_eq_map]
  exact Machine.Recoded.interpret h hfuel p he

/-! ### Numbers that are still to be given -/

/-- Lines and numbers below the bound are kept, and the others stay above it. -/
structure Relabel.Keeps (g : Relabel) (bound : Nat) : Prop where
  line : g.line = id
  below : ∀ i < bound, g.number i = i
  above : ∀ i, bound ≤ i → bound ≤ g.number i

theorem Relabel.Keeps.mono {g : Relabel} {n n' : Nat} (h : g.Keeps n') (hn : n ≤ n') :
    g.Keeps n := by
  refine ⟨h.line, fun i hi => h.below i (Nat.lt_of_lt_of_le hi hn), ?_⟩
  intro i hi
  by_cases hi' : i < n'
  · rwa [h.below i hi']
  · exact Nat.le_trans hn (h.above i (Nat.le_of_not_lt hi'))

/-- Nothing changes in a program that has no such numbers. -/
theorem Relabel.Keeps.relabelEach {g : Relabel} {n : Nat} (h : g.Keeps n) {p : Program}
    (hp : ∀ i ∈ Stmt.idsEach p, i < n) : Stmt.relabelEach g p = p :=
  (Stmt.relabelEach_congr (h := .refl) h.line p fun i hi => h.below i (hp i hi)).trans
    (Stmt.relabelEach_refl p)

/-- The numbers from the bound on are found in no table, and there are none in the store. -/
structure Machine.Steady (m : Machine) (bound : Nat) : Prop where
  distances : ∀ i, bound ≤ i → m.distances[i]? = none
  store : ∀ g : Relabel, g.Keeps bound → m.store.relabel g = m.store

theorem Machine.Steady.relabeled {m : Machine} {n : Nat} (h : m.Steady n) {g : Relabel}
    (hg : g.Keeps n) : m.Relabeled g m where
  host := rfl
  store := (h.store g hg).symm
  environment := rfl
  distances := by
    intro i
    show m.distances[g.number i]? = m.distances[i]?
    by_cases hi : i < n
    · rw [hg.below i hi]
    · have hi := Nat.le_of_not_lt hi
      rw [h.distances i hi, h.distances _ (hg.above i hi)]
  nextIdentity := rfl

namespace Session

variable {s : Session}

/-- The table after a program has been read says nothing about numbers that it has not been given. -/
theorem Sound.distances_eq_none (h : s.Sound) (i : Nat) (hi : s.nextId ≤ i) :
    s.machine.distances[i]? = none := by
  obtain ⟨-, t, w, st, ht, ha⟩ := h
  rw [ha.distances]
  exact t.fresh i (ht ▸ hi)

/-- A program that has been read is run by a steady machine. -/
theorem Sound.steady_of_reads {source : String} {p : Program} {d : Distances} {n : Nat}
    (h : s.Sound) (hs : s.machine.Steady s.nextId)
    (hr : s.limit.Reads s.nextId source p d n) : (s.machine.addDistances d).Steady n := by
  obtain ⟨t, w, st, ht, ha, -⟩ := h.linked hr
  refine ⟨?_, fun g hg => hs.store g (hg.mono hr.made.1)⟩
  intro i hi
  rw [ha.distances]
  exact t.fresh i (ht ▸ hi)

/-- No expression in the store has a number that is still to be given. -/
theorem Reachable.steady (h : s.Reachable) : s.machine.Steady s.nextId := by
  induction h with
  | fresh limit console clock =>
    refine ⟨fun i _ => rfl, ?_⟩
    intro g _
    show Store.relabel g { scopes := #[Machine.initialGlobals] } = _
    simp [Store.recode, Bindings.mapValues, Machine.initialGlobals, Value.recode, Machine.fresh]
  | @run s fuel source h ih =>
    refine ⟨(Reachable.run fuel source h).sound.distances_eq_none, ?_⟩
    intro g hg
    rcases s.run_cases source with ⟨faults, n, hn, -, hrun⟩ | ⟨p, d, n, hr, hrun⟩
    · rw [Session.run, hrun] at hg ⊢
      exact ih.store g (hg.mono hn)
    · rw [Session.run, hrun] at hg ⊢
      have hsteady := h.sound.steady_of_reads ih hr
      have hp := hg.relabelEach fun i hi => (hr.made.2.numbered.bounds i hi).2
      have hself := ((hsteady.relabeled hg).interpret (.refl True fuel) p (.inl trivial)).2
      rw [hp] at hself
      exact hself.store.symm

end Session

end Lox
