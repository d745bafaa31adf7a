import Lox.Proofs.Scopes.Execution

/-!
Scopes do not leak. In every session that runs lead to, whatever is called and whatever block is
executed, the scopes that were there before bind the same names after it, however it ends; only the
scope of a call binds names of its own while the body is executed. So of all scopes that were there
before a program only the globals have new names after it, and these are declared by the statements of
the program itself (`Session.Reachable.run_sealed`).
-/

namespace Lox

/-! ### Sealed runs -/

instance (but : Option ScopeId) (st st' : Store) : Decidable (st.SameNames but st') :=
  inferInstanceAs (Decidable (∀ i < st.scopes.size, some i ≠ but →
    (st'.scope i).names = (st.scope i).names))

/-- A run that stops so, once it has ended, if any scope that was there before it binds other names
than before; `but` is the one scope that may. -/
def Run.sealed (stop : Stop) (but : Environment → Option ScopeId) {α : Type} (run : Run α) : Run α :=
  fun m =>
    if m.store.SameNames (but m.environment) (machineOf (run m)).store then run m
    else .error stop (machineOf (run m))

/-- Every call, every block and every body of a function is sealed; the body may bind names in the
scope of the call. -/
def Variant.sealing (stop : Stop) : Variant where
  call := Run.sealed stop fun _ => none
  block := Run.sealed stop fun _ => none
  body := Run.sealed stop List.head?

theorem Run.sealed_eq (stop : Stop) (but : Environment → Option ScopeId) {α : Type} {run : Run α}
    {m : Machine} (h : m.store.SameNames (but m.environment) (machineOf (run m)).store) :
    run.sealed stop but m = run m :=
  if_pos h

namespace Scopes

/-- Where nothing leaks no run is stopped. -/
theorem Faithful.sealing (stop : Stop) : Faithful False (.everywhere (.sealing stop)) where
  lookUp _ _ _ _ _ := rfl
  assign _ _ _ _ _ _ := rfl
  superMethod _ _ _ _ := rfl
  call := Run.sealed_eq stop fun _ => none
  block := Run.sealed_eq stop fun _ => none
  body := Run.sealed_eq stop List.head?

end Scopes

/-! ### Sessions -/

open Scopes (World Conforms)

/-- The machine stands outside of all programs, and its scopes bind what the resolver says. -/
structure Session.Scoped (s : Session) : Prop where
  environment : s.machine.environment = .globals
  conforms : ∃ t w, t.bound = s.nextId ∧ Conforms False t w s.machine

namespace Session

variable {s : Session}

theorem Scoped.fresh (limit : Limit) (console : Console) (clock : Nat → Float) :
    Scoped { limit, machine := .fresh console clock } :=
  ⟨rfl, .empty 0, .initial, rfl, .fresh False (.empty 0) console clock⟩

/-- The numbers of expressions go on without a program. -/
theorem Scoped.skip (h : s.Scoped) {n : Nat} (hn : s.nextId ≤ n) : Scoped { s with nextId := n } := by
  obtain ⟨he, t, w, ht, hm⟩ := h
  have hn : t.bound ≤ n := ht ▸ hn
  have hconforms := hm.table_step (t.le_extend hn)
  have hsame : { s.machine with distances := (t.extend n hn).distances } = s.machine := by
    rw [show (t.extend n hn).distances = s.machine.distances from hm.distances.symm]
  exact ⟨he, t.extend n hn, w, rfl, hsame ▸ hconforms⟩

/-- A program that has been read is linked, and the machine that knows its distances conforms as it
did. -/
theorem Scoped.linked (h : s.Scoped) {source : String} {p : Program} {d : Distances} {n : Nat}
    (hr : s.limit.Reads s.nextId source p d n) :
    ∃ t w, t.bound = n ∧ Conforms False t w (s.machine.addDistances d)
      ∧ Stmt.LinkedEach t {} p := by
  obtain ⟨-, t, w, ht, hm⟩ := h
  have hr : s.limit.Reads t.bound source p d n := ht ▸ hr
  have hconforms := hm.table_step (hr.le_table t rfl)
  have hsame : { s.machine with distances := (hr.table t rfl).distances }
      = s.machine.addDistances d := by
    rw [Machine.addDistances, hm.distances]
    rfl
  exact ⟨hr.table t rfl, w, rfl, hsame ▸ hconforms, hr.linked t rfl⟩

/-- A session goes on with faithful variants as it does with the evaluator. -/
theorem Scoped.runBy (h : s.Scoped) {V : Variants} (hV : Scopes.Faithful False V) (fuel : Nat)
    (source : String) : s.runBy (V.execute fuel) source = s.run fuel source := by
  rcases s.run_cases source with ⟨faults, n, -, -, hrun⟩ | ⟨p, d, n, hr, hrun⟩
  · rw [Session.run, hrun, hrun]
  · obtain ⟨t, w, -, hm, hl⟩ := h.linked hr
    have hsame := (hm.interpretVariants h.environment hV hl False.elim fuel).1
    rw [Session.run, hrun, hrun, interpretBy]
    dsimp only
    rw [hsame]
    rfl

/-- What no run of a program does to the scopes that were there before. -/
structure SealedRun (s : Session) (fuel : Nat) (source : String) : Prop where
  /-- A run that stops as soon as a call or a block has changed the names that some scope binds, or a
  body those of a scope that is not its own, is the run itself. -/
  sealed : ∀ stop, s.runBy ((Variant.sealing stop).execute fuel) source = s.run fuel source
  /-- All scopes but the globals bind the names that they did. -/
  locals : s.machine.store.SameNames (some 0) (s.run fuel source).2.machine.store
  /-- The globals bind the names that they did. -/
  kept : ∀ name, (s.machine.store.scope 0).binds name = true →
    ((s.run fuel source).2.machine.store.scope 0).binds name = true
  /-- What else they bind is declared by a statement of the program itself. -/
  declared : ∀ name, ((s.run fuel source).2.machine.store.scope 0).binds name = true →
    (s.machine.store.scope 0).binds name = true
      ∨ ∃ p d n, s.limit.Reads s.nextId source p d n ∧ name ∈ Stmt.declaredEach p

/-- A run keeps the scopes as the resolver says, and leaks no name. -/
theorem Scoped.run (h : s.Scoped) (fuel : Nat) (source : String) :
    (s.run fuel source).2.Scoped ∧ s.SealedRun fuel source := by
  have hsealed : ∀ stop, s.runBy ((Variant.sealing stop).execute fuel) source = s.run fuel source := by
    intro stop
    rw [← (Variants.everywhere_eq _ fuel).2]
    exact h.runBy (.sealing stop) fuel source
  rcases s.run_cases source with ⟨faults, n, hn, -, hrun⟩ | ⟨p, d, n, hr, hrun⟩
  · have hafter : (s.run fuel source).2 = { s with nextId := n } := by rw [Session.run, hrun]
    refine ⟨hafter ▸ h.skip hn, hsealed, ?_, ?_, ?_⟩
    · rw [hafter]
      exact fun _ _ _ => rfl
    · rw [hafter]
      exact fun _ => id
    · rw [hafter]
      exact fun _ => .inl
  · obtain ⟨t, w, ht, hm, hl⟩ := h.linked hr
    obtain ⟨-, he, w', hext, hm'⟩ :=
      hm.interpretBy h.environment (.sealing .outOfFuel) hl False.elim fuel
    have hafter : (s.run fuel source).2
        = ⟨s.limit, n, ((s.machine.addDistances d).interpret fuel p).2⟩ := by
      rw [Session.run, hrun]
      rfl
    refine ⟨hafter ▸ ⟨he, t, w', ht, hm'⟩, hsealed, ?_, ?_, ?_⟩
    · rw [hafter]
      intro i hi hlocal
      rw [← hm'.names]
      refine (hext.same i (hm.scopes ▸ hi) fun name hnew => hlocal hnew.1.symm).trans ?_
      exact hm.names i
    · rw [hafter]
      intro name hname
      exact hm'.binds_iff.1 (hext.kept 0 hm.positive name (hm.binds_iff.2 hname))
    · rw [hafter]
      intro name hname
      refine (hext.new 0 hm.positive name (hm'.binds_iff.2 hname)).imp hm.binds_iff.1 fun hnew => ?_
      exact ⟨p, d, n, hr, hnew.2⟩

theorem Reachable.scoped (h : s.Reachable) : s.Scoped := by
  induction h with
  | fresh limit console clock => exact .fresh limit console clock
  | run fuel source _ ih => exact (ih.run fuel source).1

/-- No run of any session leaks a name. -/
theorem Reachable.run_sealed (h : s.Reachable) (fuel : Nat) (source : String) :
    s.SealedRun fuel source :=
  (h.scoped.run fuel source).2

/-- The text `fun f() ( var a = 1; fun g() ( a = a + 1; return a; ) return g; ) var g = f();`, with
braces for the parentheses around statements. -/
def counting : String :=
  "fun f() \x7b var a = 1; fun g() \x7b a = a + 1; return a; \x7d return g; \x7d var g = f();"

/-- A function that one program has kept is called in a block of the next one, which breaks off. -/
theorem Reachable.run_sealed_counting :
    let s := (({ machine := .fresh {} fun _ => 0 } : Session).run 12 counting).2
    let source := "\x7b var a = g(); var b = a; print(b); b(); \x7d"
    s.Reachable ∧ s.SealedRun 12 source
      ∧ (s.run 12 source).2.machine.console.output.written.data = "2".toUTF8.data := by
  have h : (({ machine := .fresh {} fun _ => 0 } : Session).run 12 counting).2.Reachable :=
    .run 12 counting (.fresh {} {} fun _ => 0)
  exact ⟨h, h.run_sealed 12 _, by decide +kernel⟩

end Session

end Lox
