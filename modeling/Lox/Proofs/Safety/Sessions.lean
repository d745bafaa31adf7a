import Lox.Proofs.Lexical.Correctness

/-!
Local names are always found. In every session that runs lead to, also runs that stop at a fault in
the middle of a block or a call, the machine agrees with a state of the lexical meaning
(`Session.Reachable.sound`). So whenever a run evaluates an expression, what it reads at a distance is
bound there, and the only names that are ever missed are global ones.
-/

namespace Lox

open Lexical (Agrees State World Outcome Simulates)

/-! ### Sessions in agreement with the lexical meaning -/

section

variable {t : Table} {w : World} {m : Machine} {st : State}

/-- The numbers of expressions go on without a program. -/
theorem Lexical.Agrees.skip (ha : Agrees t w m st) {n : Nat} (hn : t.bound ≤ n) :
    ∃ t', t'.bound = n ∧ Agrees t' w m st := by
  have hagrees := ha.table_step (t.le_extend hn)
  have hsame : { m with distances := (t.extend n hn).distances } = m := by
    rw [show (t.extend n hn).distances = m.distances from ha.distances.symm]
  exact ⟨t.extend n hn, rfl, hsame ▸ hagrees⟩

/-- A program that has been read is linked, and the machine that knows its distances agrees as it
did. -/
theorem Lexical.Agrees.linked (ha : Agrees t w m st) {limit : Limit} {source : String} {p : Program}
    {d : Distances} {n : Nat} (hr : limit.Reads t.bound source p d n) :
    ∃ t', t'.bound = n ∧ Agrees t' w (m.addDistances d) st ∧ Stmt.LinkedEach t' {} p := by
  have hagrees := ha.table_step (hr.le_table t rfl)
  have hsame : { m with distances := (hr.table t rfl).distances } = m.addDistances d := by
    rw [Machine.addDistances, ha.distances]
    rfl
  exact ⟨hr.table t rfl, rfl, hsame ▸ hagrees, hr.linked t rfl⟩

end

/-- The machine stands outside of all programs and agrees with a state of the lexical meaning. -/
structure Session.Sound (s : Session) : Prop where
  environment : s.machine.environment = .globals
  agrees : ∃ t w st, t.bound = s.nextId ∧ Agrees t w s.machine st

namespace Session

variable {s : Session}

theorem Sound.fresh (limit : Limit) (console : Console) (clock : Nat → Float) :
    Sound { limit, machine := .fresh console clock } :=
  ⟨rfl, .empty 0, .initial, .fresh console clock, rfl, .fresh (.empty 0) console clock⟩

/-- The numbers of expressions go on without a program. -/
theorem Sound.skip (h : s.Sound) {n : Nat} (hn : s.nextId ≤ n) : Sound { s with nextId := n } := by
  obtain ⟨he, t, w, st, ht, ha⟩ := h
  obtain ⟨t', ht', ha'⟩ := ha.skip (ht ▸ hn)
  exact ⟨he, t', w, st, ht', ha'⟩

/-- A program that has been read is linked, and the machine that knows its distances agrees with a
state of the lexical meaning. -/
theorem Sound.linked (h : s.Sound) {source : String} {p : Program} {d : Distances} {n : Nat}
    (hr : s.limit.Reads s.nextId source p d n) :
    ∃ t w st, t.bound = n ∧ Agrees t w (s.machine.addDistances d) st
      ∧ Stmt.LinkedEach t {} p := by
  obtain ⟨-, t, w, st, ht, ha⟩ := h
  obtain ⟨t', ht', ha', hl⟩ := ha.linked (ht ▸ hr)
  exact ⟨t', w, st, ht', ha', hl⟩

/-- A run keeps the agreement, however it ends. -/
theorem Sound.run (h : s.Sound) (fuel : Nat) (source : String) : (s.run fuel source).2.Sound := by
  rcases s.run_cases source with ⟨faults, n, hn, -, hrun⟩ | ⟨p, d, n, hr, hrun⟩
  · rw [Session.run, hrun]
    exact h.skip hn
  · obtain ⟨t, w, st, ht, ha, hl⟩ := h.linked hr
    obtain ⟨-, henv, w', hagrees⟩ := ha.interpret h.environment hl fuel
    rw [Session.run, hrun]
    exact ⟨henv, t, w', _, ht, hagrees⟩

theorem Reachable.sound (h : s.Reachable) : s.Sound := by
  induction h with
  | fresh limit console clock => exact .fresh limit console clock
  | run fuel source _ ih => exact ih.run fuel source

end Session

/-! ### Watched runs of programs -/

theorem Run.answer_error {σ α : Type} {run : EStateM Stop σ α} {m m' : σ} {stop : Stop}
    (h : run m = .error stop m') : Run.answer run m = (stop.answer, m') := by
  unfold Run.answer
  rw [h]
  cases stop <;> rfl

/-- A run that stops at a fault gives that fault. -/
theorem Run.answer_eq_failure {σ α : Type} {run : EStateM Stop σ α} {m : σ} {line : Nat}
    {cause : RuntimeFault} (h : (Run.answer run m).1 = .failure [.runtime line cause]) :
    run m = .error (.fault line cause) (Run.answer run m).2 := by
  unfold Run.answer at *
  split at h
  · cases h
  · rename_i hr
    cases h
    exact hr
  · cases h

theorem Answer.eq_failure_of_flushed {answer : Answer Unit} {host : Host} {line : Nat}
    {cause : RuntimeFault} (h : answer.flushed host = .failure [.runtime line cause]) :
    answer = .failure [.runtime line cause] := by
  unfold flushed at h
  split at h
  · split at h <;> cases h
  · exact h

/-- What no run of a program goes beyond: what every expression reads at a distance is bound there,
and a name that is missed is a global one that is not bound. -/
structure Session.SafeRun (s : Session) (fuel : Nat) (source : String) : Prop where
  /-- A run that stops as soon as an expression may not be read safely is the run itself. -/
  reads : ∀ stop,
    s.runBy (Watch.execute ⟨Machine.readsSafely, stop⟩ fuel) source = s.run fuel source
  causes : ∀ line cause, (s.run fuel source).1 = .failure [.runtime line cause] →
    cause ≠ .scopeChainTooShort ∧ cause ≠ .superOutsideSubclass
  /-- A run that stops as soon as this name is missed on this line does so. -/
  missed : ∀ line name,
    (s.run fuel source).1 = .failure [.runtime line (.undefinedVariable name)] →
      name ≠ "this" ∧ name ≠ "super"
        ∧ ((s.run fuel source).2.machine.store.scope 0).binds name = false
        ∧ ∀ stop,
          (s.runBy (Watch.execute ⟨fun m e => !m.misses name line e, stop⟩ fuel) source).1
            = stop.answer

section

variable {t : Table} {w : World} {m : Machine} {st : State} {p : Program}

/-- A run that is watched for safe reads is the run itself. -/
theorem Machine.interpretBy_readsSafely (ha : Agrees t w m st)
    (he : m.environment = .globals) (hl : Stmt.LinkedEach t {} p) (fuel : Nat) (stop : Stop) :
    m.interpretBy (Watch.execute ⟨Machine.readsSafely, stop⟩ fuel) p = m.interpret fuel p := by
  have h := Simulates.program ⟨Machine.readsSafely, stop⟩ fuel (w := w) hl rfl m st ha he
  have hsame : (p.forM fun s => discard (Watch.execute ⟨Machine.readsSafely, stop⟩ fuel s)) m
      = (p.forM fun s => discard (execute fuel s)) m := by
    have hnever : ∀ {α : Type} {r : EStateM.Result Stop Machine α},
        ¬ (Watch.Stopped ⟨Machine.readsSafely, stop⟩ r) := by
      rintro α r ⟨-, n, e, hsafe, hnot⟩
      exact absurd (hsafe.symm.trans hnot) (by decide)
    generalize (p.forM fun s => discard (execute fuel s)) m = r,
      (p.forM fun s => discard (Lexical.execute fuel none s)) st = r' at h
    cases h with
    | ok follows => exact follows.resolve_right hnever
    | error follows => exact follows.resolve_right hnever
  unfold Machine.interpret Machine.interpretBy Run.answer
  rw [hsame]

/-- What a run may be blamed for that stops at a fault. -/
theorem Machine.blames_of_interpret (ha : Agrees t w m st) (he : m.environment = .globals)
    (hl : Stmt.LinkedEach t {} p) {fuel line : Nat} {cause : RuntimeFault}
    (hf : (m.interpret fuel p).1 = .failure [.runtime line cause]) (k : Watch) :
    k.Blames (k.Stopped ((p.forM fun s => discard (k.execute fuel s)) m))
      ((m.interpret fuel p).2.store.scope 0) (.fault line cause) := by
  have h := Simulates.program k fuel (w := w) hl rfl m st ha he
  have hr := Run.answer_eq_failure (Answer.eq_failure_of_flushed hf)
  rw [hr] at h
  generalize (p.forM fun s => discard (Lexical.execute fuel none s)) st = r' at h
  cases h with
  | error _ _ _ blames => exact blames

end

/-- `super` that is read safely fails only for want of a method. -/
theorem superMethod_of_readsSafely {m : Machine} {id : Nat} {keyword method : Token}
    (h : m.readsSafely (.super id keyword method) = true) :
    ∃ (ancestor : Class) (object : Nat) (description : Class),
      superMethod id keyword method m
        = ancestor.boundMethod method (.object object description) m := by
  simp only [Machine.readsSafely] at h
  split at h
  · rename_i distance hd
    rw [Bool.and_eq_true, Option.any_eq_true, Option.any_eq_true] at h
    obtain ⟨⟨u, hu, hclass⟩, v, hv, hobject⟩ := h
    cases u <;> try cases hclass
    rename_i identity ancestor
    cases v <;> try cases hobject
    rename_i object description
    refine ⟨ancestor, object, description, ?_⟩
    have hget : ∀ {d : Nat} {name : String} {value : Value}, m.bound? d name = some value →
        Run.getAt m.environment d name keyword.line m = .ok value m := by
      intro d name value hb
      rw [Run.getAt, Store.getAt_eq_ok hb]
      rfl
    have hdistance : Run.distance? id m = .ok (some (distance + 1)) m := by
      rw [Run.distance?, hd]
    rw [superMethod, bind_ok hdistance]
    exact (bind_ok rfl).trans ((bind_ok (hget hu)).trans (bind_ok (hget hv)))
  · cases h

/-- Every run of every session is safe, and `super` read safely fails only for want of a method. -/
theorem Session.Reachable.run_safe {s : Session} (h : s.Reachable) (fuel : Nat) (source : String) :
    s.SafeRun fuel source
      ∧ ∀ m id keyword method, m.readsSafely (.super id keyword method) = true →
        ∃ (ancestor : Class) (object : Nat) (description : Class),
          superMethod id keyword method m
            = ancestor.boundMethod method (.object object description) m := by
  refine ⟨?_, fun _ _ _ _ => superMethod_of_readsSafely⟩
  rcases s.run_cases source with ⟨faults, n, -, hearly, hrun⟩ | ⟨p, d, n, hr, hrun⟩
  · have hno : ∀ line cause, (s.run fuel source).1 ≠ .failure [.runtime line cause] := by
      intro line cause hf
      rw [Session.run, hrun] at hf
      cases hf
      exact absurd (hearly _ (List.mem_singleton_self _)) (by simp [Diagnostic.isEarly])
    refine ⟨fun stop => ?_, fun line cause hf => absurd hf (hno line cause),
      fun line name hf => absurd hf (hno line _)⟩
    rw [Session.run, hrun, hrun]
  · obtain ⟨t, w, st, -, ha, hl⟩ := h.sound.linked hr
    have hm : (s.machine.addDistances d).environment = .globals := h.sound.environment
    have hf' : ∀ {line cause}, (s.run fuel source).1 = .failure [.runtime line cause] →
        ((s.machine.addDistances d).interpret fuel p).1 = .failure [.runtime line cause] := by
      intro line cause hf
      rwa [Session.run, hrun] at hf
    refine ⟨?_, ?_, ?_⟩
    · intro stop
      rw [Session.run, hrun, hrun, interpretBy]
      dsimp only
      rw [Machine.interpretBy_readsSafely ha hm hl]
      rfl
    · intro line cause hf
      have hblames := Machine.blames_of_interpret ha hm hl (hf' hf) ⟨fun _ _ => true, .outOfFuel⟩
      constructor <;> rintro rfl <;> exact hblames
    · intro line name hf
      have hblames := fun stop => Machine.blames_of_interpret ha hm hl (hf' hf)
        ⟨fun m e => !m.misses name line e, stop⟩
      obtain ⟨hthis, hsuper, hglobal, -⟩ := hblames .outOfFuel
      refine ⟨hthis, hsuper, ?_, ?_⟩
      · rw [Session.run, hrun]
        exact hglobal
      · intro stop
        obtain ⟨-, -, -, hstopped | ⟨m, e, hmiss, hnot⟩⟩ := hblames stop
        · obtain ⟨⟨m, hwatched⟩, -⟩ := hstopped
          have hanswer := Run.answer_error hwatched
          simp only [hrun, interpretBy, Machine.interpretBy, hanswer]
          cases stop <;> rfl
        · simp only [hmiss, Bool.not_true] at hnot
          cases hnot

/-- A program that declares a class and its subclass, and then fails within a block. -/
def breakingOff : String :=
  "class A \x7b m() \x7b return f(); \x7d \x7d " ++
    "class B : A \x7b init() \x7b this.g = super.m; \x7d \x7d " ++
    "var o = B(); \x7b var a = o; a.x; \x7d"

/-- The method that `super` has found before the fault is called after it, and misses a global. -/
theorem Session.Reachable.run_safe_breakingOff :
    let s := (({ machine := .fresh {} fun _ => 0 } : Session).run 20 breakingOff).2
    s.Reachable
      ∧ (s.SafeRun 20 "o.g();"
        ∧ ∀ m id keyword method, m.readsSafely (.super id keyword method) = true →
          ∃ (ancestor : Class) (object : Nat) (description : Class),
            superMethod id keyword method m
              = ancestor.boundMethod method (.object object description) m)
      ∧ (s.run 20 "o.g();").1 = .failure [.runtime 1 (.undefinedVariable "f")] := by
  have h : (({ machine := .fresh {} fun _ => 0 } : Session).run 20 breakingOff).2.Reachable :=
    .run 20 breakingOff (.fresh {} {} fun _ => 0)
  exact ⟨h, h.run_safe 20 "o.g();", by decide +kernel⟩

end Lox
