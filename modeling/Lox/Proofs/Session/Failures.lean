import Lox.CommandLine.Outcome
import Lox.Proofs.Safety.Sessions

/-!
Which faults a run reports. All of them come from one stage. A source that is rejected leaves the
machine as it was; a program that is executed reports one fault, which is that of the statement at
which it stopped, or, when all its statements have been executed, that of an output which could not be
flushed then (`Session.failure_cases`). The exit code tells the two kinds of fault of an execution
apart, but not a failed flush from a rejected source (`Session.flush_fault_not_runtime`).
-/

namespace Lox

open CommandLine (codeOf codeStatic codeRuntime)

/-- Faults none of which is one of a running program have the code of a rejected source. -/
theorem CommandLine.codeOf_of_not_isRuntime {faults : List Diagnostic}
    (h : ∀ d ∈ faults, d.isRuntime = false) : codeOf faults = codeStatic := by
  have hany : faults.any Diagnostic.isRuntime = false := by
    rw [List.any_eq_false]
    intro d hd
    rw [h d hd]
    exact Bool.false_ne_true
  rw [codeOf, hany]
  rfl

/-- Only the execution finds faults of a running program. -/
theorem Diagnostic.isRuntime_of_stage {d : Diagnostic} (h : d.stage ≠ .execution) :
    d.isRuntime = false := by
  cases d with
  | runtime line fault => exact absurd rfl h
  | _ => rfl

/-- An execution that fails has stopped at a fault, or has gone through and could not be flushed. -/
theorem Machine.interpret_failure_cases {m : Machine} {fuel : Nat} {p : Program}
    {faults : List Diagnostic} (h : (m.interpret fuel p).1 = .failure faults) :
    (∃ line cause m', (p.forM fun s => discard (execute fuel s)) m = .error (.fault line cause) m'
        ∧ faults = [.runtime line cause])
      ∨ ∃ m' fault, (p.forM fun s => discard (execute fuel s)) m = .ok () m'
        ∧ m'.console.output.flushFault? = some fault ∧ faults = [.output fault] := by
  unfold interpret interpretBy Run.answer at h
  cases hr : (p.forM fun s => discard (execute fuel s)) m with
  | ok a m' =>
    rw [hr] at h
    simp only [Answer.flushed] at h
    split at h
    · cases h
    · rename_i fault hfault
      cases h
      exact .inr ⟨m', fault, rfl, hfault, rfl⟩
  | error stop m' =>
    rw [hr] at h
    cases stop with
    | fault line cause =>
      cases h
      exact .inl ⟨line, cause, m', rfl, rfl⟩
    | outOfFuel => cases h

namespace Session

/-- A run that fails reports the faults of one stage. Either the source was rejected, so that nothing
was executed or printed, and the exit code is that of a rejected source; or its program was executed,
and there is one fault, that of the statement at which it stopped, or, after all statements, that of
the flush, which no more than a rejected source has the exit code of a running program. -/
theorem failure_cases (s : Session) (fuel : Nat) (source : String) {faults : List Diagnostic}
    (h : (s.run fuel source).1 = .failure faults) :
    (∃ stage n, stage ≠ .execution ∧ (∀ d ∈ faults, d.stage = stage)
        ∧ (s.run fuel source).2 = { s with nextId := n } ∧ codeOf faults = codeStatic)
      ∨ ∃ p d n, s.limit.Reads s.nextId source p d n
        ∧ ((∃ line cause m, (p.forM fun st => discard (execute fuel st)) (s.machine.addDistances d)
              = .error (.fault line cause) m
            ∧ faults = [.runtime line cause] ∧ codeOf faults = codeRuntime)
          ∨ ∃ m fault, (p.forM fun st => discard (execute fuel st)) (s.machine.addDistances d)
              = .ok () m
            ∧ m.console.output.flushFault? = some fault
            ∧ faults = [.output fault] ∧ codeOf faults = codeStatic) := by
  rcases s.run_stages source with ⟨faults', n, stage, -, hstage, hfaults, hrun⟩ | ⟨p, d, n, hr, hrun⟩
  · rw [Session.run, hrun] at h
    cases h
    refine .inl ⟨stage, n, hstage, hfaults, ?_, ?_⟩
    · rw [Session.run, hrun]
    · refine CommandLine.codeOf_of_not_isRuntime fun d hd => ?_
      rw [← hfaults d hd] at hstage
      exact Diagnostic.isRuntime_of_stage hstage
  · rw [Session.run, hrun] at h
    refine .inr ⟨p, d, n, hr, ?_⟩
    have hinterpret : ((s.machine.addDistances d).interpret fuel p).1 = .failure faults := h
    rcases Machine.interpret_failure_cases hinterpret with
      ⟨line, cause, m, hm, rfl⟩ | ⟨m, fault, hm, hflush, rfl⟩
    · exact .inl ⟨line, cause, m, hm, rfl, rfl⟩
    · exact .inr ⟨m, fault, hm, hflush, rfl, rfl⟩

/-- A session whose output cannot be flushed. -/
def unflushable : Session where
  machine := .fresh { output := { flushFails := true } } fun _ => 0

/-- A declaration succeeds, and the flush after it does not. -/
theorem failure_cases_unflushable :
    (unflushable.run 20 "var a = 1;").1 = .failure [.output .flushFailed]
      ∧ ((∃ stage n, stage ≠ .execution ∧ (∀ d ∈ [.output .flushFailed], Diagnostic.stage d = stage)
          ∧ (unflushable.run 20 "var a = 1;").2 = { unflushable with nextId := n }
          ∧ codeOf [.output .flushFailed] = codeStatic)
        ∨ ∃ p d n, unflushable.limit.Reads unflushable.nextId "var a = 1;" p d n
          ∧ ((∃ line cause m, (p.forM fun st => discard (execute 20 st))
                (unflushable.machine.addDistances d) = .error (.fault line cause) m
              ∧ [.output .flushFailed] = [Diagnostic.runtime line cause]
              ∧ codeOf [.output .flushFailed] = codeRuntime)
            ∨ ∃ m fault, (p.forM fun st => discard (execute 20 st))
                (unflushable.machine.addDistances d) = .ok () m
              ∧ m.console.output.flushFault? = some fault
              ∧ [.output .flushFailed] = [Diagnostic.output fault]
              ∧ codeOf [.output .flushFailed] = codeStatic)) := by
  have h : (unflushable.run 20 "var a = 1;").1 = .failure [.output .flushFailed] := by
    decide +kernel
  exact ⟨h, unflushable.failure_cases 20 "var a = 1;" h⟩

/-- A flush may fail as late as at the end, when all that was printed has been flushed before. -/
example :
    let full (_ : ByteArray) (given : List String) : Option OutputFault :=
      if given.length = 2 then some (.other "No space left on device (os error 28)") else none
    let output : Output := { flushFails := { afterWrite := fun _ _ => none, atEnd := full } }
    let s : Session := { machine := .fresh { output } fun _ => 0 }
    let after := s.run 20 "print(\"a\"); print(\"b\");"
    after.1 = .failure [.output (.other "No space left on device (os error 28)")]
      ∧ after.2.machine.console.output.written.data = "ab".toUTF8.data := by
  decide +kernel

/-- A program that has been executed may fail without a fault of a running program, and with the exit
code of a source that never started: this one has declared its variable when the flush fails. -/
theorem flush_fault_not_runtime :
    (unflushable.run 20 "var a = 1;").1 = .failure [.output .flushFailed]
      ∧ ((unflushable.run 20 "var a = 1;").2.machine.store.scope 0).binds "a" = true
      ∧ (unflushable.machine.store.scope 0).binds "a" = false
      ∧ Diagnostic.isRuntime (.output .flushFailed) = false
      ∧ codeOf [.output .flushFailed] = codeStatic := by
  refine ⟨?_, ?_, ?_, rfl, rfl⟩ <;> decide +kernel

end Session

end Lox
