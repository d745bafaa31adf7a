import Lox.Program.Equality
import Lox.Proofs.Parsing.Statement
import Lox.Proofs.Session.Joined
import Lox.Proofs.Session.Numbering

/-!
An expression that is evaluated by itself, and run as a statement. Outside of all scopes nothing is
found in an expression unless it is about `this` or `super`, so that the text of an expression with a
semicolon on a line after it is accepted, with the same tree and an empty table. On machines that have
run nothing the two do the same (`Session.run_expression`).
-/

namespace Lox

namespace Grammar

open Lox.Parser

/-- What is found outside of all scopes in the expressions of a phrase. -/
def Phrase.findings : Phrase → Findings
  | .expression e | .operation _ e | .call e => e.findings {}
  | .entries es | .arguments es => Expr.findingsEach {} es

/-- Outside of all scopes nothing is found in a phrase without `this` and `super`. -/
theorem Phrase.Written.findings_eq_none {limit : Limit} {ph : Phrase} {ts : List Token}
    (h : ph.Written limit ts) (hts : ∀ t ∈ ts, t.kind ≠ .kwThis ∧ t.kind ≠ .kwSuper) :
    ph.findings = .none := by
  have hboth {found found' : Findings} (hf : found = .none) (hf' : found' = .none) :
      found ++ found' = .none := by
    rw [hf, hf']
    rfl
  induction h with
  | literal | var | noArguments => rfl
  | this id hkeyword => exact absurd hkeyword (hts _ List.mem_cons_self).1
  | super id hkeyword => exact absurd hkeyword (hts _ List.mem_cons_self).2
  | grouping _ _ _ _ ih | unary _ _ _ ih =>
    exact ih fun t ht => hts t (List.mem_cons_of_mem _ (by simp [ht]))
  | get _ _ _ _ ih => exact ih fun t ht => hts t (List.mem_append_left _ ht)
  | assign _ _ _ _ ih => exact hboth (ih fun t ht => hts t (by simp [ht])) rfl
  | tightest _ ih | tighter _ _ ih | loosest _ ih | arguments _ _ ih => exact ih hts
  | call _ _ _ _ _ ih ih' =>
    exact hboth (ih fun t ht => hts t (by simp [ht])) (ih' fun t ht => hts t (by simp [ht]))
  | @joined id i level left right operator ts us hlevel _ _ _ ih ih' =>
    have hmake : (level.make id left operator right).findings {}
        = left.findings {} ++ right.findings {} := by
      have hmem := List.mem_of_getElem? hlevel
      simp only [levels, List.mem_cons, List.not_mem_nil, or_false] at hmem
      rcases hmem with rfl | rfl | rfl | rfl | rfl | rfl <;> rfl
    exact hmake.trans (hboth (ih fun t ht => hts t (by simp [ht]))
      (ih' fun t ht => hts t (by simp [ht])))
  | set _ _ _ _ _ _ ih ih' =>
    exact hboth (ih' fun t ht => hts t (by simp [ht])) (ih fun t ht => hts t (by simp [ht]))
  | entry _ ih => exact hboth (ih hts) rfl
  | entries _ _ _ ih ih' =>
    exact hboth (ih fun t ht => hts t (by simp [ht])) (ih' fun t ht => hts t (by simp [ht]))

end Grammar

/-- A program that is a single expression, outside of all scopes, has an empty table. -/
theorem Program.distances_expression {limit : Limit} {e : Expr} {ts : List Token}
    (h : (Grammar.Phrase.expression e).Written limit ts)
    (hts : ∀ t ∈ ts, t.kind ≠ .kwThis ∧ t.kind ≠ .kwSuper) :
    Program.distances [.expression e] = .ok ∅ := by
  have hnone : Stmt.findingsEach {} [.expression e] = .none :=
    (congrArg (· ++ Findings.none) (h.findings_eq_none hts)).trans rfl
  rw [distances, hnone]
  rfl

/-- The answer to an expression, without its value. -/
def Answer.done {α : Type} : Answer α → Answer Unit
  | .success _ => .success ()
  | .failure faults => .failure faults
  | .outOfFuel => .outOfFuel

/-- A program that is a single expression does what its evaluation does. -/
theorem Machine.interpret_expression (m : Machine) (fuel : Nat) (e : Expr) :
    m.interpret (fuel + 1) [.expression e]
      = ((Run.answer (Lox.evaluate fuel e) m).1.done.flushed
          (Run.answer (Lox.evaluate fuel e) m).2.toHost,
        (Run.answer (Lox.evaluate fuel e) m).2) := by
  unfold interpret interpretBy Run.answer
  cases hr : Lox.evaluate fuel e m with
  | ok v n =>
    have hexecute : execute (fuel + 1) (.expression e) m = .ok .normal n := bind_ok hr
    have hprogram : List.forM [Stmt.expression e] (fun s => discard (execute (fuel + 1) s)) m
        = .ok () n := by
      show EStateM.bind (EStateM.map _ (execute (fuel + 1) (.expression e))) _ m = _
      simp only [EStateM.bind, EStateM.map, hexecute]
      rfl
    rw [hprogram]
    rfl
  | error stop n =>
    have hexecute : execute (fuel + 1) (.expression e) m = .error stop n := bind_error hr
    have hprogram : List.forM [Stmt.expression e] (fun s => discard (execute (fuel + 1) s)) m
        = .error stop n := by
      show EStateM.bind (EStateM.map _ (execute (fuel + 1) (.expression e))) _ m = _
      simp only [EStateM.bind, EStateM.map, hexecute]
    rw [hprogram]
    cases stop <;> rfl

namespace Session

/-- A session that has run nothing. -/
def fresh (limit : Limit) (console : Console) (clock : Nat → Float) : Session :=
  { limit, machine := .fresh console clock }

variable {limit : Limit} {console : Console} {clock : Nat → Float} {source : String}
  {ts : List Token} {e : Expr}

/-- The text of an expression, with a semicolon on a line after it, is that of the program that is this
expression. -/
theorem reads_semicolon {n n' : Nat} (hts : tokens source = .ok ts)
    (he : parseExpression limit n ts = ⟨.ok e, n'⟩)
    (hfree : ∀ t ∈ ts, t.kind ≠ .kwThis ∧ t.kind ≠ .kwSuper) :
    limit.Reads n (joinLines source ";") [.expression e] ∅ n' := by
  have hmark : tokens ";" = .ok [⟨.semicolon, ";", 1⟩, ⟨.eof, "", 1⟩] := by decide +kernel
  obtain ⟨-, body, stop, rfl, hbody, hstop, hjoined⟩ := tokens_join hts hmark
  refine ⟨⟨_, hjoined, parseProgram_semicolon hbody hstop rfl rfl he⟩, ?_⟩
  have hwritten := written_of_parseExpression (congrArg Parser.Parsed.result he)
  rw [Parser.upToEof_stop hbody hstop] at hwritten
  exact Program.distances_expression hwritten fun t ht => hfree t (List.mem_append_left _ ht)

/-- One unit of fuel more is enough to run the expression as a statement. -/
theorem run_semicolon {n : Nat} (hts : tokens source = .ok ts)
    (he : parseExpression limit 0 ts = ⟨.ok e, n⟩)
    (hreads : limit.Reads 0 (joinLines source ";") [.expression e] ∅ n)
    (hflush : ∀ held given, console.output.flushFails.atEnd held given = none) (fuel : Nat) :
    (fresh limit console clock).run (fuel + 1) (joinLines source ";")
      = (((fresh limit console clock).evaluate fuel source).1.done,
        ((fresh limit console clock).evaluate fuel source).2) := by
  let m := Machine.fresh console clock
  have hevaluate : (fresh limit console clock).evaluate fuel source
      = ((Run.answer (Lox.evaluate fuel e) m).1,
        { fresh limit console clock with
          nextId := n
          machine := (Run.answer (Lox.evaluate fuel e) m).2 }) := by
    simp only [evaluate, parse, hts]
    rw [show parseExpression (fresh limit console clock).limit (fresh limit console clock).nextId ts
      = ⟨.ok e, n⟩ from he]
    rfl
  have hinterpret := m.interpret_expression fuel e
  have hfixed := m.fixed_interpret (fuel + 1) [.expression e]
  have hrun := run_of_reads (s := fresh limit console clock) hreads (fuel + 1)
  rw [hinterpret] at hfixed
  -- the output can be flushed after the run, as it can before
  have hquiet : (Run.answer (Lox.evaluate fuel e) m).2.console.output.flushFault? = none := by
    have hkept : (Run.answer (Lox.evaluate fuel e) m).2.console.output.flushFails
        = console.output.flushFails := congrArg Machine.Fixed.flushFails hfixed
    rw [Output.flushFault?, hkept]
    exact hflush _ _
  have hflushed : (Run.answer (Lox.evaluate fuel e) m).1.done.flushed
      (Run.answer (Lox.evaluate fuel e) m).2.toHost = (Run.answer (Lox.evaluate fuel e) m).1.done := by
    cases (Run.answer (Lox.evaluate fuel e) m).1 with
    | success v => simp only [Answer.done, Answer.flushed, hquiet]
    | failure | outOfFuel => rfl
  rw [hflushed] at hinterpret
  have hempty : (fresh limit console clock).machine.addDistances ∅ = m := rfl
  rw [hrun, hempty, hinterpret, hevaluate]

/-- An expression that is about neither `this` nor `super` is evaluated by itself as its text with a
semicolon on a line after it is run, on machines that have run nothing: that text is accepted with the
same tree and an empty table, and if both end, they leave the same machine, with the same output and
the same globals, and both succeed or both fail with the same faults. One of them ends if the other
does. Of the output it is asked that the flush at the end of a program does not fail. -/
theorem run_expression (hts : tokens source = .ok ts)
    (he : (parseExpression limit 0 ts).result = .ok e)
    (hfree : ∀ t ∈ ts, t.kind ≠ .kwThis ∧ t.kind ≠ .kwSuper)
    (hflush : ∀ held given, console.output.flushFails.atEnd held given = none) :
    (∃ n, limit.Reads 0 (joinLines source ";") [.expression e] ∅ n)
      ∧ (∀ fuel fuel', ((fresh limit console clock).evaluate fuel source).1 ≠ .outOfFuel →
        ((fresh limit console clock).run fuel' (joinLines source ";")).1 ≠ .outOfFuel →
          (fresh limit console clock).run fuel' (joinLines source ";")
            = (((fresh limit console clock).evaluate fuel source).1.done,
              ((fresh limit console clock).evaluate fuel source).2))
      ∧ ((∃ fuel, ((fresh limit console clock).evaluate fuel source).1 ≠ .outOfFuel)
        ↔ ∃ fuel, ((fresh limit console clock).run fuel (joinLines source ";")).1 ≠ .outOfFuel) := by
  obtain ⟨n, he⟩ : ∃ n, parseExpression limit 0 ts = ⟨.ok e, n⟩ := ⟨_, by rw [← he]⟩
  have hreads := reads_semicolon hts he hfree
  have hrun (fuel : Nat) := @run_semicolon _ console clock _ _ _ _ hts he hreads hflush fuel
  have hdone {answer : Answer Value} : answer.done = .outOfFuel ↔ answer = .outOfFuel := by
    cases answer <;> simp [Answer.done]
  refine ⟨⟨n, hreads⟩, fun fuel fuel' hends hends' => ?_, ?_⟩
  · rw [← hrun]
    refine (Reachable.fresh limit console clock).ends_unique ⟨?_, fuel + 1, rfl⟩ ⟨hends', fuel', rfl⟩
    show ((fresh limit console clock).run (fuel + 1) (joinLines source ";")).1 ≠ .outOfFuel
    rw [hrun]
    exact fun hout => hends (hdone.1 hout)
  · constructor
    · rintro ⟨fuel, hends⟩
      refine ⟨fuel + 1, ?_⟩
      rw [hrun]
      exact fun hout => hends (hdone.1 hout)
    · rintro ⟨fuel, hends⟩
      cases fuel with
      | zero =>
        have hzero := run_of_reads (s := fresh limit console clock) hreads 0
        rw [hzero] at hends
        exact absurd rfl hends
      | succ fuel =>
        refine ⟨fuel, fun hout => hends ?_⟩
        rw [hrun]
        exact hdone.2 hout

/-- A text that is printed and then added to: both fail when it has been written. -/
theorem run_expression_printing :
    (∃ n, Limit.Reads {} 0 (joinLines "print(\"a\") + \"b\" // sum" ";")
        [.expression (.binary 4 (.call 2 (.var 0 ⟨.identifier, "print", 1⟩) ⟨.rightParen, ")", 1⟩
          [.literal 1 (.string "a")]) ⟨.plus, "+", 1⟩ (.literal 3 (.string "b")))] ∅ n)
      ∧ ∀ fuel, ((fresh {} {} fun _ => 0).run fuel
          (joinLines "print(\"a\") + \"b\" // sum" ";")).1 ≠ .outOfFuel →
        ((fresh {} {} fun _ => 0).run fuel (joinLines "print(\"a\") + \"b\" // sum" ";")).1
          = .failure [.runtime 1 .operandsNotAddable] := by
  have h := @run_expression {} {} (fun _ => 0) "print(\"a\") + \"b\" // sum"
    [⟨.identifier, "print", 1⟩, ⟨.leftParen, "(", 1⟩, ⟨.string "a", "\"a\"", 1⟩,
      ⟨.rightParen, ")", 1⟩, ⟨.plus, "+", 1⟩, ⟨.string "b", "\"b\"", 1⟩, ⟨.eof, "", 1⟩]
    (.binary 4 (.call 2 (.var 0 ⟨.identifier, "print", 1⟩) ⟨.rightParen, ")", 1⟩
      [.literal 1 (.string "a")]) ⟨.plus, "+", 1⟩ (.literal 3 (.string "b")))
    (by decide +kernel) (by decide +kernel) (by decide) fun _ _ => rfl
  refine ⟨h.1, fun fuel hends => ?_⟩
  have hfault : ((fresh {} {} fun _ => 0).evaluate 5 "print(\"a\") + \"b\" // sum").1.done
      = .failure [.runtime 1 .operandsNotAddable] := by decide +kernel
  rw [h.2.1 5 fuel (fun hout => by rw [hout] at hfault; cases hfault) hends]
  exact hfault

end Session

end Lox
