import Lox.Proofs.Grammar.Trees
import Lox.Proofs.Parsing.Joined
import Lox.Proofs.Parsing.Parts
import Lox.Proofs.Parsing.Soundness

/-!
The parser accepts exactly what the grammar derives (`accepts_iff_derives`). What it reads was written
so, what is written is read, and what can be written is what the grammar derives.
-/

namespace Lox

namespace Parser

open Grammar

variable {α : Type} {limit : Limit} {n : Nat} {ts : List Token} {stop : Token}

theorem parse_eq_ok_iff {s : Cursor} {p : Reading α} {a : α} :
    (s.parse p).result = .ok a ↔ ∃ s', p s = .ok a s' ∧ s'.faults = [] := by
  unfold Cursor.parse
  cases hp : p s with
  | ok b s' =>
    by_cases hfaults : s'.faults = []
    · simp only [hfaults, if_true, Except.ok.injEq, EStateM.Result.ok.injEq]
      constructor
      · rintro rfl
        exact ⟨s', ⟨rfl, rfl⟩, hfaults⟩
      · rintro ⟨_, ⟨rfl, rfl⟩, -⟩
        rfl
    · simp [hfaults]
  | error e s' => cases e <;> simp

/-- What a reading yields from the start of a list. -/
theorem Yields.parse {p : Reading α} {post : α → List Token → List Token → Prop} (h : Yields p post)
    {a : α} {us : List Token} (ha : ((Cursor.start n us).parse p).result = .ok a) :
    ∃ ts rest, upToEof us = ts ++ rest ∧ post a ts rest := by
  obtain ⟨s', hp, hfaults⟩ := parse_eq_ok_iff.1 ha
  obtain ⟨-, ts, hts, hpost⟩ := h _ a s' hp hfaults
  exact ⟨ts, s'.rest, hts, hpost⟩

/-- What takes all tokens of a list up to its end. -/
theorem Takes.parse {p : Reading α} {post : α → Prop} {us : List Token}
    (h : Takes p (upToEof us) [] post) :
    ∃ a, ((Cursor.start n us).parse p).result = .ok a ∧ post a := by
  obtain ⟨a, s', hp, -, hfaults, hpost⟩ := h (Cursor.start n us) (List.append_nil _).symm rfl
  exact ⟨a, parse_eq_ok_iff.2 ⟨s', hp, hfaults⟩, hpost⟩

/-! ### The ends of programs and of expressions -/

theorem Yields.program (limit : Limit) (rounds : Nat) :
    Yields (program limit rounds) fun p ts rest =>
      (Part.declarations p).Written limit ts ∧ rest = [] := by
  refine ((Yields.declarations (Yields.statements limit rounds).1 _ rounds).conseq ?_).bind_pure
  rintro body ts rest ⟨hbody, hrest⟩
  refine ⟨hbody, ?_⟩
  cases rest with
  | nil => rfl
  | cons t rest => cases hrest t rfl

/-- One expression, and then the end: another token would be a fault. -/
theorem Yields.loneExpression (limit : Limit) (rounds : Nat) :
    Yields (loneExpression limit rounds) fun e ts rest =>
      (Phrase.expression e).Written limit ts ∧ rest = [] := by
  refine (Yields.expressions limit rounds).1.bind fun e ts => ?_
  intro s a s' hr hfaults
  cases hrest : s.rest with
  | nil =>
    simp only [peek?, hrest, Bind.bind, EStateM.bind] at hr
    cases hr
    exact ⟨hfaults, [], hrest.symm, fun he => ⟨by simpa using he, hrest⟩⟩
  | cons t rest =>
    simp only [peek?, hrest, Bind.bind, EStateM.bind] at hr
    cases hr
    simp [Cursor.record] at hfaults

theorem Takes.program {p : Program} (h : (Part.declarations p).Written limit ts) {rounds : Nat}
    (hrounds : 4 * ts.length + 1 ≤ rounds) :
    Takes (program limit rounds) ts [] fun p' => Stmt.AlikeEach p' p := by
  have hbody : Takes (upTo (fun _ => false) (declaration limit rounds) rounds) ts []
      fun body => Stmt.AlikeEach body.reduceOption p :=
    Takes.parts h hrounds (by omega) (by simp) (by simp)
  exact hbody.bind_pure fun _ => id

theorem Takes.loneExpression {e : Expr} (h : (Phrase.expression e).Written limit ts) {rounds : Nat}
    (hrounds : 4 * ts.length + 3 ≤ rounds) :
    Takes (loneExpression limit rounds) ts [] fun e' => e'.Alike e := by
  rw [← List.append_nil ts]
  refine Takes.bind (Takes.expression h hrounds (by simp [Stops])) fun e' he => ?_
  exact peek_bind (.pure he)

end Parser

open Lox.Parser Lox.Grammar

section

variable {limit : Limit} {n : Nat} {ts us : List Token} {stop : Token}

/-- What is read as a program was written so, up to the end of the file. -/
theorem written_of_parseProgram {p : Program} (h : (parseProgram limit n us).result = .ok p) :
    (Part.declarations p).Written limit (upToEof us) := by
  obtain ⟨ts, rest, hus, hp, rfl⟩ := (Yields.program limit _).parse h
  rwa [hus, List.append_nil]

/-- What is read as an expression was written so, up to the end of the file. -/
theorem written_of_parseExpression {e : Expr} (h : (parseExpression limit n us).result = .ok e) :
    (Phrase.expression e).Written limit (upToEof us) := by
  obtain ⟨ts, rest, hus, he, rfl⟩ := (Yields.loneExpression limit _).parse h
  rwa [hus, List.append_nil]

/-- What is written as a program is read, and gives that program but for the numbers. -/
theorem parseProgram_of_written {p : Program}
    (h : (Part.declarations p).Written limit (upToEof us)) :
    ∃ p', (parseProgram limit n us).result = .ok p' ∧ Stmt.AlikeEach p' p := by
  refine (Takes.program h ?_).parse
  have hlength : (upToEof us).length ≤ us.length := (List.takeWhile_sublist _).length_le
  rw [roundsFor]
  omega

/-- What is written as an expression is read, and gives that expression but for the numbers. -/
theorem parseExpression_of_written {e : Expr}
    (h : (Phrase.expression e).Written limit (upToEof us)) :
    ∃ e', (parseExpression limit n us).result = .ok e' ∧ e'.Alike e := by
  refine (Takes.loneExpression h ?_).parse
  have hlength : (upToEof us).length ≤ us.length := (List.takeWhile_sublist _).length_le
  rw [roundsFor]
  omega

theorem parseProgram_isOk_iff :
    (∃ p, (parseProgram limit n us).result = .ok p)
      ↔ ∃ p, (Part.declarations p).Written limit (upToEof us) := by
  constructor
  · rintro ⟨p, hp⟩
    exact ⟨p, written_of_parseProgram hp⟩
  · rintro ⟨p, hp⟩
    obtain ⟨p', hp', -⟩ := parseProgram_of_written (n := n) hp
    exact ⟨p', hp'⟩

theorem parseExpression_isOk_iff :
    (∃ e, (parseExpression limit n us).result = .ok e)
      ↔ ∃ e, (Phrase.expression e).Written limit (upToEof us) := by
  constructor
  · rintro ⟨e, he⟩
    exact ⟨e, written_of_parseExpression he⟩
  · rintro ⟨e, he⟩
    obtain ⟨e', he', -⟩ := parseExpression_of_written (n := n) he
    exact ⟨e', he'⟩

/-- The parser accepts exactly what the grammar derives, for programs and for expressions, with lists
of parameters and of arguments no longer than the limit allows. -/
theorem accepts_iff_derives (hts : ∀ t ∈ ts, t.kind ≠ .eof) (hstop : stop.kind = .eof) :
    ((∃ p, (parseProgram limit n (ts ++ [stop])).result = .ok p)
        ↔ Derives limit (.rule .program) (ts ++ [stop]))
      ∧ ((∃ e, (parseExpression limit n (ts ++ [stop])).result = .ok e)
        ↔ Derives limit (.rule .expression) ts) := by
  rw [derives_program_iff hstop, derives_expression_iff, parseProgram_isOk_iff,
    parseExpression_isOk_iff, upToEof_stop hts hstop]
  exact ⟨Iff.rfl, Iff.rfl⟩

end

/-- A call with two arguments, with a strict limit of one argument and without. Its end makes it a
statement, and no expression. -/
theorem accepts_iff_derives_calling :
    let call : List Token := [⟨.identifier, "f", 1⟩, ⟨.leftParen, "(", 1⟩, ⟨.identifier, "a", 1⟩,
      ⟨.comma, ",", 1⟩, ⟨.identifier, "b", 1⟩, ⟨.rightParen, ")", 1⟩, ⟨.semicolon, ";", 1⟩]
    let stop : Token := ⟨.eof, "", 1⟩
    (∀ t ∈ call, t.kind ≠ .eof) ∧ stop.kind = .eof
      ∧ ¬ Derives ⟨1, true⟩ (.rule .program) (call ++ [stop])
      ∧ Derives ⟨1, false⟩ (.rule .program) (call ++ [stop])
      ∧ ¬ Derives ⟨1, false⟩ (.rule .expression) call := by
  intro call stop
  have hcall : ∀ t ∈ call, t.kind ≠ .eof := by decide
  have hstop : stop.kind = .eof := rfl
  have hstrict : (parseProgram ⟨1, true⟩ 0 (call ++ [stop])).result.isOk = false := by
    decide +kernel
  have hlenient : (parseProgram ⟨1, false⟩ 0 (call ++ [stop])).result.isOk = true := by
    decide +kernel
  have hexpression : (parseExpression ⟨1, false⟩ 0 (call ++ [stop])).result.isOk = false := by
    decide +kernel
  refine ⟨hcall, hstop, ?_, ?_, ?_⟩
  · rw [← (accepts_iff_derives (n := 0) hcall hstop).1]
    rintro ⟨p, hp⟩
    rw [hp] at hstrict
    cases hstrict
  · rw [← (accepts_iff_derives (n := 0) hcall hstop).1]
    cases hp : (parseProgram ⟨1, false⟩ 0 (call ++ [stop])).result with
    | ok p => exact ⟨p, rfl⟩
    | error ds =>
      rw [hp] at hlenient
      cases hlenient
  · rw [← (accepts_iff_derives (n := 0) hcall hstop).2]
    rintro ⟨e, he⟩
    rw [he] at hexpression
    cases hexpression

end Lox
