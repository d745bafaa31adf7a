import Lox.Proofs.Parsing.Accepts

/-!
An expression as a statement. A list of tokens that is read as a single expression is read, with a
semicolon behind it, as the program that evaluates this expression: with the same tree and the same
numbers (`parseProgram_semicolon`).
-/

namespace Lox

namespace Parser

open Grammar

variable {limit : Limit} {rounds : Nat} {s s' : Cursor} {e : Expr}

theorem accept_none {k : Kind} (h : ∀ t ∈ s.rest.head?, t.kind ≠ k) : accept k s = .ok none s := by
  unfold accept takeIf
  cases hr : s.rest with
  | nil => rfl
  | cons t rest =>
    rw [hr] at h
    exact if_neg (by simpa using h t rfl)

theorem accept_some {k : Kind} {t : Token} {rest : List Token} (hr : s.rest = t :: rest)
    (ht : t.kind = k) : accept k s = .ok (some t) { s with rest } := by
  unfold accept takeIf
  rw [hr]
  exact if_pos (decide_eq_true ht)

/-- A choice by a token that does not stand here. -/
theorem accept_ite_none {α : Type} {k : Kind} {p q : Reading α}
    (h : ∀ t ∈ s.rest.head?, t.kind ≠ k) :
    (accept k >>= fun t? => if t?.isSome = true then p else q) s = q s :=
  reading_bind_ok (accept_none h)

/-- An expression and the semicolon behind it are a statement. -/
theorem expressionStatement_ok {expression : Reading Expr} {semicolon : Token} {rest : List Token}
    (he : expression s = .ok e s') (hrest : s'.rest = semicolon :: rest)
    (hsemicolon : semicolon.kind = .semicolon) :
    expressionStatement expression s = .ok (.expression e) { s' with rest } := by
  have hexpect : expect .semicolon .statementEnd s' = .ok semicolon { s' with rest } :=
    reading_bind_ok (accept_some hrest hsemicolon)
  exact (reading_bind_ok he).trans (reading_bind_ok hexpect)

/-- No declaration or statement of another kind begins like an expression. -/
theorem declaration_expression {semicolon : Token} {rest : List Token}
    (hbegins : Begins startsExpression s.rest) (he : expression limit rounds s = .ok e s')
    (hrest : s'.rest = semicolon :: rest) (hsemicolon : semicolon.kind = .semicolon) :
    declaration limit (rounds + 2) s = .ok (some (.expression e)) { s' with rest } := by
  have hstatement : statement limit (rounds + 1) s = .ok (.expression e) { s' with rest } := by
    rw [statement]
    refine (accept_ite_none (hbegins.head_ne rfl)).trans ?_
    refine (accept_ite_none (hbegins.head_ne rfl)).trans ?_
    refine (accept_ite_none (hbegins.head_ne rfl)).trans ?_
    refine (reading_bind_ok (accept_none (hbegins.head_ne rfl))).trans ?_
    refine (accept_ite_none (hbegins.head_ne rfl)).trans ?_
    exact expressionStatement_ok he hrest hsemicolon
  rw [declaration]
  unfold recovering
  rw [accept_ite_none (hbegins.head_ne rfl), accept_ite_none (hbegins.head_ne rfl),
    accept_ite_none (hbegins.head_ne rfl), hstatement]

/-- An expression that is read by itself is followed by nothing. -/
theorem loneExpression_ok (h : loneExpression limit rounds s = .ok e s') (hfaults : s'.faults = []) :
    expression limit rounds s = .ok e s' ∧ s'.rest = [] := by
  unfold loneExpression at h
  cases he : expression limit rounds s with
  | error stop s₁ =>
    rw [reading_bind_error he] at h
    cases h
  | ok e₁ s₁ =>
    rw [reading_bind_ok he] at h
    cases hrest : s₁.rest with
    | nil =>
      have hpeek : peek? s₁ = .ok none s₁ := by rw [peek?, hrest]; rfl
      rw [reading_bind_ok hpeek] at h
      cases h
      exact ⟨rfl, hrest⟩
    | cons t rest =>
      have hpeek : peek? s₁ = .ok (some t) s₁ := by rw [peek?, hrest]; rfl
      rw [reading_bind_ok hpeek] at h
      cases h
      simp [Cursor.record] at hfaults

theorem parseExpression_eq_ok_iff {n n' : Nat} {ts : List Token} :
    parseExpression limit n ts = ⟨.ok e, n'⟩ ↔ ∃ s',
      loneExpression limit (roundsFor ts) (Cursor.start n ts) = .ok e s'
        ∧ s'.faults = [] ∧ s'.nextId = n' := by
  unfold parseExpression
  constructor
  · intro h
    obtain ⟨s', hs', hfaults⟩ := parse_eq_ok_iff.1 (congrArg Parsed.result h)
    refine ⟨s', hs', hfaults, ?_⟩
    have hnext := congrArg Parsed.nextId h
    rwa [Cursor.parse, hs'] at hnext
  · rintro ⟨s', hs', hfaults, rfl⟩
    rw [Cursor.parse, hs']
    simp only [hfaults, ↓reduceIte]

end Parser

open Lox.Parser

/-- What is read as an expression is read, with a semicolon behind it, as the statement that it
makes. -/
theorem parseProgram_semicolon {limit : Limit} {n n' : Nat} {ts : List Token}
    {stop semicolon stop' : Token} {e : Expr} (hts : ∀ t ∈ ts, t.kind ≠ .eof)
    (hstop : stop.kind = .eof) (hsemicolon : semicolon.kind = .semicolon)
    (hstop' : stop'.kind = .eof) (he : parseExpression limit n (ts ++ [stop]) = ⟨.ok e, n'⟩) :
    parseProgram limit n (ts ++ [semicolon, stop']) = ⟨.ok [.expression e], n'⟩ := by
  have hend : upToEof (ts ++ [stop]) = ts := upToEof_stop hts hstop
  have hmark : ∀ t ∈ [semicolon], t.kind ≠ .eof := by simp [hsemicolon]
  have hfollow : upToEof [semicolon, stop'] = [semicolon] := upToEof_stop hmark hstop'
  obtain ⟨s, hs, hfaults, rfl⟩ := parseExpression_eq_ok_iff.1 he
  obtain ⟨hexpression, hrest⟩ := loneExpression_ok hs hfaults
  -- the list with the semicolon goes on where the first one ends
  let start := Cursor.start n (ts ++ [semicolon, stop'])
  let S := Setting.goingOn [semicolon] start.stop
  have hstart : start = (Cursor.start n (ts ++ [stop])).across S := by
    have happend := start_append hts hend n [semicolon, stop']
    rwa [hfollow] at happend
  have hends : S.Ends True := by
    rintro - t ht
    obtain rfl : semicolon = t := Option.some.inj ht
    exact hsemicolon
  let rounds := roundsFor (ts ++ [stop])
  have hrounds : roundsFor (ts ++ [semicolon, stop']) = rounds + 2 + 2 := by
    simp only [rounds, roundsFor, List.length_append, List.length_cons, List.length_nil]
    omega
  have hmore : Suffices S.exact rounds (rounds + 2) := ⟨Nat.le_add_right _ _, False.elim⟩
  have hacross : expression limit (rounds + 2) start = .ok e (s.across S) := by
    have hparallel := (Parallel.expressions limit rounds hends hmore).expression
    have hsame : e.relabel S.relabel = e := Expr.relabel_refl e
    rw [hstart, (hparallel.ok hexpression).2 (.inr ⟨hfaults, .inr trivial⟩), hsame]
  have hlast : (s.across S).rest = [semicolon] := by
    rw [Cursor.across, hrest]
    rfl
  have hbegins : Grammar.Begins Grammar.startsExpression start.rest := by
    have hwritten := written_of_parseExpression (congrArg Parsed.result he)
    rw [hend] at hwritten
    have hstartRest : start.rest = ts ++ [semicolon] := by
      rw [← hfollow]
      exact upToEof_append hts _
    rw [hstartRest]
    exact (Grammar.begins_expression hwritten).append _
  have hdeclaration := declaration_expression hbegins hacross hlast hsemicolon
  rw [parseProgram_eq_ok_iff, hrounds]
  refine ⟨[some (.expression e)], { s.across S with rest := [] }, ?_, ?_, rfl, rfl⟩
  · have hne : start.rest ≠ [] := List.ne_nil_of_length_pos hbegins.length_pos
    have hnil : upToEnd (declaration limit (rounds + 2 + 2)) (rounds + 2 + 1)
        { s.across S with rest := [] } = .ok [] { s.across S with rest := [] } := upToEnd_nil rfl
    rw [upToEnd_cons hne hdeclaration, map_eq_pure_bind, reading_bind_ok hnil]
    rfl
  · exact congrArg (List.map _) hfaults

end Lox
