import Lox.Proofs.Indexed.Grammar
import Lox.Proofs.Parsing.Settles

/-!
Reading by places ends and stays in bounds. Whatever the tokens are, a program and a lone expression
are read without a place behind the first end of program being looked at, and what comes out is what
the readings give, with any fuel from a bound on (`reads_within_bounds`). A declaration that starts
before that place moves on, also if it cannot be read. The tokens behind the first end of program make
no difference.
-/

namespace Lox.Indexed

open Lox.Parser (Cursor Parsed Reading Settles SettlesAt roundsFor)

variable {α : Type}

/-! ### The start of a list -/

/-- The place of the first end of program, or the length of the list. -/
def endOf (tokens : List Token) : Nat :=
  tokens.findIdx (·.kind = .eof)

theorem endOf_le_length (tokens : List Token) : endOf tokens ≤ tokens.length :=
  List.findIdx_le_length

theorem endOf_terminated (tokens : List Token) : endOf (terminated tokens) = endOf tokens := by
  unfold terminated
  split
  · rfl
  · rw [endOf, List.findIdx_append]
    split
    · rfl
    · rename_i hlt
      have hle := endOf_le_length tokens
      unfold endOf at hle ⊢
      simp only [List.findIdx_cons, decide_true, cond_true]
      omega

theorem find?_terminated (tokens : List Token) :
    (terminated tokens).find? (·.kind = .eof) = some ((tokens.find? (·.kind = .eof)).getD
      ⟨.eof, "", (tokens.getLast?.map Token.line).getD 1⟩) := by
  unfold terminated
  split
  · rename_i hlast
    obtain ⟨t, ht, hkind⟩ := (Option.any_eq_true _ _).1 hlast
    have hsome : (tokens.find? (·.kind = .eof)).isSome = true :=
      List.find?_isSome.2 ⟨t, List.mem_of_getLast? ht, hkind⟩
    obtain ⟨u, hu⟩ := Option.isSome_iff_exists.1 hsome
    rw [hu, Option.getD_some]
  · rw [List.find?_append]
    cases tokens.find? (·.kind = .eof) <;> rfl

theorem endOf_lt_length (tokens : List Token) : endOf tokens < (terminated tokens).length := by
  have hsome : ((terminated tokens).find? (·.kind = .eof)).isSome = true := by
    rw [find?_terminated]
    rfl
  rw [← endOf_terminated]
  exact List.findIdx_lt_length_of_exists (List.find?_isSome.1 hsome)

theorem take_endOf (tokens : List Token) :
    tokens.take (endOf tokens) = tokens.takeWhile (·.kind ≠ .eof) := by
  rw [List.takeWhile_eq_take_findIdx_not, endOf]
  simp only [ne_eq, decide_not, Bool.not_not]

theorem take_terminated (tokens : List Token) :
    (terminated tokens).take (endOf tokens) = tokens.takeWhile (·.kind ≠ .eof) := by
  rw [← take_endOf]
  unfold terminated
  split
  · rfl
  · exact List.take_append_of_le_length (endOf_le_length tokens)

variable (firstId : Nat) (tokens : List Token)

theorem new_cursor : (Buffer.new firstId tokens).cursor = Cursor.start firstId tokens := by
  have hstop : (Buffer.new firstId tokens).stop = endOf tokens := endOf_terminated tokens
  unfold Buffer.cursor Cursor.start
  rw [hstop]
  simp only [Buffer.new, Cursor.mk.injEq, List.drop_zero, and_self, and_true]
  refine ⟨take_terminated tokens, ?_⟩
  have hfound := find?_terminated tokens
  rw [List.find?_eq_getElem?_findIdx] at hfound
  rw [← endOf_terminated, endOf, hfound, Option.getD_some]

theorem new_inBounds : (Buffer.new firstId tokens).InBounds where
  lt := by
    show endOf (terminated tokens) < (terminated tokens).length
    rw [endOf_terminated]
    exact endOf_lt_length tokens
  le := Nat.zero_le _

/-- The tokens behind the first end of program make no difference at the start. -/
theorem start_take :
    Cursor.start firstId (tokens.take (endOf tokens + 1)) = Cursor.start firstId tokens := by
  by_cases hlt : endOf tokens < tokens.length
  · have hend : endOf (tokens.take (endOf tokens + 1)) = endOf tokens := by
      rw [endOf, List.findIdx_take]
      exact Nat.min_eq_right (Nat.le_succ _)
    have hrest : (tokens.take (endOf tokens + 1)).takeWhile (·.kind ≠ .eof)
        = tokens.takeWhile (·.kind ≠ .eof) := by
      rw [← take_endOf, ← take_endOf, hend, List.take_take, Nat.min_eq_left (Nat.le_succ _)]
    have hfind : (tokens.take (endOf tokens + 1)).find? (·.kind = .eof) = some tokens[endOf tokens] := by
      rw [List.find?_eq_getElem?_findIdx]
      show (tokens.take (endOf tokens + 1))[endOf (tokens.take (endOf tokens + 1))]? = _
      rw [hend, List.getElem?_take_of_lt (Nat.lt_succ_self _), List.getElem?_eq_getElem hlt]
    have hfind' : tokens.find? (·.kind = .eof) = some tokens[endOf tokens] := by
      rw [List.find?_eq_getElem?_findIdx]
      exact List.getElem?_eq_getElem hlt
    unfold Cursor.start
    rw [hrest, hfind, hfind']
    rfl
  · rw [List.take_of_length_le (Nat.le_succ_of_le (Nat.le_of_not_lt hlt))]

/-! ### Runs -/

theorem Follows.ends {p : Reading α} {q : Scanning α} {b : Buffer} {k : Nat} (h : Follows p q)
    (hb : b.InBounds) (hsettles : SettlesAt k p b.cursor) :
    ∃ out, q b = some out ∧ b.Leads out.2 ∧ finish out = b.cursor.parse p := by
  have hend := h b hb
  unfold FollowsAt at hend
  unfold SettlesAt at hsettles
  unfold Cursor.parse
  generalize p b.cursor = result at *
  generalize q b = out at *
  cases hend with
  | ok hleads => exact ⟨_, rfl, hleads, rfl⟩
  | fault hleads => exact ⟨_, rfl, hleads, rfl⟩
  | outOfRounds => exact hsettles.elim

/-- Readings that have enough rounds and are followed by the same steps give the same. -/
theorem parse_eq_parse {p p' : Reading α} {q : Scanning α} (h : Follows p q) (h' : Follows p' q)
    (hsettles : SettlesAt 0 p (Cursor.start firstId tokens))
    (hsettles' : SettlesAt 0 p' (Cursor.start firstId tokens)) :
    (Cursor.start firstId tokens).parse p = (Cursor.start firstId tokens).parse p' := by
  have hb := new_inBounds firstId tokens
  rw [← new_cursor] at hsettles hsettles' ⊢
  obtain ⟨out, hout, -, hfinish⟩ := h.ends hb hsettles
  obtain ⟨out', hout', -, hfinish'⟩ := h'.ends hb hsettles'
  cases hout.symm.trans hout'
  exact hfinish.symm.trans hfinish'

theorem length_start_le : (Cursor.start firstId tokens).rest.length ≤ tokens.length :=
  (List.takeWhile_sublist _).length_le

variable {tokens}

theorem program_settles {s : Cursor} (limit : Limit) (hs : s.rest.length ≤ tokens.length) :
    SettlesAt 0 (Parser.program limit (roundsFor tokens)) s :=
  Settles.program limit (by unfold roundsFor; omega) s hs

theorem loneExpression_settles {s : Cursor} (limit : Limit) (hs : s.rest.length ≤ tokens.length) :
    SettlesAt 0 (Parser.loneExpression limit (roundsFor tokens)) s :=
  Settles.loneExpression limit (by unfold roundsFor; omega) s hs

variable (tokens)

theorem runs_from_start {p : Reading α} {q : Scanning α} (h : Follows p q)
    (hsettles : SettlesAt 0 p (Cursor.start firstId tokens)) :
    ∃ out, q (Buffer.new firstId tokens) = some out ∧ out.2.current ≤ endOf tokens
      ∧ out.2.reach ≤ endOf tokens ∧ finish out = (Cursor.start firstId tokens).parse p := by
  rw [← new_cursor] at hsettles ⊢
  obtain ⟨out, hout, hleads, hfinish⟩ := h.ends (new_inBounds firstId tokens) hsettles
  have hstop : (Buffer.new firstId tokens).stop = endOf tokens := endOf_terminated tokens
  have hle := hleads.le
  have hreach := hleads.reach
  rw [hstop] at hle hreach
  exact ⟨out, hout, hle, Nat.le_trans hreach (Nat.max_le.2 ⟨Nat.zero_le _, Nat.le_refl _⟩), hfinish⟩

/-- A declaration that starts before the first end of program takes a token, and never ends with a
fault: one that cannot be read is left out. -/
theorem declaration_advances {b : Buffer} {fuel : Nat} (limit : Limit) (hb : b.InBounds)
    (hlt : b.current < b.stop) (hfuel : 4 * b.cursor.rest.length + 6 ≤ fuel) :
    ∃ s? b', declaration limit fuel b = some (.ok s?, b') ∧ b.Leads b'
      ∧ b.current < b'.current := by
  let n := b.cursor.rest.length
  have hne : b.cursor.rest ≠ [] := by
    rw [← List.length_pos_iff, hb.length_rest]
    omega
  have hend := (Follows.statements limit (4 * n + 6) hfuel).1 b hb
  have hadvances := (Settles.statements limit (4 * n + 6) n).1 (Nat.le_refl _) b.cursor hne
    (Nat.le_refl _)
  unfold FollowsAt at hend
  unfold SettlesAt at hadvances
  generalize hread : Parser.declaration limit (4 * n + 6) b.cursor = result at hend hadvances
  generalize hrun : declaration limit fuel b = out at hend
  cases hend with
  | @ok s? b' hleads =>
    refine ⟨s?, b', rfl, hleads, ?_⟩
    have hshorter : b'.cursor.rest.length + 1 ≤ b.cursor.rest.length := hadvances
    rw [hb.length_rest, (hleads.inBounds hb).length_rest, hleads.stop] at hshorter
    omega
  | fault hleads =>
    unfold Parser.declaration Parser.recovering at hread
    dsimp only at hread
    split at hread <;> cases hread
  | outOfRounds => exact hadvances.elim

/-- Reading ends if it is given enough fuel, without a look behind the first end of program, and what
it gives depends neither on the fuel nor on the tokens behind that place. -/
theorem reads_within_bounds (limit : Limit) (firstId : Nat) (tokens : List Token) {fuel : Nat}
    (hfuel : roundsFor tokens ≤ fuel) :
    endOf tokens < (terminated tokens).length
      ∧ (∃ out, program limit fuel (Buffer.new firstId tokens) = some out
        ∧ out.2.current ≤ endOf tokens ∧ out.2.reach ≤ endOf tokens
        ∧ finish out = parseProgram limit firstId tokens)
      ∧ (∃ out, loneExpression limit fuel (Buffer.new firstId tokens) = some out
        ∧ out.2.current ≤ endOf tokens ∧ out.2.reach ≤ endOf tokens
        ∧ finish out = parseExpression limit firstId tokens)
      ∧ (∀ b : Buffer, b.tokens = terminated tokens → b.current < endOf tokens →
        ∃ s? b', declaration limit fuel b = some (.ok s?, b') ∧ b'.tokens = b.tokens
          ∧ b.current < b'.current ∧ b'.current ≤ endOf tokens
          ∧ b'.reach ≤ max b.reach (endOf tokens))
      ∧ parseProgram limit firstId (tokens.take (endOf tokens + 1))
        = parseProgram limit firstId tokens
      ∧ parseExpression limit firstId (tokens.take (endOf tokens + 1))
        = parseExpression limit firstId tokens := by
  have hlength := length_start_le firstId tokens
  have hlength' := length_start_le firstId (tokens.take (endOf tokens + 1))
  have hstart := start_take firstId tokens
  have hfewer : roundsFor (tokens.take (endOf tokens + 1)) ≤ fuel := by
    refine Nat.le_trans ?_ hfuel
    unfold roundsFor
    rw [List.length_take]
    omega
  refine ⟨endOf_lt_length tokens, ?_, ?_, fun b htokens hlt => ?_, ?_, ?_⟩
  · exact runs_from_start firstId tokens (Follows.program limit hfuel) (program_settles limit hlength)
  · exact runs_from_start firstId tokens (Follows.loneExpression limit hfuel)
      (loneExpression_settles limit hlength)
  · have hstop : b.stop = endOf tokens := by
      rw [Buffer.stop, htokens]
      exact endOf_terminated tokens
    have hb : b.InBounds := by
      refine ⟨?_, ?_⟩
      · rw [hstop, htokens]
        exact endOf_lt_length tokens
      · rw [hstop]
        exact Nat.le_of_lt hlt
    have henough : 4 * b.cursor.rest.length + 6 ≤ fuel := by
      have hle := endOf_le_length tokens
      unfold roundsFor at hfuel
      rw [hb.length_rest, hstop]
      omega
    obtain ⟨s?, b', hrun, hleads, hforward⟩ :=
      declaration_advances limit hb (hstop ▸ hlt) henough
    rw [← hstop]
    exact ⟨s?, b', hrun, hleads.tokens, hforward, hleads.le, hleads.reach⟩
  · unfold parseProgram
    rw [hstart] at hlength' ⊢
    exact parse_eq_parse firstId tokens (Follows.program limit hfewer) (Follows.program limit hfuel)
      (program_settles limit hlength') (program_settles limit hlength)
  · unfold parseExpression
    rw [hstart] at hlength' ⊢
    exact parse_eq_parse firstId tokens (Follows.loneExpression limit hfewer)
      (Follows.loneExpression limit hfuel) (loneExpression_settles limit hlength')
      (loneExpression_settles limit hlength)

/-- A declaration that cannot be read ends at the first end of program, though tokens follow. -/
theorem reads_within_bounds_two_ends :
    let tokens : List Token := [⟨.kwVar, "var", 1⟩, ⟨.eof, "", 1⟩, ⟨.semicolon, ";", 2⟩]
    let b := Buffer.new 0 tokens
    (roundsFor tokens ≤ 20 ∧ b.tokens = terminated tokens ∧ b.current < endOf tokens)
      ∧ ∃ b', declaration {} 20 b = some (.ok none, b') ∧ b'.current = 1 ∧ b'.reach ≤ 1 := by
  intro tokens b
  have hfuel : roundsFor tokens ≤ 20 := by decide
  have hb : b.tokens = terminated tokens ∧ b.current < endOf tokens := ⟨rfl, by decide⟩
  obtain ⟨-, -, -, hdeclaration, -⟩ := reads_within_bounds {} 0 tokens hfuel
  obtain ⟨s?, b', hrun, -, hforward, hle, hreach⟩ := hdeclaration b hb.1 hb.2
  have hnone : (declaration {} 20 b).map (·.1.toOption.map Option.isSome) = some (some false) := by
    decide +kernel
  rw [hrun] at hnone
  cases s? with
  | none => exact ⟨⟨hfuel, hb⟩, b', hrun, Nat.le_antisymm hle hforward, hreach⟩
  | some s => cases hnone

end Lox.Indexed
