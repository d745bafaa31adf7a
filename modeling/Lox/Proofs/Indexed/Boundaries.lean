import Lox.Proofs.Indexed.Bounds
import Mathlib.Order.Nat

/-!
Going on after a fault. A boundary of a list of tokens is a place where the program ends or a word
stands with which a statement is certain to start, or which follows a semicolon. From every place
that has an end of program at it or behind it, `synchronize` stays if the program ends there, and
else moves to the earliest boundary behind that place, whatever the place itself holds or follows;
nothing but the place changes, and the readings go on there as well (`synchronize_earliest`).
-/

namespace Lox.Indexed

open Lox.Parser (startsStatement)
open Scanning

/-! ### Boundaries -/

/-- The token at the place is of one of these kinds. -/
def Holds (tokens : List Token) (place : Nat) (kinds : List Kind) : Prop :=
  ∃ t ∈ tokens[place]?, t.kind ∈ kinds

/-- The program ends at the place, or a statement is certain to start there, or it follows a
semicolon. -/
def IsBoundary (tokens : List Token) (place : Nat) : Prop :=
  Holds tokens place [.eof]
    ∨ Holds tokens place [.kwClass, .kwFun, .kwVar, .kwFor, .kwIf, .kwWhile, .kwReturn]
    ∨ 0 < place ∧ Holds tokens (place - 1) [.semicolon]

instance (tokens : List Token) (place : Nat) (kinds : List Kind) :
    Decidable (Holds tokens place kinds) :=
  inferInstanceAs (Decidable (∃ t ∈ tokens[place]?, t.kind ∈ kinds))

instance (tokens : List Token) : DecidablePred (IsBoundary tokens) := fun _ =>
  inferInstanceAs (Decidable (_ ∨ _ ∨ _ ∧ _))

section

variable {tokens : List Token} {place : Nat} {kinds : List Kind} {t u : Token}

theorem holds_iff (ht : tokens[place]? = some t) : Holds tokens place kinds ↔ t.kind ∈ kinds := by
  simp [Holds, ht]

theorem Holds.lt_length (h : Holds tokens place kinds) : place < tokens.length := by
  obtain ⟨t, ht, -⟩ := h
  exact (List.getElem?_eq_some_iff.1 ht).1

theorem startsStatement_iff (k : Kind) : startsStatement k = true
    ↔ k ∈ [Kind.kwClass, .kwFun, .kwVar, .kwFor, .kwIf, .kwWhile, .kwReturn] := by
  cases k <;> simp [startsStatement]

/-- What the token at a place and the one before it say. -/
theorem isBoundary_iff (hpos : 0 < place) (ht : tokens[place]? = some t)
    (hu : tokens[place - 1]? = some u) :
    IsBoundary tokens place
      ↔ Holds tokens place [.eof] ∨ startsStatement t.kind = true ∨ u.kind = .semicolon := by
  have hstarts := (holds_iff ht).trans (startsStatement_iff t.kind).symm
  have hsemicolon : Holds tokens (place - 1) [.semicolon] ↔ u.kind = .semicolon :=
    (holds_iff hu).trans List.mem_singleton
  exact or_congr_right (or_congr hstarts ((and_iff_right hpos).trans hsemicolon))

end

/-! ### Steps at a place -/

namespace Buffer

/-- The buffer at another place, which has been looked at. -/
def moveTo (b : Buffer) (place : Nat) : Buffer :=
  { b with current := place, reach := max b.reach place }

/-- There is an end of program at the place reached, or behind it. -/
def EndsAhead (b : Buffer) : Prop :=
  ∃ place, b.current ≤ place ∧ Holds b.tokens place [.eof]

namespace EndsAhead

variable {b : Buffer}

/-- A list that has been given an end has one at each of its places, or behind it. -/
theorem of_terminated {tokens : List Token} (htokens : b.tokens = terminated tokens)
    (hlt : b.current < b.tokens.length) : b.EndsAhead := by
  refine ⟨b.tokens.length - 1, Nat.le_sub_one_of_lt hlt, ?_⟩
  have hlast : (terminated tokens).getLast?.any (·.kind = .eof) = true := by
    unfold terminated
    split
    · assumption
    · rw [List.getLast?_concat]
      rfl
  obtain ⟨t, ht, hkind⟩ := (Option.any_eq_true _ _).1 hlast
  rw [List.getLast?_eq_getElem?, ← htokens] at ht
  exact (holds_iff ht).2 (List.mem_singleton.2 (of_decide_eq_true hkind))

theorem lt_length (hahead : b.EndsAhead) : b.current < b.tokens.length := by
  obtain ⟨last, hle, hlast⟩ := hahead
  exact Nat.lt_of_le_of_lt hle hlast.lt_length

/-- Behind a place that does not end the program there is an earliest boundary. -/
theorem exists_isLeast (hahead : b.EndsAhead) (hend : ¬ Holds b.tokens b.current [.eof]) :
    ∃ place, place < b.tokens.length
      ∧ IsLeast {later | b.current < later ∧ IsBoundary b.tokens later} place := by
  obtain ⟨last, hle, hlast⟩ := hahead
  have hne : b.current ≠ last := fun h => hend (h ▸ hlast)
  have hmem : b.current < last ∧ IsBoundary b.tokens last :=
    ⟨Nat.lt_of_le_of_ne hle hne, .inl hlast⟩
  have hsome : ∃ later, b.current < later ∧ IsBoundary b.tokens later := ⟨last, hmem⟩
  have hleast := Nat.isLeast_find hsome
  exact ⟨_, Nat.lt_of_le_of_lt (hleast.2 hmem) hlast.lt_length, hleast⟩

end EndsAhead

end Buffer

section

variable {b : Buffer} {i : Nat} {t u : Token}

theorem tokenAt_moveTo {place : Nat} (hle : place ≤ i) (ht : b.tokens[place]? = some t) :
    tokenAt place (b.moveTo i) = some (.ok t, b.moveTo i) := by
  have hreach : max (max b.reach i) place = max b.reach i := by omega
  simp only [tokenAt, Buffer.moveTo, ht, hreach]

theorem peek_moveTo (ht : b.tokens[i]? = some t) :
    peek (b.moveTo i) = some (.ok t, b.moveTo i) :=
  tokenAt_moveTo (Nat.le_refl i) ht

theorem previous_moveTo (hu : b.tokens[i - 1]? = some u) :
    previous (b.moveTo i) = some (.ok u, b.moveTo i) :=
  tokenAt_moveTo (Nat.sub_le i 1) hu

theorem isAtEnd_moveTo (hi : i < b.tokens.length) :
    isAtEnd (b.moveTo i) = some (.ok (decide (Holds b.tokens i [.eof])), b.moveTo i) := by
  have ht := List.getElem?_eq_getElem hi
  have hend : Holds b.tokens i [.eof] ↔ b.tokens[i].kind = .eof :=
    (holds_iff ht).trans List.mem_singleton
  rw [decide_eq_decide.2 hend]
  exact scanning_bind_ok (peek_moveTo ht)

theorem step_moveTo : step (b.moveTo i) = some (.ok (), b.moveTo (i + 1)) := by
  have hreach : max (max b.reach i) (i + 1) = max b.reach (i + 1) := by omega
  rw [Buffer.moveTo, Buffer.moveTo, ← hreach]
  rfl

theorem advance_moveTo (ht : b.tokens[i]? = some t) (hend : ¬ Holds b.tokens i [.eof]) :
    advance (b.moveTo i) = some (.ok t, b.moveTo (i + 1)) := by
  have hlook := isAtEnd_moveTo (List.getElem?_eq_some_iff.1 ht).1
  rw [decide_eq_false hend] at hlook
  have hprevious : previous (b.moveTo (i + 1)) = some (.ok t, b.moveTo (i + 1)) :=
    previous_moveTo ht
  exact (scanning_bind_ok hlook).trans ((scanning_bind_ok step_moveTo).trans hprevious)

end

/-! ### Up to a boundary -/

section

variable {b : Buffer} {i place fuel : Nat}

theorem untilBoundary_atEnd (hend : Holds b.tokens i [.eof]) :
    untilBoundary (fuel + 1) (b.moveTo i) = some (.ok (), b.moveTo i) := by
  have hlook := isAtEnd_moveTo hend.lt_length
  rw [decide_eq_true hend] at hlook
  exact scanning_bind_ok hlook

/-- One round stays at a boundary, and else takes a token. -/
theorem untilBoundary_succ (hpos : 0 < i) (hi : i < b.tokens.length) :
    untilBoundary (fuel + 1) (b.moveTo i) =
      if IsBoundary b.tokens i then some (.ok (), b.moveTo i)
      else untilBoundary fuel (b.moveTo (i + 1)) := by
  obtain ⟨t, ht⟩ : ∃ t, b.tokens[i]? = some t := ⟨_, List.getElem?_eq_getElem hi⟩
  obtain ⟨u, hu⟩ : ∃ u, b.tokens[i - 1]? = some u :=
    ⟨_, List.getElem?_eq_getElem (Nat.lt_of_le_of_lt (Nat.sub_le i 1) hi)⟩
  by_cases hend : Holds b.tokens i [.eof]
  · rw [untilBoundary_atEnd hend, if_pos (.inl hend)]
  · have hlook := isAtEnd_moveTo hi
    rw [decide_eq_false hend] at hlook
    simp only [isBoundary_iff hpos ht hu, hend, false_or]
    rw [untilBoundary, scanning_bind_ok hlook, if_neg Bool.false_ne_true,
      scanning_bind_ok (previous_moveTo hu)]
    -- the semicolon before the place is looked for first, and then the word at the place
    by_cases hsemicolon : u.kind = .semicolon
    · rw [if_pos hsemicolon, if_pos (.inr hsemicolon)]
      rfl
    · rw [if_neg hsemicolon, scanning_bind_ok (peek_moveTo ht)]
      by_cases hstarts : startsStatement t.kind = true
      · rw [if_pos hstarts, if_pos (.inl hstarts)]
        rfl
      · rw [if_neg hstarts, if_neg (not_or.2 ⟨hstarts, hsemicolon⟩),
          scanning_bind_ok (advance_moveTo ht hend)]

/-- With fuel for each place on the way, tokens are taken up to the earliest boundary from here on. -/
theorem untilBoundary_of_isLeast (hpos : 0 < i) (hplace : place < b.tokens.length)
    (hleast : IsLeast {later | i ≤ later ∧ IsBoundary b.tokens later} place)
    (hfuel : place - i < fuel) :
    untilBoundary fuel (b.moveTo i) = some (.ok (), b.moveTo place) := by
  induction fuel generalizing i with
  | zero => exact absurd hfuel (Nat.not_lt_zero _)
  | succ fuel ih =>
    obtain ⟨⟨hle, hboundary⟩, hmin⟩ := hleast
    rw [untilBoundary_succ hpos (Nat.lt_of_le_of_lt hle hplace)]
    by_cases hhere : IsBoundary b.tokens i
    · have heq : place = i := Nat.le_antisymm (hmin ⟨Nat.le_refl i, hhere⟩) hle
      rw [if_pos hhere, heq]
    · have hne : i ≠ place := fun h => hhere (h ▸ hboundary)
      have hnext : i + 1 ≤ place := Nat.lt_of_le_of_ne hle hne
      have hrest : IsLeast {later | i + 1 ≤ later ∧ IsBoundary b.tokens later} place :=
        ⟨⟨hnext, hboundary⟩, fun _ hlater => hmin ⟨Nat.le_of_succ_le hlater.1, hlater.2⟩⟩
      rw [if_neg hhere]
      exact ih (Nat.succ_pos i) hrest (by omega)

/-! ### Going on after a fault -/

theorem synchronize_atEnd (hend : Holds b.tokens i [.eof]) :
    synchronize (b.moveTo i) = some (.ok (), b.moveTo i) := by
  have hi := hend.lt_length
  have hlook := isAtEnd_moveTo hi
  rw [decide_eq_true hend] at hlook
  have hu := List.getElem?_eq_getElem (Nat.lt_of_le_of_lt (Nat.sub_le i 1) hi)
  have hadvance : advance (b.moveTo i) = some (.ok _, b.moveTo i) :=
    (scanning_bind_ok hlook).trans (previous_moveTo hu)
  have huntil : untilBoundary b.tokens.length (b.moveTo i) = some (.ok (), b.moveTo i) := by
    obtain ⟨fuel, hfuel⟩ := Nat.exists_eq_add_one.2 (Nat.lt_of_le_of_lt (Nat.zero_le i) hi)
    rw [hfuel]
    exact untilBoundary_atEnd hend
  exact (scanning_bind_ok hadvance).trans huntil

/-- A token is taken before the first look for a boundary. -/
theorem synchronize_of_isLeast (hend : ¬ Holds b.tokens i [.eof])
    (hplace : place < b.tokens.length)
    (hleast : IsLeast {later | i < later ∧ IsBoundary b.tokens later} place) :
    synchronize (b.moveTo i) = some (.ok (), b.moveTo place) := by
  have ht := List.getElem?_eq_getElem (Nat.lt_trans hleast.1.1 hplace)
  have huntil : untilBoundary b.tokens.length (b.moveTo (i + 1)) = some (.ok (), b.moveTo place) :=
    untilBoundary_of_isLeast (Nat.succ_pos i) hplace hleast
      (Nat.lt_of_le_of_lt (Nat.sub_le place (i + 1)) hplace)
  exact (scanning_bind_ok (advance_moveTo ht hend)).trans huntil

/-- The token at the place is looked at before anything else. -/
theorem synchronize_eq_moveTo (hlt : b.current < b.tokens.length) :
    synchronize b = synchronize (b.moveTo b.current) := by
  have ht := List.getElem?_eq_getElem hlt
  have hpeek : peek b = some (.ok b.tokens[b.current], b.moveTo b.current) := by
    show tokenAt b.current b = _
    simp only [tokenAt, ht, Buffer.moveTo]
  have hlook : peek b = peek (b.moveTo b.current) := hpeek.trans (peek_moveTo ht).symm
  exact scanning_bind_congr (scanning_bind_congr (scanning_bind_congr hlook))

/-- The readings go on where the steps do. -/
theorem toBoundary_eq_drop (hb : b.InBounds)
    (hrun : synchronize b = some (.ok (), b.moveTo place)) :
    b.cursor.toBoundary = { b.cursor with rest := b.cursor.rest.drop (place - b.current) } := by
  obtain ⟨b', hrun', hleads, hcursor⟩ := synchronize_spec hb
  cases hrun.symm.trans hrun'
  have hforward : b.current ≤ place := hleads.forward
  rw [← hcursor]
  simp only [Buffer.cursor, List.drop_drop, Nat.add_sub_cancel' hforward]
  rfl

end

/-- Going on after a fault changes nothing but the place. Where the program ends it stays; else it
moves on, to the earliest place further on where the program ends or a statement is certain to
start, or which follows a semicolon. The readings move on by as many tokens. -/
theorem synchronize_earliest (b : Buffer) (hahead : b.EndsAhead) :
    ∃ place, synchronize b = some (.ok (), b.moveTo place)
      ∧ (Holds b.tokens b.current [.eof] → place = b.current)
      ∧ (¬ Holds b.tokens b.current [.eof] →
        IsLeast {later | b.current < later ∧ IsBoundary b.tokens later} place)
      ∧ (b.InBounds → b.cursor.toBoundary
        = { b.cursor with rest := b.cursor.rest.drop (place - b.current) }) := by
  have hlook := synchronize_eq_moveTo hahead.lt_length
  by_cases hend : Holds b.tokens b.current [.eof]
  · have hrun := hlook.trans (synchronize_atEnd hend)
    exact ⟨b.current, hrun, fun _ => rfl, fun h => absurd hend h,
      fun hb => toBoundary_eq_drop hb hrun⟩
  · obtain ⟨place, hplace, hleast⟩ := hahead.exists_isLeast hend
    have hrun := hlook.trans (synchronize_of_isLeast hend hplace hleast)
    exact ⟨place, hrun, fun h => absurd h hend, fun _ => hleast,
      fun hb => toBoundary_eq_drop hb hrun⟩

/-- The place is a boundary itself, and the next one follows the second semicolon; the word behind
it is not reached. -/
theorem synchronize_earliest_atBoundary :
    let tokens : List Token :=
      [⟨.semicolon, ";", 1⟩, ⟨.kwClass, "class", 1⟩, ⟨.rightParen, ")", 1⟩, ⟨.identifier, "a", 2⟩,
        ⟨.semicolon, ";", 2⟩, ⟨.rightParen, ")", 3⟩, ⟨.kwFun, "fun", 3⟩]
    let b : Buffer := { Buffer.new 0 tokens with current := 1 }
    b.EndsAhead ∧ ¬ Holds b.tokens 1 [.eof] ∧ b.InBounds ∧ IsBoundary b.tokens 1
      ∧ synchronize b = some (.ok (), b.moveTo 5)
      ∧ IsLeast {later | 1 < later ∧ IsBoundary b.tokens later} 5
      ∧ b.cursor.toBoundary.rest = b.cursor.rest.drop 4 := by
  intro tokens b
  have htokens : b.tokens = terminated tokens := rfl
  have hahead : b.EndsAhead := .of_terminated htokens (by decide)
  have hend : ¬ Holds b.tokens b.current [.eof] := by decide
  have hb : b.InBounds := ⟨by decide, by decide⟩
  obtain ⟨place, hrun, -, hleast, hcursor⟩ := synchronize_earliest b hahead
  have hplace : (synchronize b).map (·.2.current) = some 5 := by decide +kernel
  rw [hrun] at hplace
  obtain rfl : place = 5 := Option.some.inj hplace
  exact ⟨hahead, hend, hb, by decide, hrun, hleast hend, congrArg _ (hcursor hb)⟩

end Lox.Indexed
