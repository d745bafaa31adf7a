import Lox.Program.Bracketed
import Lox.Proofs.Decimal.Whole
import Lox.Proofs.Lexing.Spaced

/-!
Whole numbers as they are shown. The bracketed form of a constant has all digits of a whole number and `.0`
behind them. The line that lists its token has the same text for the numbers that 64 bits with a sign hold;
from there on it has the shortest decimal, with zeros behind it and no point (`Lexer.whole_listed`).
-/

namespace Lox

namespace Lexer

open Decimal (Binary digitsOf numeralValue Rounds)

/-- The kind of a text that is a number has the double that its digits stand for. -/
theorem Lexeme.number_unsigned {w : List Char} {x : Float} (h : Lexeme w (.number x)) :
    Decimal.Unsigned x := by
  have hmarks : ∀ e ∈ marks, e.2 ≠ .number x := by simp [marks]
  have hoperators : ∀ e ∈ operators, e.2.1 ≠ .number x ∧ e.2.2 ≠ .number x := by simp [operators]
  have hkeywords : ∀ e ∈ keywords, e.2 ≠ .number x := by simp [keywords]
  cases h with
  | whole h => exact Decimal.unsigned_ofParts _ _ _
  | decimal h hne hds => exact Decimal.unsigned_ofParts _ _ _
  | mark h => exact absurd rfl (hmarks _ h)
  | short h => exact absurd rfl (hoperators _ h).1
  | long h => exact absurd rfl (hoperators _ h).2
  | keyword h => exact absurd rfl (hkeywords _ h)

/-- A number that a source has, if it is the whole number `n`, is `n` with `.0` behind it in bracketed
form. Its token is listed with the same text if and only if `n` is below `2 ^ 63`. From there on it is
listed with a numeral without a point, which rounds to the number. -/
theorem whole_listed {source : String} {t : Token} {x : Float} (ht : .token t ∈ items source)
    (hkind : t.kind = .number x) {negative : Bool} {m n : Nat} {e : Int}
    (hx : Binary.ofFloat x = .finite negative m e) (hn : (m : ℚ) * 2 ^ e = n) :
    t.listing = "NUMBER " ++ t.lexeme ++ " " ++ t.kind.literalText
      ∧ (∀ id, (Expr.literal id (.number x)).bracketed = digitsOf n ++ ".0")
      ∧ (t.kind.literalText = digitsOf n ++ ".0" ↔ n < 2 ^ 63)
      ∧ (2 ^ 63 ≤ n → t.kind.literalText.toList ≠ []
        ∧ (∀ c ∈ t.kind.literalText.toList, c.isDigit = true)
        ∧ Rounds m e (numeralValue t.kind.literalText.toList)) := by
  have hlexes := (lexes_iff source (items source)).2 rfl
  have hlexeme := hlexes.lexeme ht (by rw [hkind]; nofun)
  have hunsigned : Decimal.Unsigned x := Lexeme.number_unsigned (hkind ▸ hlexeme)
  have hshown := Decimal.render_whole hunsigned hx hn
  have htext : t.kind.literalText
      = if n < 2 ^ 63 then digitsOf n ++ ".0" else (Decimal.shortest m e .away).positional := by
    rw [hkind]
    refine (hshown Token.numberFormat).trans ?_
    show (if decide (n < 2 ^ 63) = true then _ else _) = _
    simp only [decide_eq_true_eq]
    rfl
  have hlarge : 2 ^ 63 ≤ n → t.kind.literalText.toList ≠ []
      ∧ (∀ c ∈ t.kind.literalText.toList, c.isDigit = true)
      ∧ Rounds m e (numeralValue t.kind.literalText.toList) := by
    intro hle
    obtain ⟨⟨hne, -⟩, hvalue⟩ := Decimal.numeral_positional (Decimal.shortest m e .away)
    rw [htext, if_neg (Nat.not_lt_of_le hle)]
    refine ⟨hne, Decimal.isDigit_shortest ?_ .away, ?_⟩
    · have hpow : 10 ^ 16 ≤ n := le_trans (by decide) hle
      rw [hn]
      exact_mod_cast hpow
    · rw [hvalue]
      exact Decimal.rounds_shortest (Binary.normal_of_ofFloat hx) .away
  refine ⟨?_, fun id => ?_, ⟨fun hsame => ?_, fun hlt => ?_⟩, hlarge⟩
  · rw [Token.listing, hkind]
    rfl
  · exact hshown Decimal.pointed
  · -- A text with a point is no text of digits alone.
    refine Nat.lt_of_not_le fun hle => ?_
    have hpoint := (hlarge hle).2.1 '.'
    rw [hsame, String.toList_append] at hpoint
    exact absurd (hpoint (List.mem_append_right _ List.mem_cons_self)) (by decide)
  · rw [htext, if_pos hlt]

/-- The last double below `2 ^ 63`, and a number that is read as `2 ^ 63` itself. -/
theorem whole_listed_boundary :
    let x := Decimal.ofParts "9223372036854774784".toList [] 0
    let y := Decimal.ofParts "9223372036854775807".toList [] 0
    let t : Token := ⟨.number x, "9223372036854774784", 1⟩
    let u : Token := ⟨.number y, "9223372036854775807", 1⟩
    items "9223372036854774784 9223372036854775807" = [.token t, .token u, .token ⟨.eof, "", 1⟩]
      ∧ (Expr.literal 0 (.number x)).bracketed = digitsOf 9223372036854774784 ++ ".0"
      ∧ t.kind.literalText = digitsOf 9223372036854774784 ++ ".0"
      ∧ (Expr.literal 1 (.number y)).bracketed = digitsOf 9223372036854775808 ++ ".0"
      ∧ (∀ c ∈ u.kind.literalText.toList, c.isDigit = true) := by
  intro x y t u
  have hitems : items "9223372036854774784 9223372036854775807"
      = [.token t, .token u, .token ⟨.eof, "", 1⟩] := by decide +kernel
  have ht : .token t ∈ items "9223372036854774784 9223372036854775807" := by simp [hitems]
  have hu : .token u ∈ items "9223372036854774784 9223372036854775807" := by simp [hitems]
  have hx : Binary.ofFloat x = .finite false (2 ^ 53 - 1) 10 := by decide +kernel
  have hy : Binary.ofFloat y = .finite false (2 ^ 52) 11 := by decide +kernel
  obtain ⟨-, hshown, hsame, -⟩ :=
    whole_listed (n := 9223372036854774784) ht rfl hx (by norm_num)
  obtain ⟨-, hshown', -, hlarge⟩ :=
    whole_listed (n := 9223372036854775808) hu rfl hy (by norm_num)
  exact ⟨hitems, hshown 0, hsame.2 (by decide), hshown' 1, (hlarge (by decide)).2.1⟩

/-- From `2 ^ 63` on the line of the token has neither the digits of the number nor the point. -/
theorem whole_listed_pointless :
    let x := Decimal.ofParts "9223372036854775808".toList [] 0
    let t : Token := ⟨.number x, "9223372036854775808", 1⟩
    items "9223372036854775808" = [.token t, .token ⟨.eof, "", 1⟩]
      ∧ (Binary.ofFloat x).whole? = some 9223372036854775808
      ∧ t.listing = "NUMBER 9223372036854775808 9223372036854776000"
      ∧ (Expr.literal 0 (.number x)).bracketed = "9223372036854775808.0"
      ∧ t.kind.literalText ≠ (Expr.literal 0 (.number x)).bracketed
      ∧ t.kind.literalText ≠ digitsOf 9223372036854775808 ++ ".0" := by
  decide +kernel

end Lexer

end Lox
