import Lox.Decimal.Layout
import Lox.Proofs.Decimal.Shortest
import Mathlib.Data.List.TakeWhile
import Mathlib.Data.Nat.Cast.Field

/-!
The text of a finite double tells the double (`pointed_injective`): it is a numeral (`IsNumeral`), with a
minus in front if the double is negative, and the value of the numeral rounds to the double, so that it
rounds to no other one.
-/

namespace Lox.Decimal

/-! ### Numerals -/

/-- Decimal digits, perhaps with a point. -/
def IsNumeral (cs : List Char) : Prop :=
  cs ≠ [] ∧ ∀ c ∈ cs, c.isDigit = true ∨ c = '.'

/-- The value of a numeral: its digits, over a power of ten for those behind the point. -/
def numeralValue (cs : List Char) : ℚ :=
  Nat.ofDigitChars 10 (cs.filter (· ≠ '.')) 0 / 10 ^ ((cs.dropWhile (· ≠ '.')).length - 1)

section

variable {whole fraction : List Char}

theorem ne_point_of_isDigit {c : Char} (h : c.isDigit = true) : (decide (c ≠ '.')) = true := by
  refine decide_eq_true ?_
  rintro rfl
  cases h

theorem filter_digits (h : ∀ c ∈ whole, c.isDigit = true) : whole.filter (· ≠ '.') = whole :=
  List.filter_eq_self.2 fun c hc => ne_point_of_isDigit (h c hc)

/-- The value of digits without a point. -/
theorem numeralValue_whole (h : ∀ c ∈ whole, c.isDigit = true) :
    numeralValue whole = Nat.ofDigitChars 10 whole 0 := by
  have hrest : whole.dropWhile (· ≠ '.') = [] :=
    List.dropWhile_eq_nil_iff.2 fun c hc => ne_point_of_isDigit (h c hc)
  rw [numeralValue, filter_digits h, hrest]
  simp

/-- The value of digits with a point among them. -/
theorem numeralValue_pointed (hwhole : ∀ c ∈ whole, c.isDigit = true)
    (hfraction : ∀ c ∈ fraction, c.isDigit = true) :
    numeralValue (whole ++ '.' :: fraction)
      = Nat.ofDigitChars 10 (whole ++ fraction) 0 / 10 ^ fraction.length := by
  have hrest : (whole ++ '.' :: fraction).dropWhile (· ≠ '.') = '.' :: fraction := by
    rw [List.dropWhile_append_of_pos fun c hc => ne_point_of_isDigit (hwhole c hc)]
    rfl
  have hdigits : (whole ++ '.' :: fraction).filter (· ≠ '.') = whole ++ fraction := by
    rw [List.filter_append, filter_digits hwhole, List.filter_cons_of_neg (by simp),
      filter_digits hfraction]
  rw [numeralValue, hrest, hdigits]
  rfl

theorem isNumeral_whole (hne : whole ≠ []) (h : ∀ c ∈ whole, c.isDigit = true) : IsNumeral whole :=
  ⟨hne, fun c hc => .inl (h c hc)⟩

theorem isNumeral_pointed (hwhole : ∀ c ∈ whole, c.isDigit = true)
    (hfraction : ∀ c ∈ fraction, c.isDigit = true) : IsNumeral (whole ++ '.' :: fraction) := by
  refine ⟨by simp, fun c hc => ?_⟩
  rcases List.mem_append.1 hc with hc | hc
  · exact .inl (hwhole c hc)
  · exact (List.mem_cons.1 hc).symm.imp_left (hfraction c)

end

theorem isDigit_toDigits (n : Nat) : ∀ c ∈ Nat.toDigits 10 n, c.isDigit = true :=
  fun _ hc => Nat.isDigit_of_mem_toDigits (by decide) (by decide) hc

theorem isDigit_zeros (n : Nat) : ∀ c ∈ List.replicate n '0', c.isDigit = true := by
  intro c hc
  rw [List.eq_of_mem_replicate hc]
  rfl

section

variable {digits : List Char}

/-- Zeros behind the digits. -/
theorem numeral_zeros (hne : digits ≠ []) (hdigits : ∀ c ∈ digits, c.isDigit = true) (n : Nat) :
    IsNumeral (digits ++ List.replicate n '0')
      ∧ numeralValue (digits ++ List.replicate n '0') = Nat.ofDigitChars 10 digits 0 * 10 ^ n := by
  have hall : ∀ c ∈ digits ++ List.replicate n '0', c.isDigit = true :=
    List.forall_mem_append.2 ⟨hdigits, isDigit_zeros n⟩
  refine ⟨isNumeral_whole (List.append_ne_nil_of_left_ne_nil hne _) hall, ?_⟩
  rw [numeralValue_whole hall, Nat.ofDigitChars_append, Nat.ofDigitChars_replicate_zero]
  push_cast
  ring

/-- A point before the last digits. -/
theorem numeral_point (hdigits : ∀ c ∈ digits, c.isDigit = true) {places : Nat}
    (hplaces : places < digits.length) :
    let text := digits.take (digits.length - places) ++ '.' :: digits.drop (digits.length - places)
    IsNumeral text ∧ numeralValue text = Nat.ofDigitChars 10 digits 0 / 10 ^ places := by
  have hwhole : ∀ c ∈ digits.take (digits.length - places), c.isDigit = true :=
    fun c hc => hdigits c (List.mem_of_mem_take hc)
  have hfraction : ∀ c ∈ digits.drop (digits.length - places), c.isDigit = true :=
    fun c hc => hdigits c (List.mem_of_mem_drop hc)
  refine ⟨isNumeral_pointed hwhole hfraction, ?_⟩
  rw [numeralValue_pointed hwhole hfraction, List.take_append_drop, List.length_drop,
    show digits.length - (digits.length - places) = places by omega]

/-- A point before all digits, and zeros between them. -/
theorem numeral_padded (hdigits : ∀ c ∈ digits, c.isDigit = true) {places : Nat}
    (hplaces : digits.length ≤ places) :
    let text := ['0'] ++ '.' :: (List.replicate (places - digits.length) '0' ++ digits)
    IsNumeral text ∧ numeralValue text = Nat.ofDigitChars 10 digits 0 / 10 ^ places := by
  have hwhole : ∀ c ∈ ['0'], c.isDigit = true := by simp
  have hfraction : ∀ c ∈ List.replicate (places - digits.length) '0' ++ digits, c.isDigit = true :=
    List.forall_mem_append.2 ⟨isDigit_zeros _, hdigits⟩
  refine ⟨isNumeral_pointed hwhole hfraction, ?_⟩
  rw [numeralValue_pointed hwhole hfraction, Nat.ofDigitChars_append, Nat.ofDigitChars_append,
    Nat.ofDigitChars_replicate_zero, List.length_append, List.length_replicate,
    Nat.sub_add_cancel hplaces]
  rfl

end

/-! ### Texts -/

/-- A decimal in positional notation is a numeral of its value. -/
theorem numeral_positional (s : Scaled) :
    IsNumeral s.positional.toList ∧ numeralValue s.positional.toList = s.value := by
  have hdigits := isDigit_toDigits s.digits
  have hvalue : Nat.ofDigitChars 10 (Nat.toDigits 10 s.digits) 0 = s.digits :=
    Nat.ofDigitChars_ten_toDigits
  unfold Scaled.positional Scaled.value
  dsimp only
  have hne : Nat.toDigits 10 s.digits ≠ [] := Nat.toDigits_ne_nil
  generalize Nat.toDigits 10 s.digits = digits at hdigits hvalue hne ⊢
  rw [← hvalue, zpow_eq_div (by norm_num) s.exponent]
  split
  · rename_i he
    rw [zeros, ← String.ofList_append, String.toList_ofList, show (-s.exponent).toNat = 0 by omega,
      pow_zero, div_one]
    exact numeral_zeros hne hdigits _
  · rename_i he
    rw [show s.exponent.toNat = 0 by omega, pow_zero, mul_one_div]
    generalize (-s.exponent).toNat = places
    split
    · rename_i hplaces
      simp only [String.toList_append, String.toList_ofList, List.append_assoc]
      exact numeral_point hdigits hplaces
    · rename_i hplaces
      simp only [zeros, String.toList_append, String.toList_ofList, List.append_assoc]
      exact numeral_padded hdigits (Nat.le_of_not_lt hplaces)

/-- A whole number is its absolute value but for the sign. -/
theorem whole?_eq_some {negative : Bool} {m n : Nat} {e : Int}
    (h : (Binary.finite negative m e).whole? = some n) : (m : ℚ) * 2 ^ e = n := by
  replace h : (if 0 ≤ e then some (m * pow2 e.toNat)
      else if m % pow2 (-e).toNat = 0 then some (m / pow2 (-e).toNat) else none) = some n := h
  rw [zpow_eq_div (by norm_num) e]
  split at h
  · rename_i he
    cases h
    rw [show (-e).toNat = 0 by omega, pow2_eq]
    push_cast
    ring
  · rename_i he
    split at h
    · rename_i hmod
      cases h
      rw [pow2_eq] at hmod ⊢
      rw [show e.toNat = 0 by omega, pow_zero, ← mul_div_assoc, mul_one,
        Nat.cast_div (Nat.dvd_of_mod_eq_zero hmod) (by positivity)]
      push_cast
      rfl
    · cases h

/-- The text of a finite double is a numeral that rounds to it, with a minus in front if the double is
negative. -/
theorem pointed_render {x : Float} {negative : Bool} {m : Nat} {e : Int}
    (h : Binary.ofFloat x = .finite negative m e) :
    ∃ body, (pointed.render x).toList = (if negative then ['-'] else []) ++ body ∧ IsNumeral body
      ∧ Rounds m e (numeralValue body) := by
  have hsign : (if negative then "-" else "").toList = if negative then ['-'] else [] := by
    split <;> rfl
  unfold Format.render
  simp only [h]
  split
  · rename_i n hn
    have hdigits := isDigit_toDigits n
    have hzero : ∀ c ∈ ['0'], c.isDigit = true := by simp
    refine ⟨Nat.toDigits 10 n ++ '.' :: ['0'], ?_, isNumeral_pointed hdigits hzero, ?_⟩
    · rw [if_pos (show pointed.wholeBelow.all (n < ·) = true from rfl), String.toList_append,
        String.toList_append, hsign, List.append_assoc, digitsOf, String.toList_ofList]
      rfl
    · have hvalue : Nat.ofDigitChars 10 (Nat.toDigits 10 n ++ ['0']) 0 = 10 * n := by
        rw [Nat.ofDigitChars_append, Nat.ofDigitChars_ten_toDigits]
        rfl
      have hself := rounds_self m e
      rw [whole?_eq_some hn] at hself
      rw [numeralValue_pointed hdigits hzero, hvalue]
      convert hself using 1
      push_cast
      rw [List.length_singleton, pow_one]
      ring
  · obtain ⟨hnumeral, hvalue⟩ := numeral_positional (shortest m e .away)
    refine ⟨_, ?_, hnumeral, ?_⟩
    · rw [String.toList_append, hsign]
    · rw [hvalue]
      exact rounds_shortest (Binary.normal_of_ofFloat h) .away

/-- The double is finite. -/
def IsFinite (x : Float) : Prop :=
  ∃ negative m e, Binary.ofFloat x = .finite negative m e

instance (x : Float) : Decidable (IsFinite x) :=
  match h : Binary.ofFloat x with
  | .finite negative m e => isTrue ⟨negative, m, e, h⟩
  | .nan | .infinite _ => isFalse fun ⟨_, _, _, hx⟩ => Binary.noConfusion (h.symm.trans hx)

theorem not_minus_of_isNumeral {body body' : List Char} (h : IsNumeral body) :
    body ≠ '-' :: body' := by
  rintro rfl
  rcases h.2 '-' List.mem_cons_self with h | h <;> cases h

/-- Different finite doubles have different texts. -/
theorem pointed_injective {x y : Float} (hx : IsFinite x) (hy : IsFinite y)
    (h : pointed.render x = pointed.render y) : x = y := by
  obtain ⟨negative, m, e, hx⟩ := hx
  obtain ⟨negative', m', e', hy⟩ := hy
  obtain ⟨body, htext, hnumeral, hrounds⟩ := pointed_render hx
  obtain ⟨body', htext', hnumeral', hrounds'⟩ := pointed_render hy
  rw [h, htext'] at htext
  -- A minus is not part of a numeral, so that the two signs are the same.
  obtain ⟨rfl, rfl⟩ : negative = negative' ∧ body = body' := by
    cases negative <;> cases negative'
    · exact ⟨rfl, htext.symm⟩
    · exact absurd htext.symm (not_minus_of_isNumeral hnumeral)
    · exact absurd htext (not_minus_of_isNumeral hnumeral')
    · exact ⟨rfl, (List.cons.inj htext.symm).2⟩
  obtain ⟨rfl, rfl⟩ :=
    hrounds.unique hrounds' (Binary.normal_of_ofFloat hx) (Binary.normal_of_ofFloat hy)
  exact Binary.eq_of_ofFloat hx hy

end Lox.Decimal
