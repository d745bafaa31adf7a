import Lox.Proofs.Decimal.Numerals
import Lox.Proofs.Decimal.Unsigned

/-!
Whole numbers written out. A double without a sign that is a whole number is written by its digits and the
suffix of the format (`render_whole`), or by its shortest decimal, which from ten to the sixteenth power on
has no point (`isDigit_shortest`).
-/

namespace Lox.Decimal

/-- A double whose value is a natural number is a whole number. -/
theorem whole?_of_value {negative : Bool} {m n : Nat} {e : Int} (h : (m : ℚ) * 2 ^ e = n) :
    (Binary.finite negative m e).whole? = some n := by
  have hnat : m * pow2 e.toNat = n * pow2 (-e).toNat := by
    have hne : ((pow2 (-e).toNat : Nat) : ℚ) ≠ 0 := by exact_mod_cast (pow2_pos _).ne'
    rw [value_eq_div, div_eq_iff hne] at h
    exact_mod_cast h
  show (if 0 ≤ e then some (m * pow2 e.toNat)
    else if m % pow2 (-e).toNat = 0 then some (m / pow2 (-e).toNat) else none) = some n
  by_cases he : 0 ≤ e
  · rw [if_pos he, hnat, show (-e).toNat = 0 by omega]
    simp [pow2]
  · rw [show e.toNat = 0 by omega] at hnat
    have hm : m = n * pow2 (-e).toNat := by simpa [pow2] using hnat
    rw [if_neg he, hm, Nat.mul_mod_left, if_pos rfl, Nat.mul_div_cancel n (pow2_pos _)]

/-- How a whole number without a sign is written. -/
theorem render_whole {x : Float} (hx : Unsigned x) {negative : Bool} {m n : Nat} {e : Int}
    (h : Binary.ofFloat x = .finite negative m e) (hn : (m : ℚ) * 2 ^ e = n) (f : Format) :
    f.render x = if f.wholeBelow.all (n < ·) then digitsOf n ++ f.wholeSuffix
      else (shortest m e .away).positional := by
  obtain rfl := hx.ofFloat h
  unfold Format.render
  simp only [h, whole?_of_value hn, Bool.false_eq_true, if_false, String.empty_append]

/-! ### Decimals without a point -/

/-- A decimal that is a natural number is written by digits alone. -/
theorem isDigit_positional {s : Scaled} (hs : 0 ≤ s.exponent) :
    ∀ c ∈ s.positional.toList, c.isDigit = true := by
  unfold Scaled.positional
  rw [if_pos hs, zeros, ← String.ofList_append, String.toList_ofList]
  exact List.forall_mem_append.2 ⟨isDigit_toDigits _, isDigit_zeros _⟩

section

variable {m : Nat} {e : Int}

/-- A double that is not less than a power of ten has its first digit there or further to the left. -/
theorem le_leadingExponent {k : Nat} (h : (10 : ℚ) ^ k ≤ m * 2 ^ e) :
    (k : Int) ≤ leadingExponent m e := by
  have hdenominator : 0 < pow2 (-e).toNat := pow2_pos _
  rw [value_eq_div, le_div_iff₀ (by exact_mod_cast hdenominator)] at h
  unfold leadingExponent
  generalize m * pow2 e.toNat = numerator at h ⊢
  generalize pow2 (-e).toNat = denominator at h hdenominator ⊢
  have hmul : 10 ^ k * denominator ≤ numerator := by exact_mod_cast h
  have hle : denominator ≤ numerator :=
    (Nat.le_mul_of_pos_left denominator (Nat.pow_pos (by decide))).trans hmul
  have hfloor : 10 ^ k ≤ numerator / denominator := (Nat.le_div_iff_mul_le hdenominator).2 hmul
  have hcount : k < digitCount (numerator / denominator) := by
    refine (Nat.pow_lt_pow_iff_right (by decide : 1 < 10)).1 ?_
    exact hfloor.trans_lt (lt_pow_digitCount _)
  dsimp only
  rw [if_pos hle]
  omega

/-- The search goes as far as it has grids. -/
theorem le_exponent_searchGrids (tie : Tie) (grid : Int) (more : Nat) :
    grid - more ≤ (searchGrids m e tie grid more).exponent := by
  induction more generalizing grid with
  | zero => simp [searchGrids]
  | succ more ih =>
    rw [searchGrids]
    split
    · push_cast
      omega
    · have hrest := ih (grid - 1)
      push_cast
      omega

/-- Without zeros at their end the digits stand further to the left. -/
theorem le_exponent_trim (s : Scaled) : s.exponent ≤ s.trim.exponent := by
  unfold Scaled.trim
  by_cases hzero : s.digits = 0
  · simp [hzero]
  · simp only [hzero, if_false]
    omega

/-- A double that is large enough has no point in its shortest decimal. -/
theorem isDigit_shortest (h : (10 : ℚ) ^ 16 ≤ m * 2 ^ e) (tie : Tie) :
    ∀ c ∈ (shortest m e tie).positional.toList, c.isDigit = true := by
  refine isDigit_positional ?_
  have hlead : ((16 : Nat) : Int) ≤ leadingExponent m e := le_leadingExponent h
  unfold shortest
  split
  · exact Int.le_refl 0
  · have hsearch := le_exponent_searchGrids (m := m) (e := e) tie (leadingExponent m e) 16
    have htrim := le_exponent_trim (searchGrids m e tie (leadingExponent m e) 16)
    omega

end

end Lox.Decimal
