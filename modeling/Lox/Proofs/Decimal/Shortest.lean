import Lox.Decimal.Shortest
import Lox.Proofs.Decimal.Rounding
import Mathlib.Data.Nat.Cast.Order.Field
import Mathlib.Tactic.FieldSimp

/-!
The shortest decimal of a double rounds to it (`rounds_shortest`). A point of a grid that `onGrid?` gives
does, since it has been compared with the two ends; and the seventeenth grid has one, since its points are
nearer to each other than the two ends are.
-/

namespace Lox.Decimal

/-- The value of a decimal. -/
def Scaled.value (s : Scaled) : ℚ :=
  s.digits * 10 ^ s.exponent

theorem pow2_eq (n : Nat) : pow2 n = 2 ^ n := rfl

theorem pow10_eq (n : Nat) : pow10 n = 10 ^ n := rfl

theorem pow2_pos (n : Nat) : 0 < pow2 n := Nat.pow_pos (by decide)

theorem pow10_pos (n : Nat) : 0 < pow10 n := Nat.pow_pos (by decide)

/-! ### Points of a grid -/

section

variable {m : Nat} {e grid : Int} {tie : Tie} {d : Nat}

/-- A power with an exponent of any sign is a quotient of two powers with natural exponents. -/
theorem zpow_eq_div {b : ℚ} (hb : b ≠ 0) (e : Int) :
    b ^ e = b ^ e.toNat / b ^ (-e).toNat := by
  rw [eq_div_iff (pow_ne_zero _ hb), ← zpow_natCast, ← zpow_natCast, ← zpow_add₀ hb]
  congr 1
  omega

/-- The value of a double is a quotient of two natural numbers. -/
theorem value_eq_div (m : Nat) (e : Int) :
    (m : ℚ) * 2 ^ e = ((m * pow2 e.toNat : Nat) : ℚ) / ((pow2 (-e).toNat : Nat) : ℚ) := by
  rw [zpow_eq_div (by norm_num) e, pow2_eq, pow2_eq]
  push_cast
  ring

/-- What lengths are counted in: a quarter of the last place of the double and a step of the grid are
natural multiples of it. -/
def gridUnit (e grid : Int) : ℚ :=
  2 ^ (2 - e).toNat * 10 ^ (-grid).toNat

theorem gridUnit_pos (e grid : Int) : 0 < gridUnit e grid := by
  unfold gridUnit
  positivity

theorem quarter_eq (e grid : Int) :
    ((pow2 (e - 2).toNat * pow10 (-grid).toNat : Nat) : ℚ) = 2 ^ e / 4 * gridUnit e grid := by
  have hquarter : (2 : ℚ) ^ e / 4 = 2 ^ (e - 2) := by
    rw [zpow_sub₀ (by norm_num)]
    norm_num
  rw [hquarter, zpow_eq_div (by norm_num) (e - 2), gridUnit, neg_sub, pow2_eq, pow10_eq]
  push_cast
  field_simp

theorem step_eq (e grid : Int) :
    ((pow10 grid.toNat * pow2 (2 - e).toNat : Nat) : ℚ) = 10 ^ grid * gridUnit e grid := by
  rw [zpow_eq_div (by norm_num) grid, gridUnit, pow2_eq, pow10_eq]
  push_cast
  field_simp

/-- A point that has been compared with both ends rounds to the double. -/
theorem rounds_of_compared {quarter step point : Nat}
    (hquarter : (quarter : ℚ) = 2 ^ e / 4 * gridUnit e grid)
    (hstep : (step : ℚ) = 10 ^ grid * gridUnit e grid) (hm : 0 < m)
    (hlow : 4 * m * quarter - (if Narrow m e then 1 else 2) * quarter < point * step
      ∨ m % 2 = 0 ∧ 4 * m * quarter - (if Narrow m e then 1 else 2) * quarter = point * step)
    (hhigh : point * step < 4 * m * quarter + 2 * quarter
      ∨ m % 2 = 0 ∧ point * step = 4 * m * quarter + 2 * quarter) :
    Rounds m e (point * 10 ^ grid) := by
  have hunit := gridUnit_pos e grid
  have hpoint : ((point * step : Nat) : ℚ) = point * 10 ^ grid * gridUnit e grid := by
    push_cast
    rw [hstep]
    ring
  have hhighEnd : ((4 * m * quarter + 2 * quarter : Nat) : ℚ) = highEnd m e * gridUnit e grid := by
    push_cast
    rw [hquarter, highEnd]
    ring
  have hlowEnd : ((4 * m * quarter - (if Narrow m e then 1 else 2) * quarter : Nat) : ℚ)
      = lowEnd m e * gridUnit e grid := by
    have hle : (if Narrow m e then 1 else 2) * quarter ≤ 4 * m * quarter :=
      Nat.mul_le_mul_right _ (by split <;> omega)
    rw [Nat.cast_sub hle]
    push_cast
    rw [hquarter, lowEnd]
    split <;> ring
  constructor
  · refine hlow.imp (fun h => ?_) (And.imp_right fun h => ?_)
    · have hcast : ((4 * m * quarter - (if Narrow m e then 1 else 2) * quarter : Nat) : ℚ)
          < ((point * step : Nat) : ℚ) := by exact_mod_cast h
      rw [hlowEnd, hpoint] at hcast
      exact lt_of_mul_lt_mul_right hcast hunit.le
    · rw [h] at hlowEnd
      exact mul_right_cancel₀ hunit.ne' (hlowEnd.symm.trans hpoint)
  · refine hhigh.imp (fun h => ?_) (And.imp_right fun h => ?_)
    · have hcast : ((point * step : Nat) : ℚ)
          < ((4 * m * quarter + 2 * quarter : Nat) : ℚ) := by exact_mod_cast h
      rw [hhighEnd, hpoint] at hcast
      exact lt_of_mul_lt_mul_right hcast hunit.le
    · rw [h] at hpoint
      exact mul_right_cancel₀ hunit.ne' (hpoint.symm.trans hhighEnd)

/-- The point that is chosen on a grid is one of the two neighbours of the double, and it has been
compared with the end on its side; one of the two is chosen if the points of the grid are near enough to
each other. -/
theorem onGrid?_cases (m : Nat) (e : Int) (tie : Tie) (grid : Int) :
    let quarter := pow2 (e - 2).toNat * pow10 (-grid).toNat
    let step := pow10 grid.toNat * pow2 (2 - e).toNat
    let value := 4 * m * quarter
    let low := value - (if Narrow m e then 1 else 2) * quarter
    let high := value + 2 * quarter
    let belowFits := low < value / step * step ∨ m % 2 = 0 ∧ low = value / step * step
    let aboveFits := (value / step + 1) * step < high ∨ m % 2 = 0 ∧ (value / step + 1) * step = high
    onGrid? m e tie grid = some (value / step) ∧ belowFits
      ∨ onGrid? m e tie grid = some (value / step + 1) ∧ aboveFits
      ∨ onGrid? m e tie grid = none ∧ ¬ belowFits ∧ ¬ aboveFits := by
  intro quarter step value low high belowFits aboveFits
  generalize hgrid : onGrid? m e tie grid = result
  -- what is chosen if both are equally near is looked at only where it is
  change (if belowFits then
      if aboveFits then
        if value - value / step * step < (value / step + 1) * step - value then some (value / step)
        else if (value / step + 1) * step - value < value - value / step * step then
          some (value / step + 1)
        else _
      else some (value / step)
    else if aboveFits then some (value / step + 1)
    else none) = result at hgrid
  rw [← hgrid]
  by_cases hbelow : belowFits
  · by_cases habove : aboveFits
    · rw [if_pos hbelow, if_pos habove]
      split
      · exact .inl ⟨rfl, hbelow⟩
      split
      · exact .inr (.inl ⟨rfl, habove⟩)
      cases tie with
      | away => exact .inr (.inl ⟨rfl, habove⟩)
      | even =>
        dsimp only
        split
        · exact .inl ⟨rfl, hbelow⟩
        · exact .inr (.inl ⟨rfl, habove⟩)
    · rw [if_pos hbelow, if_neg habove]
      exact .inl ⟨rfl, hbelow⟩
  · by_cases habove : aboveFits
    · rw [if_neg hbelow, if_pos habove]
      exact .inr (.inl ⟨rfl, habove⟩)
    · rw [if_neg hbelow, if_neg habove]
      exact .inr (.inr ⟨rfl, hbelow, habove⟩)

/-- The point that is chosen on a grid rounds to the double. -/
theorem rounds_of_onGrid? (hm : 0 < m) (h : onGrid? m e tie grid = some d) :
    Rounds m e (d * 10 ^ grid) := by
  have hcases := onGrid?_cases m e tie grid
  have hquarter := quarter_eq e grid
  have hstep := step_eq e grid
  dsimp only at hcases
  have hquarter_pos : 0 < pow2 (e - 2).toNat * pow10 (-grid).toNat :=
    Nat.mul_pos (pow2_pos _) (pow10_pos _)
  have hstep_pos : 0 < pow10 grid.toNat * pow2 (2 - e).toNat :=
    Nat.mul_pos (pow10_pos _) (pow2_pos _)
  generalize pow2 (e - 2).toNat * pow10 (-grid).toNat = quarter at hcases hquarter hquarter_pos
  generalize pow10 grid.toNat * pow2 (2 - e).toNat = step at hcases hstep hstep_pos
  have hbelow : 4 * m * quarter / step * step ≤ 4 * m * quarter := Nat.div_mul_le_self _ _
  have habove : 4 * m * quarter < (4 * m * quarter / step + 1) * step := by
    rw [Nat.add_one_mul (4 * m * quarter / step)]
    exact Nat.lt_div_mul_add hstep_pos
  have hvalue : quarter ≤ 4 * m * quarter := Nat.le_mul_of_pos_left quarter (by omega)
  refine rounds_of_compared hquarter hstep hm ?_ ?_
  all_goals
    rw [h] at hcases
    rcases hcases with ⟨hd, hfits⟩ | ⟨hd, hfits⟩ | ⟨hd, -⟩
    · cases hd
      first | exact hfits | exact .inl (by omega)
    · cases hd
      first | exact hfits | exact .inl (by split <;> omega)
    · cases hd

/-- A grid whose points are near enough to each other has one. -/
theorem onGrid?_ne_none (hm : Binary.Normal m e)
    (h : 10 ^ 16 * (10 : ℚ) ^ grid ≤ m * 2 ^ e) : onGrid? m e tie grid ≠ none := by
  intro hnone
  have hcases := onGrid?_cases m e tie grid
  have hquarter := quarter_eq e grid
  have hstep := step_eq e grid
  have hstep_pos : 0 < pow10 grid.toNat * pow2 (2 - e).toNat :=
    Nat.mul_pos (pow10_pos _) (pow2_pos _)
  dsimp only at hcases
  generalize pow2 (e - 2).toNat * pow10 (-grid).toNat = quarter at hcases hquarter
  generalize pow10 grid.toNat * pow2 (2 - e).toNat = step at hcases hstep hstep_pos
  have hfine : 10 ^ 16 * step ≤ 4 * m * quarter := by
    have hscaled := mul_le_mul_of_nonneg_right h (gridUnit_pos e grid).le
    rw [mul_assoc, ← hstep, mul_assoc, show (2 : ℚ) ^ e * gridUnit e grid = 4 * quarter by
      rw [hquarter]; ring] at hscaled
    have hcast : ((10 ^ 16 * step : Nat) : ℚ) ≤ ((m * (4 * quarter) : Nat) : ℚ) := by
      push_cast
      exact hscaled
    calc 10 ^ 16 * step ≤ m * (4 * quarter) := by exact_mod_cast hcast
      _ = 4 * m * quarter := by ring
  rw [hnone] at hcases
  obtain ⟨hd, -⟩ | ⟨hd, -⟩ | ⟨-, hbelow, habove⟩ := hcases
  · cases hd
  · cases hd
  rw [Nat.add_one_mul (4 * m * quarter / step)] at habove
  generalize 4 * m * quarter / step * step = point at hbelow habove
  -- Two neighbours outside of the two ends are three quarters of the last place apart, or four.
  split at hbelow
  · rename_i hnarrow
    rw [hnarrow.1] at hbelow habove hfine
    omega
  · have hmantissa : 4 * m * quarter ≤ 4 * (2 ^ 53 - 1) * quarter :=
      Nat.mul_le_mul_right _ (Nat.mul_le_mul_left 4 (Nat.le_sub_one_of_lt hm.mantissa_lt))
    omega

end

/-! ### The search -/

theorem lt_pow_digitCount (n : Nat) : n < 10 ^ digitCount n :=
  (Nat.length_toDigits_le_iff (by decide) Nat.length_toDigits_pos).1 (Nat.le_refl _)

theorem pow_digitCount_le {n : Nat} (hn : 0 < n) : 10 ^ (digitCount n - 1) ≤ n := by
  by_cases hone : digitCount n - 1 = 0
  · rw [hone]
    exact hn
  · refine Nat.le_of_not_lt fun hlt => ?_
    have hle := (Nat.length_toDigits_le_iff (by decide) (Nat.pos_of_ne_zero hone)).2 hlt
    have hcount : (Nat.toDigits 10 n).length = digitCount n := rfl
    omega

section

variable {m : Nat} {e : Int} {tie : Tie}

/-- A double is not less than the power of ten of its first digit. -/
theorem zpow_leadingExponent_le (hm : 0 < m) : (10 : ℚ) ^ leadingExponent m e ≤ m * 2 ^ e := by
  have hnumerator : 0 < m * pow2 e.toNat := Nat.mul_pos hm (pow2_pos _)
  have hdenominator : 0 < pow2 (-e).toNat := pow2_pos _
  rw [value_eq_div]
  unfold leadingExponent
  generalize m * pow2 e.toNat = numerator at hnumerator ⊢
  generalize pow2 (-e).toNat = denominator at hdenominator ⊢
  dsimp only
  split
  · rename_i hle
    have hcount : 0 < digitCount (numerator / denominator) := Nat.length_toDigits_pos
    have hexponent : ((digitCount (numerator / denominator) : Int) - 1)
        = ((digitCount (numerator / denominator) - 1 : Nat) : Int) := by omega
    have hpow := pow_digitCount_le (Nat.div_pos hle hdenominator)
    rw [hexponent, zpow_natCast]
    calc (10 : ℚ) ^ (digitCount (numerator / denominator) - 1)
        ≤ ((numerator / denominator : Nat) : ℚ) := by exact_mod_cast hpow
      _ ≤ (numerator : ℚ) / denominator := Nat.cast_div_le
  · have hpow := lt_pow_digitCount ((denominator - 1) / numerator)
    rw [Nat.div_lt_iff_lt_mul hnumerator] at hpow
    have hle : denominator ≤ 10 ^ digitCount ((denominator - 1) / numerator) * numerator := by
      omega
    have hcast : (denominator : ℚ)
        ≤ 10 ^ digitCount ((denominator - 1) / numerator) * numerator := by exact_mod_cast hle
    rw [zpow_neg, zpow_natCast, inv_eq_one_div, div_le_div_iff₀ (by positivity) (by positivity)]
    linarith

/-- A search that reaches a grid with a point gives a decimal that rounds to the double. -/
theorem rounds_searchGrids (hm : 0 < m) {grid : Int} {more : Nat}
    (h : onGrid? m e tie (grid - more) ≠ none) :
    Rounds m e (searchGrids m e tie grid more).value := by
  induction more generalizing grid with
  | zero =>
    obtain ⟨d, hd⟩ := Option.ne_none_iff_exists'.1 h
    rw [Nat.cast_zero, sub_zero] at hd
    rw [searchGrids, hd]
    exact rounds_of_onGrid? hm hd
  | succ more ih =>
    rw [searchGrids]
    split
    · rename_i d hd
      exact rounds_of_onGrid? hm hd
    · refine ih ?_
      rwa [show grid - 1 - (more : Int) = grid - (more + 1 : Nat) by push_cast; ring]

/-- The zeros at the end of the digits of a number are factors of ten. -/
theorem pow_dvd_of_zeros {n k : Nat}
    (hk : k ≤ ((Nat.toDigits 10 n).reverse.takeWhile (· = '0')).length) : 10 ^ k ∣ n := by
  have hdigit : ∀ d < 10, Nat.digitChar d = '0' → d = 0 := by decide
  induction k generalizing n with
  | zero => exact one_dvd n
  | succ k ih =>
    by_cases hn : n < 10
    · rw [Nat.toDigits_of_lt_base hn, List.reverse_singleton, List.takeWhile_cons] at hk
      split at hk
      · rename_i hzero
        rw [hdigit n hn (of_decide_eq_true hzero)]
        exact dvd_zero _
      · cases hk
    · rw [Nat.toDigits_of_base_le (by decide) (Nat.le_of_not_lt hn), List.reverse_append,
        List.reverse_singleton, List.singleton_append, List.takeWhile_cons] at hk
      split at hk
      · rename_i hzero
        have hlast := hdigit (n % 10) (Nat.mod_lt n (by decide)) (of_decide_eq_true hzero)
        have hrest := ih (Nat.le_of_succ_le_succ hk)
        rw [pow_succ, mul_comm, ← Nat.div_add_mod n 10, hlast, Nat.add_zero]
        exact Nat.mul_dvd_mul_left 10 hrest
      · cases hk

theorem value_trim (s : Scaled) : s.trim.value = s.value := by
  unfold Scaled.trim
  dsimp only
  split
  · rfl
  · obtain ⟨c, hc⟩ := pow_dvd_of_zeros (n := s.digits) (Nat.le_refl _)
    generalize ((Nat.toDigits 10 s.digits).reverse.takeWhile (· = '0')).length = zeros at hc ⊢
    have hquotient : s.digits / pow10 zeros = c := by
      rw [hc]
      exact Nat.mul_div_cancel_left c (pow10_pos zeros)
    rw [Scaled.value, Scaled.value, hquotient, hc, zpow_add₀ (by norm_num), zpow_natCast]
    push_cast
    ring

/-- The shortest decimal of a double rounds to it. -/
theorem rounds_shortest (hm : Binary.Normal m e) (tie : Tie) :
    Rounds m e (shortest m e tie).value := by
  unfold shortest
  split
  · rename_i hzero
    have hself := rounds_self m e
    rw [hzero] at hself ⊢
    simpa [Scaled.value] using hself
  · rename_i hne
    have hpos : 0 < m := Nat.pos_of_ne_zero hne
    rw [value_trim]
    refine rounds_searchGrids hpos (onGrid?_ne_none hm ?_)
    rw [← zpow_natCast, ← zpow_add₀ (by norm_num : (10 : ℚ) ≠ 0),
      show ((16 : Nat) : Int) + (leadingExponent m e - (16 : Nat)) = leadingExponent m e by ring]
    exact zpow_leadingExponent_le hpos

end

end Lox.Decimal
