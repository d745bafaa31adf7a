import Lox.Decimal.Binary
import Mathlib.Algebra.Order.Field.Power
import Mathlib.Algebra.Order.Field.Rat
import Mathlib.Tactic.Linarith
import Mathlib.Tactic.NormNum
import Mathlib.Tactic.Positivity
import Mathlib.Tactic.Ring

/-!
The numbers that round to a double. They lie between the two points half way to its neighbours, which
belong to them if the mantissa is even (`Rounds`). No number rounds to two doubles (`Rounds.unique`), and
a double that is finite is told by its sign, its mantissa and its exponent (`Binary.eq_of_ofFloat`).
-/

namespace Lox.Decimal

/-! ### Doubles -/

/-- The mantissa and the exponent are those of a double: it has 53 bits, or fewer if the exponent is the
least one. -/
structure Binary.Normal (mantissa : Nat) (exponent : Int) : Prop where
  mantissa_lt : mantissa < 2 ^ 53
  least : leastExponent ≤ exponent
  full : exponent = leastExponent ∨ 2 ^ 52 ≤ mantissa

/-- The bits of a double that is finite: its fraction, its field of the exponent and its sign. -/
theorem Binary.bits_of_ofFloat {x : Float} {negative : Bool} {mantissa : Nat} {exponent : Int}
    (h : ofFloat x = .finite negative mantissa exponent) :
    ∃ field fraction : Nat, fraction < 2 ^ 52 ∧ field < 2047
      ∧ x.toBits.toNat = (if negative then 2 ^ 63 else 0) + field * 2 ^ 52 + fraction
      ∧ (field = 0 ∧ mantissa = fraction ∧ exponent = leastExponent
        ∨ field ≠ 0 ∧ mantissa = 2 ^ 52 + fraction
          ∧ exponent = leastExponent + ((field - 1 : Nat) : Int)) := by
  have hlt : x.toBits.toNat < 2 ^ 64 := x.toBits.toNat_lt
  have h63 : pow2 63 = 2 ^ 63 := rfl
  have h52 : pow2 52 = 2 ^ 52 := rfl
  have h11 : pow2 11 = 2 ^ 11 := rfl
  unfold ofFloat at h
  simp only [h63, h52, h11] at h
  generalize x.toBits.toNat = bits at h hlt ⊢
  have hsign {b : Bool} (hb : (bits / 2 ^ 63 == 1) = b) :
      bits = (if b then 2 ^ 63 else 0) + bits / 2 ^ 52 % 2 ^ 11 * 2 ^ 52 + bits % 2 ^ 52 := by
    subst hb
    by_cases hone : bits / 2 ^ 63 = 1
    · simp only [hone, beq_self_eq_true, if_true]
      omega
    · simp only [beq_eq_false_iff_ne.2 hone, Bool.false_eq_true, if_false]
      omega
  split at h
  · split at h <;> cases h
  · rename_i hfield
    refine ⟨bits / 2 ^ 52 % 2 ^ 11, bits % 2 ^ 52, Nat.mod_lt _ (by decide), by omega, ?_⟩
    split at h
    · rename_i hzero
      cases h
      exact ⟨hsign rfl, .inl ⟨hzero, rfl, rfl⟩⟩
    · rename_i hzero
      cases h
      exact ⟨hsign rfl, .inr ⟨hzero, rfl, rfl⟩⟩

theorem Binary.normal_of_ofFloat {x : Float} {negative : Bool} {mantissa : Nat} {exponent : Int}
    (h : ofFloat x = .finite negative mantissa exponent) : Normal mantissa exponent := by
  obtain ⟨field, fraction, hfraction, -, -, ⟨-, rfl, rfl⟩ | ⟨-, rfl, rfl⟩⟩ := bits_of_ofFloat h
  · exact ⟨by omega, Int.le_refl _, .inl rfl⟩
  · exact ⟨by omega, by omega, .inr (by omega)⟩

/-- A finite double is told by its sign, its mantissa and its exponent. -/
theorem Binary.eq_of_ofFloat {x y : Float} {negative : Bool} {mantissa : Nat} {exponent : Int}
    (hx : ofFloat x = .finite negative mantissa exponent)
    (hy : ofFloat y = .finite negative mantissa exponent) : x = y := by
  obtain ⟨field, fraction, hfraction, -, hbits, hcases⟩ := bits_of_ofFloat hx
  obtain ⟨field', fraction', hfraction', -, hbits', hcases'⟩ := bits_of_ofFloat hy
  have hsame : x.toBits = y.toBits := by
    rw [← UInt64.toNat_inj, hbits, hbits']
    omega
  obtain ⟨⟨_, _⟩⟩ := x
  obtain ⟨⟨_, _⟩⟩ := y
  obtain rfl : _ = _ := hsame
  rfl

/-! ### Rounding -/

section

variable (mantissa : Nat) (exponent : Int)

/-- The doubles below `mantissa * 2 ^ exponent` are twice as near as those above. -/
abbrev Narrow : Prop :=
  mantissa = 2 ^ 52 ∧ Binary.leastExponent < exponent

/-- The point half way down to the next double. -/
def lowEnd : ℚ :=
  (mantissa - if Narrow mantissa exponent then 1 / 4 else 1 / 2) * 2 ^ exponent

/-- The point half way up to the next double. -/
def highEnd : ℚ :=
  (mantissa + 1 / 2) * 2 ^ exponent

/-- The number rounds to the double `mantissa * 2 ^ exponent`. -/
def Rounds (q : ℚ) : Prop :=
  (lowEnd mantissa exponent < q ∨ mantissa % 2 = 0 ∧ lowEnd mantissa exponent = q)
    ∧ (q < highEnd mantissa exponent ∨ mantissa % 2 = 0 ∧ q = highEnd mantissa exponent)

theorem two_zpow_pos : (0 : ℚ) < 2 ^ exponent := by
  positivity

theorem lowEnd_lt : lowEnd mantissa exponent < mantissa * 2 ^ exponent := by
  refine mul_lt_mul_of_pos_right ?_ (two_zpow_pos exponent)
  split <;> linarith

theorem lt_highEnd : mantissa * 2 ^ exponent < highEnd mantissa exponent :=
  mul_lt_mul_of_pos_right (by linarith) (two_zpow_pos exponent)

/-- A double rounds to itself. -/
theorem rounds_self : Rounds mantissa exponent (mantissa * 2 ^ exponent) :=
  ⟨.inl (lowEnd_lt mantissa exponent), .inl (lt_highEnd mantissa exponent)⟩

/-- Half way down is not further than half a unit of the last place. -/
theorem le_lowEnd : (mantissa - 1 / 2) * 2 ^ exponent ≤ lowEnd mantissa exponent := by
  refine mul_le_mul_of_nonneg_right ?_ (two_zpow_pos exponent).le
  split <;> linarith

end

namespace Rounds

variable {m m' : Nat} {e e' : Int} {q : ℚ}

theorem low_le (h : Rounds m e q) : lowEnd m e ≤ q :=
  h.1.elim le_of_lt fun h => h.2.le

theorem le_high (h : Rounds m e q) : q ≤ highEnd m e :=
  h.2.elim le_of_lt fun h => h.2.le

/-- What rounds to a double is below what rounds to a greater one of the same exponent. -/
theorem ne_of_lt (h : Rounds m e q) (hlt : m < m') : ¬ Rounds m' e q := by
  intro h'
  have hpos := two_zpow_pos e
  have hmid : highEnd m e ≤ (m' - 1 / 2 : ℚ) * 2 ^ e := by
    refine mul_le_mul_of_nonneg_right ?_ hpos.le
    have hcast : (m : ℚ) + 1 ≤ m' := by exact_mod_cast hlt
    linarith
  have hlow := le_lowEnd m' e
  have hle := h.le_high
  have hge := h'.low_le
  -- Both ends are the same point, which belongs to the even one of the two alone.
  have hq : q = highEnd m e := by linarith
  have hends : (m' - 1 / 2 : ℚ) * 2 ^ e = (m + 1 / 2) * 2 ^ e := by
    show _ = highEnd m e
    linarith
  have hnext : (m' : ℚ) = (m + 1 : Nat) := by
    have hcancel := mul_right_cancel₀ hpos.ne' hends
    push_cast
    linarith
  have hm' : m' = m + 1 := by exact_mod_cast hnext
  have heven : m % 2 = 0 := h.2.elim (fun hlt => absurd hq hlt.ne) And.left
  have heven' : m' % 2 = 0 := by
    refine h'.1.elim (fun hlt => ?_) And.left
    linarith
  omega

/-- What rounds to a double is below what rounds to one of a greater exponent. -/
theorem ne_of_exponent_lt (h : Rounds m e q) (hm : Binary.Normal m e) (hm' : Binary.Normal m' e')
    (hlt : e < e') : ¬ Rounds m' e' q := by
  intro h'
  have hpos := two_zpow_pos e
  have hleast : Binary.leastExponent < e' := Int.lt_of_le_of_lt hm.least hlt
  have hfull : 2 ^ 52 ≤ m' := hm'.full.resolve_left hleast.ne'
  have hpow : (2 : ℚ) * 2 ^ e ≤ 2 ^ e' := by
    rw [← zpow_one_add₀ (by norm_num : (2 : ℚ) ≠ 0)]
    exact zpow_le_zpow_right₀ (by norm_num) (by omega)
  have hlow : (2 ^ 52 - 1 / 4 : ℚ) ≤ m' - if Narrow m' e' then 1 / 4 else 1 / 2 := by
    split
    · rename_i hnarrow
      rw [hnarrow.1]
      norm_num
    · rename_i hnarrow
      have hne : m' ≠ 2 ^ 52 := fun he => hnarrow ⟨he, hleast⟩
      have hcast : ((2 ^ 52 + 1 : Nat) : ℚ) ≤ m' := by exact_mod_cast (by omega : 2 ^ 52 + 1 ≤ m')
      push_cast at hcast
      linarith
  have hge : (2 ^ 53 - 1 / 2 : ℚ) * 2 ^ e ≤ q := by
    calc (2 ^ 53 - 1 / 2 : ℚ) * 2 ^ e = (2 ^ 52 - 1 / 4) * (2 * 2 ^ e) := by ring
      _ ≤ (2 ^ 52 - 1 / 4) * 2 ^ e' := mul_le_mul_of_nonneg_left hpow (by norm_num)
      _ ≤ lowEnd m' e' := mul_le_mul_of_nonneg_right hlow (two_zpow_pos e').le
      _ ≤ q := h'.low_le
  have hcast : (m : ℚ) ≤ 2 ^ 53 - 1 := by
    have hlt := hm.mantissa_lt
    have hle : ((m + 1 : Nat) : ℚ) ≤ ((2 ^ 53 : Nat) : ℚ) := by exact_mod_cast hlt
    push_cast at hle
    linarith
  have hle : highEnd m e ≤ (2 ^ 53 - 1 / 2 : ℚ) * 2 ^ e :=
    mul_le_mul_of_nonneg_right (by linarith) hpos.le
  -- The number is the upper end of the greatest mantissa, which is odd.
  have hq : q = highEnd m e := le_antisymm h.le_high (by linarith)
  have heven : m % 2 = 0 := h.2.elim (fun hlt => absurd hq hlt.ne) And.left
  have hends : (m + 1 / 2 : ℚ) * 2 ^ e = (2 ^ 53 - 1 / 2) * 2 ^ e := by
    show highEnd m e = _
    linarith
  have hodd : (m : ℚ) = (2 ^ 53 - 1 : Nat) := by
    have hcancel := mul_right_cancel₀ hpos.ne' hends
    push_cast
    linarith
  have hm : m = 2 ^ 53 - 1 := by exact_mod_cast hodd
  omega

/-- No number rounds to two doubles. -/
theorem unique (h : Rounds m e q) (h' : Rounds m' e' q) (hm : Binary.Normal m e)
    (hm' : Binary.Normal m' e') : m = m' ∧ e = e' := by
  rcases Int.lt_trichotomy e e' with hlt | rfl | hlt
  · exact absurd h' (h.ne_of_exponent_lt hm hm' hlt)
  · rcases Nat.lt_trichotomy m m' with hlt | rfl | hlt
    · exact absurd h' (h.ne_of_lt hlt)
    · exact ⟨rfl, rfl⟩
    · exact absurd h (h'.ne_of_lt hlt)
  · exact absurd h (h'.ne_of_exponent_lt hm' hm hlt)

end Rounds

end Lox.Decimal
