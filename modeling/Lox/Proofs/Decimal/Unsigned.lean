import Lox.Decimal.Numeral
import Lox.Proofs.Decimal.Rounding

/-!
Doubles without a sign. What digits stand for is made of natural numbers by products and quotients, so
that its sign bit is never set (`unsigned_ofParts`).
-/

namespace Lox.Decimal

open Float.Model (Format UnpackedFloat)
open Float.Model.UnpackedFloat (Sign Accuracy)

/-- The sign bit of the double is not set. -/
def Unsigned (x : Float) : Prop :=
  x.toBits.toNat < 2 ^ 63

/-- A double without a sign is not negative. -/
theorem Unsigned.ofFloat {x : Float} (hx : Unsigned x) {negative : Bool} {mantissa : Nat}
    {exponent : Int} (h : Binary.ofFloat x = .finite negative mantissa exponent) :
    negative = false := by
  obtain ⟨field, fraction, -, -, hbits, -⟩ := Binary.bits_of_ofFloat h
  unfold Unsigned at hx
  cases negative with
  | false => rfl
  | true =>
    rw [if_pos rfl] at hbits
    omega

/-! ### Unpacked doubles -/

/-- The sign of an unpacked double is not a minus. -/
def Positive : UnpackedFloat → Prop
  | .infinity sign | .zero sign | .finite sign _ _ _ => sign = .positive
  | .notANumber => True

section

variable {c : Prop} [Decidable c]

theorem Positive.ite {u v : UnpackedFloat} (hu : Positive u) (hv : Positive v) :
    Positive (if c then u else v) := by
  by_cases h : c
  · rw [if_pos h]
    exact hu
  · rw [if_neg h]
    exact hv

theorem Positive.dite {u : c → UnpackedFloat} {v : ¬ c → UnpackedFloat} (hu : ∀ h, Positive (u h))
    (hv : ∀ h, Positive (v h)) : Positive (if h : c then u h else v h) := by
  by_cases h : c
  · rw [dif_pos h]
    exact hu h
  · rw [dif_neg h]
    exact hv h

end

/-- The first bit of what is packed with a plus is zero. -/
theorem toNat_packComponents_lt (exponent : BitVec 11) (mantissa : BitVec 52) :
    (UnpackedFloat.packComponents Format.binary64 .positive exponent mantissa).toNat < 2 ^ 63 := by
  have hmsb : (0#1 ++ exponent ++ mantissa).msb = false := by
    rw [BitVec.msb_append, BitVec.msb_append]
    rfl
  have hlt := BitVec.msb_eq_false_iff_two_mul_lt.1 hmsb
  show (0#1 ++ exponent ++ mantissa).toNat < 2 ^ 63
  omega

theorem Positive.toNat_pack {u : UnpackedFloat} (h : Positive u) :
    (UnpackedFloat.pack Format.binary64 u).toNat < 2 ^ 63 := by
  cases u with
  | notANumber => apply toNat_packComponents_lt
  | infinity sign =>
    obtain rfl : sign = .positive := h
    apply toNat_packComponents_lt
  | zero sign =>
    obtain rfl : sign = .positive := h
    apply toNat_packComponents_lt
  | finite sign mantissa exponent hm =>
    -- It is packed as an infinity if it is too large, and else as a normal or a subnormal double.
    obtain rfl : sign = .positive := h
    unfold UnpackedFloat.pack
    dsimp only
    split
    · apply toNat_packComponents_lt
    · split <;> apply toNat_packComponents_lt

theorem positive_unpack {b : BitVec 64} (h : b.toNat < 2 ^ 63) :
    Positive (UnpackedFloat.unpack Format.binary64 b) := by
  have hbit : @UnpackedFloat.unpackSign Format.binary64 b = 0#1 := by
    apply BitVec.eq_of_toNat_eq
    show (b.extractLsb 63 63).toNat = 0
    rw [BitVec.extractLsb_toNat, Nat.shiftRight_eq_div_pow]
    omega
  have hsign : Sign.ofBitVec (@UnpackedFloat.unpackSign Format.binary64 b) = .positive := by
    rw [hbit]
    rfl
  unfold UnpackedFloat.unpack
  dsimp only
  rw [hsign]
  apply Positive.ite
  · apply Positive.ite <;> trivial
  apply Positive.ite
  · apply Positive.dite <;> intro <;> rfl
  · rfl

/-! ### Arithmetic -/

theorem positive_roundWithAccuracy (mantissa : Nat) (exponent : Int) (accuracy : Accuracy) :
    Positive (UnpackedFloat.roundWithAccuracy Format.binary64 .positive mantissa exponent accuracy) := by
  unfold UnpackedFloat.roundWithAccuracy
  dsimp only
  apply Positive.dite <;> intro <;> rfl

/-- A product of two numbers without signs; only that of two finite numbers is rounded. -/
theorem Positive.mul {u v : UnpackedFloat} (hu : Positive u) (hv : Positive v) :
    Positive (UnpackedFloat.mul Format.binary64 u v) := by
  cases u with
  | notANumber => trivial
  | infinity sign => cases hu; cases v <;> cases hv <;> trivial
  | zero sign => cases hu; cases v <;> cases hv <;> trivial
  | finite sign mantissa exponent hm =>
    cases hu
    cases v with
    | finite sign' mantissa' exponent' hm' =>
      cases hv
      apply positive_roundWithAccuracy
    | notANumber | infinity | zero => cases hv; trivial

/-- A quotient of two numbers without signs. -/
theorem Positive.div {u v : UnpackedFloat} (hu : Positive u) (hv : Positive v) :
    Positive (UnpackedFloat.div Format.binary64 u v) := by
  cases u with
  | notANumber => trivial
  | infinity sign => cases hu; cases v <;> cases hv <;> trivial
  | zero sign => cases hu; cases v <;> cases hv <;> trivial
  | finite sign mantissa exponent hm =>
    cases hu
    cases v with
    | finite sign' mantissa' exponent' hm' =>
      cases hv
      apply positive_roundWithAccuracy
    | notANumber | infinity | zero => cases hv; trivial

theorem positive_ofNat (n : Nat) : Positive (UnpackedFloat.ofNat Format.binary64 n) := by
  unfold UnpackedFloat.ofNat UnpackedFloat.ofInt UnpackedFloat.normalize
  split
  · rename_i hlt
    have hneg : (n : Int) < 0 := compare_lt_iff_lt.1 hlt
    omega
  · rfl
  · apply positive_roundWithAccuracy

/-- The powers of ten have no sign, so that the product and the quotient have none. -/
theorem positive_ofScientific (digits : Nat) (exponent : Int) :
    Positive (UnpackedFloat.ofScientific Format.binary64 digits exponent) := by
  unfold UnpackedFloat.ofScientific
  apply Positive.dite
  · intro hzero
    rfl
  · intro hne
    apply Positive.ite
    · rfl
    apply Positive.ite
    · rfl
    apply Positive.ite
    · apply Positive.mul <;> rfl
    · apply Positive.div <;> rfl

/-! ### Doubles -/

section

variable {x y : Float}

theorem unsigned_mul (hx : Unsigned x) (hy : Unsigned y) : Unsigned (x * y) := by
  have hpositive := (positive_unpack hx).mul (positive_unpack hy)
  exact hpositive.toNat_pack

theorem unsigned_div (hx : Unsigned x) (hy : Unsigned y) : Unsigned (x / y) := by
  have hpositive := (positive_unpack hx).div (positive_unpack hy)
  exact hpositive.toNat_pack

end

theorem unsigned_powersOfTen :
    ∀ x ∈ Float.exactlyRepresentablePowersOfTen.toList, x.toBits.toNat < 2 ^ 63 := by
  decide +kernel

theorem unsigned_ofScientific (digits : Nat) (divided : Bool) (exponent : Nat) :
    Unsigned (Float.ofScientific digits divided exponent) := by
  unfold Float.ofScientific
  split
  · rename_i h
    have hlt : exponent < Float.exactlyRepresentablePowersOfTen.size := Nat.lt_succ_of_le h.2
    have hpower : Unsigned Float.exactlyRepresentablePowersOfTen[exponent] := by
      apply unsigned_powersOfTen
      exact Array.getElem_mem_toList hlt
    have hdigits : Unsigned digits.toUInt64.toFloat := (positive_ofNat _).toNat_pack
    dsimp only
    split
    · exact unsigned_div hdigits hpower
    · exact unsigned_mul hdigits hpower
  · exact (positive_ofScientific digits _).toNat_pack

/-- The double that is nearest to a decimal has no sign. -/
theorem unsigned_nearest (digits : Nat) (exponent : Int) : Unsigned (nearest digits exponent) := by
  have hzero : Unsigned 0 := unsigned_ofScientific 0 false 0
  have hone : Unsigned 1 := unsigned_ofScientific 1 false 0
  unfold nearest
  dsimp only
  split
  · exact hzero
  split
  · exact unsigned_div hone hzero
  split
  · exact hzero
  split <;> apply unsigned_ofScientific

/-- The double that digits stand for has no sign. -/
theorem unsigned_ofParts (whole fraction : List Char) (exponent : Int) :
    Unsigned (ofParts whole fraction exponent) := by
  apply unsigned_nearest

end Lox.Decimal
