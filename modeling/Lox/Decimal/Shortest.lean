import Lox.Decimal.Binary

/-!
The shortest decimal that reads back: among the decimals in the interval of reals that round to a
double, one with the fewest digits, and of those the one nearest to the double. All is exact
arithmetic on natural numbers.

On the grid of the multiples of a power of ten only the two neighbours of the double need a look:
if any point of the grid lies in the interval, so does one of them.
-/

namespace Lox.Decimal

/-- The decimal number `digits * 10 ^ exponent`. -/
structure Scaled where
  digits : Nat
  exponent : Int
  deriving DecidableEq, Repr

/-- The neighbour that is chosen when a double lies half way between the two. -/
inductive Tie where
  /-- The one further from zero. -/
  | away
  /-- The one whose last digit is even. -/
  | even
  deriving DecidableEq, Repr

/-- The number of decimal digits of a natural number. -/
def digitCount (n : Nat) : Nat :=
  (Nat.toDigits 10 n).length

/-- The same number with no zero at the end of its digits. -/
def Scaled.trim (s : Scaled) : Scaled :=
  let zeros := ((Nat.toDigits 10 s.digits).reverse.takeWhile (· = '0')).length
  if s.digits = 0 then s else ⟨s.digits / pow10 zeros, s.exponent + zeros⟩

section

variable (mantissa : Nat) (exponent : Int)

/-- The exponent of the first digit of `mantissa * 2 ^ exponent`. -/
def leadingExponent : Int :=
  let numerator := mantissa * pow2 exponent.toNat
  let denominator := pow2 (-exponent).toNat
  if denominator ≤ numerator then digitCount (numerator / denominator) - 1
  else -(digitCount ((denominator - 1) / numerator) : Int)

/-- The point of the grid `10 ^ grid` chosen for `mantissa * 2 ^ exponent`, if one of the two
neighbours on it reads back.

Lengths are counted in quarters of the last place, brought to a common denominator: the interval
reaches two quarters to either side, one quarter down from a power of two, and its ends belong to
it when the mantissa is even. -/
def onGrid? (tie : Tie) (grid : Int) : Option Nat :=
  let quarter := pow2 (exponent - 2).toNat * pow10 (-grid).toNat
  let step := pow10 grid.toNat * pow2 (2 - exponent).toNat
  let value := 4 * mantissa * quarter
  let narrow := mantissa = pow2 52 ∧ Binary.leastExponent < exponent
  let low := value - (if narrow then 1 else 2) * quarter
  let high := value + 2 * quarter
  let closed := mantissa % 2 = 0
  let below := value / step
  let above := below + 1
  let belowFits := low < below * step ∨ closed ∧ low = below * step
  let aboveFits := above * step < high ∨ closed ∧ above * step = high
  let downward := value - below * step
  let upward := above * step - value
  if belowFits then
    if aboveFits then
      if downward < upward then some below
      else if upward < downward then some above
      else match tie with
        | .away => some above
        | .even => some (if below % 2 = 0 then below else above)
    else some below
  else if aboveFits then some above
  else none

/-- Tries grids from `10 ^ grid` on, each ten times as fine as the one before. -/
def searchGrids (tie : Tie) (grid : Int) : Nat → Scaled
  | 0 => ⟨(onGrid? mantissa exponent tie grid).getD 0, grid⟩
  | more + 1 =>
    match onGrid? mantissa exponent tie grid with
    | some digits => ⟨digits, grid⟩
    | none => searchGrids tie (grid - 1) more

/-- The shortest decimal that reads back as `mantissa * 2 ^ exponent`; seventeen digits are always
enough. -/
def shortest (tie : Tie) : Scaled :=
  if mantissa = 0 then ⟨0, 0⟩
  else (searchGrids mantissa exponent tie (leadingExponent mantissa exponent) 16).trim

end

example : shortest 1 (-1074) .away = ⟨5, -324⟩ := by decide +kernel
example : shortest (2 ^ 52) (-77) .away = ⟨29802322387695313, -24⟩ := by decide +kernel
example : shortest (2 ^ 52) (-77) .even = ⟨29802322387695312, -24⟩ := by decide +kernel

end Lox.Decimal
