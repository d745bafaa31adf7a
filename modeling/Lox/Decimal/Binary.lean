/-!
Doubles taken apart: a double is not a number, or an infinity, or a natural mantissa times a power
of two with a sign. A whole number is one whose value leaves no fraction.
-/

namespace Lox.Decimal

/-- A power of two. -/
def pow2 (n : Nat) : Nat := Nat.pow 2 n

/-- A power of ten. -/
def pow10 (n : Nat) : Nat := Nat.pow 10 n

/-- The value of a double. -/
inductive Binary where
  | nan
  | infinite (negative : Bool)
  /-- The number `mantissa * 2 ^ exponent`, with its sign. -/
  | finite (negative : Bool) (mantissa : Nat) (exponent : Int)
  deriving DecidableEq, Repr

/-- The exponent of the smallest doubles. -/
def Binary.leastExponent : Int := -1074

/-- Takes a double apart into its sign, its eleven bits of exponent and its fraction. -/
def Binary.ofFloat (x : Float) : Binary :=
  let bits := x.toBits.toNat
  let negative := bits / pow2 63 == 1
  let field : Nat := bits / pow2 52 % pow2 11
  let fraction := bits % pow2 52
  if field = 2047 then
    if fraction = 0 then .infinite negative else .nan
  else if field = 0 then .finite negative fraction leastExponent
  else .finite negative (pow2 52 + fraction) (leastExponent + ((field - 1 : Nat) : Int))

/-- The absolute value of a whole number, or `none` for any other double. -/
def Binary.whole? : Binary → Option Nat
  | .finite _ mantissa exponent =>
    if 0 ≤ exponent then some (mantissa * pow2 exponent.toNat)
    else if mantissa % pow2 (-exponent).toNat = 0 then some (mantissa / pow2 (-exponent).toNat)
    else none
  | _ => none

example : Binary.ofFloat 2.5 = .finite false (5 * 2 ^ 50) (-51) := by decide +kernel
example : (Binary.ofFloat 1e3).whole? = some 1000 := by decide +kernel
example : (Binary.ofFloat 0.5).whole? = none := by decide +kernel

end Lox.Decimal
