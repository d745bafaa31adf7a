import Lox.Decimal.Shortest

/-!
Numbers written out. Whole numbers are written by all their digits, other numbers by their
shortest decimal in positional notation, and never with an exponent. A `Format` says what follows
a whole number and from where on a whole number, too, is written by its shortest decimal.
-/

namespace Lox.Decimal

/-- The decimal digits of a natural number. -/
def digitsOf (n : Nat) : String :=
  String.ofList (Nat.toDigits 10 n)

/-- That many zeros. -/
def zeros (n : Nat) : String :=
  String.ofList (List.replicate n '0')

/-- A decimal in positional notation, with no point when it is a natural number. -/
def Scaled.positional (s : Scaled) : String :=
  let digits := Nat.toDigits 10 s.digits
  if 0 ≤ s.exponent then String.ofList digits ++ zeros s.exponent.toNat
  else
    let places := (-s.exponent).toNat
    if places < digits.length then
      String.ofList (digits.take (digits.length - places)) ++ "."
        ++ String.ofList (digits.drop (digits.length - places))
    else "0." ++ zeros (places - digits.length) ++ String.ofList digits

/-- How numbers are written out in one kind of text. -/
structure Format where
  /-- What follows the digits of a whole number. -/
  wholeSuffix : String
  /-- The absolute value from which on whole numbers are written by their shortest decimal,
  without the suffix. -/
  wholeBelow : Option Nat := none

/-- The text of a number. A value half way between two shortest decimals goes away from zero. -/
def Format.render (f : Format) (x : Float) : String :=
  match Binary.ofFloat x with
  | .nan => "NaN"
  | .infinite negative => if negative then "-inf" else "inf"
  | .finite negative mantissa exponent =>
    let sign := if negative then "-" else ""
    let short := (shortest mantissa exponent .away).positional
    match (Binary.finite negative mantissa exponent).whole? with
    | some n =>
      if f.wholeBelow.all (n < ·) then sign ++ digitsOf n ++ f.wholeSuffix else sign ++ short
    | none => sign ++ short

/-- A number as a value is shown: whole numbers have no point. -/
def plain : Format := ⟨"", none⟩

/-- A number as syntax is shown: whole numbers end in `.0`. -/
def pointed : Format := ⟨".0", none⟩

example : plain.render 1e23 = "99999999999999991611392" := by decide +kernel
example : plain.render (-0.0) = "-0" := by decide +kernel
example : pointed.render 3 = "3.0" := by decide +kernel
example : plain.render 0.001 = "0.001" := by decide +kernel

end Lox.Decimal
