/-!
Numerals: the number that a run of decimal digits with a point and an exponent stands for,
rounded to the nearest double, and the grammar of the numerals that a program may hand in as text.

```text
numeral  → sign? ( "inf" | "infinity" | "nan" | digits* ( "." digits* )? exponent? )
exponent → ( "e" | "E" ) sign? digits+
```

A numeral has a digit before or after its point, and the words are read without regard to case. Of
an exponent, the digits are read only up to the first that makes it large.
-/

namespace Lox.Decimal

/-- A number with one more decimal digit after its own. -/
def withDigit (n : Nat) (c : Char) : Nat :=
  10 * n + (c.toNat - '0'.toNat)

/-- The number that decimal digits stand for, the first of them leading. -/
def ofDigits (cs : List Char) : Nat :=
  cs.foldl withDigit 0

/-- The double nearest to `digits * 10 ^ exponent`. A number beyond the range of doubles, or one
too small for it, is told from the place of its first digit alone. -/
def nearest (digits : Nat) (exponent : Int) : Float :=
  let leading : Int := exponent + (Nat.toDigits 10 digits).length
  if digits = 0 then 0
  else if 400 < leading then 1 / 0
  else if leading < -400 then 0
  else if 0 ≤ exponent then Float.ofScientific digits false exponent.toNat
  else Float.ofScientific digits true (-exponent).toNat

/-- The double nearest to the number with these digits before and after its point. -/
def ofParts (whole fraction : List Char) (exponent : Int) : Float :=
  nearest (ofDigits (whole ++ fraction)) (exponent - fraction.length)

/-- Takes a sign off the front: whether it is a minus, and the rest. -/
def takeSign : List Char → Bool × List Char
  | '-' :: rest => (true, rest)
  | '+' :: rest => (false, rest)
  | cs => (false, cs)

/-- From here on an exponent is large: the digits after it are not read. -/
def largeExponent : Nat := 65536

/-- The size of an exponent, of which digits are read only until it is large. -/
def exponentOfDigits (cs : List Char) : Nat :=
  cs.foldl (fun n c => if n < largeExponent then withDigit n c else n) 0

/-- The exponent that the characters are, no characters standing for zero. -/
def readExponent? : List Char → Option Int
  | [] => some 0
  | e :: rest =>
    let (negative, digits) := takeSign rest
    if (e = 'e' ∨ e = 'E') ∧ digits ≠ [] ∧ digits.all Char.isDigit then
      let size : Int := exponentOfDigits digits
      some (if negative then -size else size)
    else none

/-- The number that a numeral without a sign is. -/
def readUnsigned? (cs : List Char) : Option Float :=
  let whole := cs.takeWhile Char.isDigit
  let (fraction, rest) := match cs.dropWhile Char.isDigit with
    | '.' :: rest => (rest.takeWhile Char.isDigit, rest.dropWhile Char.isDigit)
    | rest => ([], rest)
  let word := cs.map Char.toLower
  if word = "inf".toList ∨ word = "infinity".toList then some (1 / 0)
  else if word = "nan".toList then some (0 / 0)
  else if whole = [] ∧ fraction = [] then none
  else (readExponent? rest).map (ofParts whole fraction)

/-- The number that a numeral is, or `none` if the characters are no numeral. -/
def readNumeral? (cs : List Char) : Option Float :=
  let (negative, rest) := takeSign cs
  (readUnsigned? rest).map fun x => if negative then -x else x

example : readNumeral? "-1.5e3".toList = some (-1500) := by decide +kernel
example : readNumeral? ".5".toList = some 0.5 := by decide +kernel
example : readNumeral? "1.e".toList = none := by decide +kernel
example : readExponent? "e-6553699".toList = some (-65536) := by decide +kernel

end Lox.Decimal
