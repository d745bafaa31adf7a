import Lox.Decimal.Layout

/-!
JSON documents and their two spellings: one on a single line without blanks, and one that gives
every member of a list or an object a line of its own. A number with a fraction keeps its point,
so that it stays apart from a natural number.
-/

namespace Lox

/-- A JSON document. -/
inductive Json where
  | null
  | natural (n : Nat)
  | number (x : Float)
  | string (s : String)
  | array (items : List Json)
  | object (fields : List (String × Json))
  deriving Inhabited

namespace Json

/-! ### Strings and numbers -/

/-- One character of a string: quotes, backslashes and control characters are escaped. -/
def escape (c : Char) : String :=
  match c with
  | '"' => "\\\""
  | '\\' => "\\\\"
  | '\x08' => "\\b"
  | '\x0C' => "\\f"
  | '\n' => "\\n"
  | '\r' => "\\r"
  | '\t' => "\\t"
  | c =>
    if c.toNat < 0x20 then
      let digits := Nat.toDigits 16 c.toNat
      "\\u" ++ Decimal.zeros (4 - digits.length) ++ String.ofList digits
    else c.toString

/-- A string between quotes. -/
def quoted (s : String) : String :=
  "\"" ++ String.join (s.toList.map escape) ++ "\""

/-- A positive decimal: in positional notation when its first digit stands for one of the powers
of ten from -5 to 15, else as one digit, a fraction and an exponent with its sign. -/
def decimal (s : Decimal.Scaled) : String :=
  let digits := Nat.toDigits 10 s.digits
  let leading : Int := s.exponent + digits.length - 1
  if -5 ≤ leading ∧ leading ≤ 15 then
    if 0 ≤ s.exponent then s.positional ++ ".0" else s.positional
  else
    let fraction := digits.drop 1
    let mantissa := String.ofList (digits.take 1)
      ++ (if fraction = [] then "" else "." ++ String.ofList fraction)
    mantissa ++ "e" ++ (if leading < 0 then "-" else "+") ++ Decimal.digitsOf leading.natAbs

/-- A number: its shortest decimal, a tie going to the even digit; `null` if it is not finite. -/
def numberText (x : Float) : String :=
  match Decimal.Binary.ofFloat x with
  | .finite negative mantissa exponent =>
    (if negative then "-" else "") ++ decimal (Decimal.shortest mantissa exponent .even)
  | _ => "null"

/-! ### Documents -/

mutual

/-- A document on one line. -/
def compact : Json → String
  | null => "null"
  | natural n => Decimal.digitsOf n
  | number x => numberText x
  | string s => quoted s
  | array items => "[" ++ compactItems items ++ "]"
  | object fields => "\x7b" ++ compactFields fields ++ "\x7d"

/-- The items of a list on one line. -/
def compactItems : List Json → String
  | [] => ""
  | [item] => item.compact
  | item :: rest => item.compact ++ "," ++ compactItems rest

/-- The fields of an object on one line. -/
def compactFields : List (String × Json) → String
  | [] => ""
  | [(key, value)] => quoted key ++ ":" ++ value.compact
  | (key, value) :: rest => quoted key ++ ":" ++ value.compact ++ "," ++ compactFields rest

end

/-- The start of a line at a depth: two spaces for each level. -/
def newline (depth : Nat) : String :=
  "\n" ++ String.ofList (List.replicate (2 * depth) ' ')

mutual

/-- A document over several lines, itself at the given depth. -/
def pretty (depth : Nat) : Json → String
  | null => "null"
  | natural n => Decimal.digitsOf n
  | number x => numberText x
  | string s => quoted s
  | array [] => "[]"
  | array items => "[" ++ prettyItems (depth + 1) items ++ newline depth ++ "]"
  | object [] => "\x7b\x7d"
  | object fields => "\x7b" ++ prettyFields (depth + 1) fields ++ newline depth ++ "\x7d"

/-- The items of a list, each on its own line. -/
def prettyItems (depth : Nat) : List Json → String
  | [] => ""
  | [item] => newline depth ++ item.pretty depth
  | item :: rest => newline depth ++ item.pretty depth ++ "," ++ prettyItems depth rest

/-- The fields of an object, each on its own line. -/
def prettyFields (depth : Nat) : List (String × Json) → String
  | [] => ""
  | [(key, value)] => newline depth ++ quoted key ++ ": " ++ value.pretty depth
  | (key, value) :: rest =>
    newline depth ++ quoted key ++ ": " ++ value.pretty depth ++ "," ++ prettyFields depth rest

end

example : numberText 1e16 = "1e+16" := by decide +kernel
example : numberText 0.00001 = "0.00001" := by decide +kernel
example : (array [natural 1, object []]).compact = "[1,\x7b\x7d]" := by decide +kernel

end Json

end Lox
