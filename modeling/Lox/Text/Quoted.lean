import Lox.Text.Extending
import Lox.Text.Graphic
import Lox.Text.Ignorable

/-!
Quoted texts: a text between double quotes, in which quotes, backslashes and all characters that
cannot be told from the page are written as escapes.
-/

namespace Lox.Text

/-- The character stands for itself on the page: it is the space, or a graphic character that is seen
and is no mark drawn with the character before it. -/
def isPlain (c : Char) : Bool :=
  c = ' ' || (isGraphic c && !isIgnorable c && !isExtending c)

/-- The digits of a number to base sixteen, in lower case. -/
def hex (n : Nat) : String :=
  String.ofList (Nat.toDigits 16 n)

/-- One character of a quoted text. -/
def quoteChar (c : Char) : String :=
  match c with
  | '"' => "\\\""
  | '\\' => "\\\\"
  | '\n' => "\\n"
  | '\r' => "\\r"
  | '\t' => "\\t"
  | '\x00' => "\\0"
  | c => if isPlain c then c.toString else "\\u\x7b" ++ hex c.toNat ++ "\x7d"

/-- The text between double quotes. -/
def quote (s : String) : String :=
  "\"" ++ String.join (s.toList.map quoteChar) ++ "\""

example : quote "a\"b\\\x01" = "\"a\\\"b\\\\\\u\x7b1\x7d\"" := by decide +kernel
example : isPlain '\uFF9E' = true ∧ isPlain '\u3164' = false := by decide +kernel
example : quote "e\u0301" = "\"e\\u\x7b301\x7d\"" := by decide +kernel

end Lox.Text
