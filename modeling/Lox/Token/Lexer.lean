import Lox.Diagnostic
import Lox.Decimal.Numeral

/-!
From characters to tokens. A text is read from the front, one piece at a time: a token, a fault,
or something to skip. A piece takes the first character and as many after it as `front` says, so
that the pieces are, in order, the whole text; `length_drop_front` is why reading ends.

```text
skipped    → " " | "\r" | "\t" | "\n" | "//" (any but "\n")*
string     → "\"" (any but "\"")* "\""
number     → digit+ ( "." digit+ )?
identifier → ( letter | "_" ) ( letter | digit | "_" )*
```

Letters and digits are those of ASCII.
-/

namespace Lox.Lexer

/-- What one reading step finds. -/
inductive Piece where
  | skipped
  | token (kind : Kind)
  | fault (cause : LexicalFault)
  deriving DecidableEq

/-- The characters that are a token each. -/
def marks : List (Char × Kind) :=
  [('(', .leftParen), (')', .rightParen), ('{', .leftBrace), ('}', .rightBrace), (',', .comma),
    ('.', .dot), ('-', .minus), ('+', .plus), (';', .semicolon), ('*', .star), (':', .colon)]

/-- The characters that are one token alone and another with `=` after them. -/
def operators : List (Char × Kind × Kind) :=
  [('!', .bang, .bangEqual), ('=', .equal, .equalEqual), ('<', .less, .lessEqual),
    ('>', .greater, .greaterEqual)]

/-- The characters that only keep tokens apart. -/
def gaps : List Char := [' ', '\r', '\t', '\n']

/-- The characters a word may start with. -/
def startsWord (c : Char) : Bool :=
  c.isAlpha || c = '_'

/-- The characters a word may go on with. -/
def continuesWord (c : Char) : Bool :=
  c.isAlphanum || c = '_'

/-- An operator that may be followed by `=`. -/
def withEqual (short long : Kind) (cs : List Char) : Piece × Nat :=
  if cs.head? = some '=' then (.token long, 1) else (.token short, 0)

/-- A slash: a comment up to the end of the line after a second one, else an operator. -/
def afterSlash (cs : List Char) : Piece × Nat :=
  if cs.head? = some '/' then (.skipped, (cs.takeWhile (· ≠ '\n')).length) else (.token .slash, 0)

/-- A string, of which `cs` follows the opening quote. -/
def afterQuote (cs : List Char) : Piece × Nat :=
  let contents := cs.takeWhile (· ≠ '"')
  if contents.length < cs.length then
    (.token (.string (String.ofList contents)), contents.length + 1)
  else (.fault .unterminatedString, contents.length)

/-- The digits of a number after its point, if `cs` starts with a point and a digit. -/
def fraction (cs : List Char) : List Char :=
  match cs with
  | '.' :: digits => digits.takeWhile Char.isDigit
  | _ => []

/-- A number, of which `cs` follows the first digit. -/
def afterDigit (c : Char) (cs : List Char) : Piece × Nat :=
  let whole := cs.takeWhile Char.isDigit
  let fraction := fraction (cs.dropWhile Char.isDigit)
  let length := if fraction = [] then whole.length else whole.length + 1 + fraction.length
  (.token (.number (Decimal.ofParts (c :: whole) fraction 0)), length)

/-- A word, of which `cs` follows the first character. -/
def afterLetter (c : Char) (cs : List Char) : Piece × Nat :=
  let word := cs.takeWhile continuesWord
  (.token (.ofWord (String.ofList (c :: word))), word.length)

/-- The piece at the front of `c :: cs`, and the number of characters of `cs` that belong to it. -/
def front (c : Char) (cs : List Char) : Piece × Nat :=
  match marks.lookup c, operators.lookup c with
  | some kind, _ => (.token kind, 0)
  | none, some (short, long) => withEqual short long cs
  | none, none =>
    if c ∈ gaps then (.skipped, 0)
    else if c = '/' then afterSlash cs
    else if c = '"' then afterQuote cs
    else if c.isDigit then afterDigit c cs
    else if startsWord c then afterLetter c cs
    else (.fault (.unexpectedCharacter c), 0)

/-! ### The pieces of a text -/

theorem length_takeWhile_le (p : Char → Bool) (cs : List Char) :
    (cs.takeWhile p).length ≤ cs.length :=
  (List.takeWhile_sublist p).length_le

theorem afterQuote_le (cs : List Char) : (afterQuote cs).2 ≤ cs.length := by
  simp only [afterQuote]
  split
  · assumption
  · exact length_takeWhile_le _ cs

theorem fraction_lt {cs : List Char} (h : fraction cs ≠ []) :
    (fraction cs).length < cs.length := by
  unfold fraction at h ⊢
  split at h
  · simpa using Nat.lt_succ_of_le (length_takeWhile_le _ _)
  · contradiction

theorem afterDigit_le (c : Char) (cs : List Char) : (afterDigit c cs).2 ≤ cs.length := by
  have whole : (cs.takeWhile Char.isDigit).length + (cs.dropWhile Char.isDigit).length
      = cs.length := by
    rw [← List.length_append, List.takeWhile_append_dropWhile]
  simp only [afterDigit]
  split
  · exact length_takeWhile_le _ cs
  · have := fraction_lt (by assumption)
    omega

theorem withEqual_le (short long : Kind) (cs : List Char) :
    (withEqual short long cs).2 ≤ cs.length := by
  unfold withEqual
  split
  · cases cs <;> simp_all
  · exact Nat.zero_le _

theorem afterSlash_le (cs : List Char) : (afterSlash cs).2 ≤ cs.length := by
  unfold afterSlash
  split
  · exact length_takeWhile_le _ cs
  · exact Nat.zero_le _

/-- A piece does not go beyond the end of the text. -/
theorem front_le (c : Char) (cs : List Char) : (front c cs).2 ≤ cs.length := by
  unfold front
  split
  · exact Nat.zero_le _
  · exact withEqual_le _ _ cs
  · split
    · exact Nat.zero_le _
    split
    · exact afterSlash_le cs
    split
    · exact afterQuote_le cs
    split
    · exact afterDigit_le c cs
    split
    · exact length_takeWhile_le _ cs
    · exact Nat.zero_le _

/-- A token that was read, or a fault that was met. -/
inductive Item where
  | token (t : Token)
  | fault (line : Nat) (cause : LexicalFault)
  deriving DecidableEq

/-- The item that a piece makes, if it makes one: `taken` are its characters and `line` the line
of the last of them. -/
def Piece.item? (taken : List Char) (line : Nat) : Piece → Option Item
  | .skipped => none
  | .token kind => some (.token ⟨kind, String.ofList taken, line⟩)
  | .fault cause => some (.fault line cause)

theorem length_drop_front (c : Char) (cs : List Char) :
    (cs.drop (front c cs).2).length < (c :: cs).length := by
  simp only [List.length_drop, List.length_cons]
  omega

/-- All items of a text that starts on the given line; the last of them is the end of the
program. -/
def itemsFrom (line : Nat) : List Char → List Item
  | [] => [.token ⟨.eof, "", line⟩]
  | c :: cs =>
    let taken := c :: cs.take (front c cs).2
    let last := line + taken.count '\n'
    ((front c cs).1.item? taken last).toList ++ itemsFrom last (cs.drop (front c cs).2)
  termination_by cs => cs.length
  decreasing_by exact length_drop_front c cs

/-- All items of a text. -/
def items (source : String) : List Item :=
  itemsFrom 1 source.toList

def Item.token? : Item → Option Token
  | .token t => some t
  | .fault _ _ => none

def Item.diagnostic? : Item → Option Diagnostic
  | .token _ => none
  | .fault line cause => some (.lexical line cause)

end Lexer

/-- The tokens of a program, or all faults of its characters. -/
def tokens (source : String) : Except (List Diagnostic) (List Token) :=
  let items := Lexer.items source
  match items.filterMap Lexer.Item.diagnostic? with
  | [] => .ok (items.filterMap Lexer.Item.token?)
  | faults => .error faults

end Lox
