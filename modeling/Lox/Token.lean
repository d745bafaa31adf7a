import Lox.Decimal.Layout

/-!
Tokens: the words and marks that a program is made of, each with the characters it was read from
and the line it ends on, and the line of text that lists one.
-/

namespace Lox

/-- What a token is; the text or number that a literal stands for belongs to its kind. -/
inductive Kind where
  | leftParen | rightParen | leftBrace | rightBrace
  | comma | dot | minus | plus | semicolon | slash | star | colon
  | bang | bangEqual | equal | equalEqual
  | greater | greaterEqual | less | lessEqual
  | identifier
  | string (contents : String)
  | number (value : Float)
  | kwAnd | kwClass | kwElse | kwFalse | kwFun | kwFor | kwIf | kwNil
  | kwOr | kwReturn | kwSuper | kwThis | kwTrue | kwVar | kwWhile
  /-- The end of the program. -/
  | eof
  deriving DecidableEq, Inhabited

/-- The name under which a kind is listed. -/
def Kind.name : Kind → String
  | .leftParen => "LEFT_PAREN"
  | .rightParen => "RIGHT_PAREN"
  | .leftBrace => "LEFT_BRACE"
  | .rightBrace => "RIGHT_BRACE"
  | .comma => "COMMA"
  | .dot => "DOT"
  | .minus => "MINUS"
  | .plus => "PLUS"
  | .semicolon => "SEMICOLON"
  | .slash => "SLASH"
  | .star => "STAR"
  | .colon => "COLON"
  | .bang => "BANG"
  | .bangEqual => "BANG_EQUAL"
  | .equal => "EQUAL"
  | .equalEqual => "EQUAL_EQUAL"
  | .greater => "GREATER"
  | .greaterEqual => "GREATER_EQUAL"
  | .less => "LESS"
  | .lessEqual => "LESS_EQUAL"
  | .identifier => "IDENTIFIER"
  | .string _ => "STRING"
  | .number _ => "NUMBER"
  | .kwAnd => "AND"
  | .kwClass => "CLASS"
  | .kwElse => "ELSE"
  | .kwFalse => "FALSE"
  | .kwFun => "FUN"
  | .kwFor => "FOR"
  | .kwIf => "IF"
  | .kwNil => "NIL"
  | .kwOr => "OR"
  | .kwReturn => "RETURN"
  | .kwSuper => "SUPER"
  | .kwThis => "THIS"
  | .kwTrue => "TRUE"
  | .kwVar => "VAR"
  | .kwWhile => "WHILE"
  | .eof => "EOF"

/-- The reserved words. -/
def keywords : List (String × Kind) :=
  [("and", .kwAnd), ("class", .kwClass), ("else", .kwElse), ("false", .kwFalse), ("fun", .kwFun),
    ("for", .kwFor), ("if", .kwIf), ("nil", .kwNil), ("or", .kwOr), ("return", .kwReturn),
    ("super", .kwSuper), ("this", .kwThis), ("true", .kwTrue), ("var", .kwVar),
    ("while", .kwWhile)]

/-- The kind of a word: a keyword if it is reserved, else an identifier. -/
def Kind.ofWord (word : String) : Kind :=
  (keywords.lookup word).getD .identifier

/-- A token of a program. -/
structure Token where
  kind : Kind
  /-- The characters the token was read from. -/
  lexeme : String
  /-- The line of its last character, the first line being 1. -/
  line : Nat
  deriving DecidableEq, Inhabited

/-- Whole numbers are listed with `.0` as far as 64 bits with a sign hold them. -/
def Token.numberFormat : Decimal.Format := ⟨".0", some (Decimal.pow2 63)⟩

/-- The text a literal stands for as it is listed; other tokens list `null`. -/
def Kind.literalText : Kind → String
  | .string contents => contents
  | .number value => Token.numberFormat.render value
  | _ => "null"

/-- The line that lists a token: its kind, its characters, and what they stand for. -/
def Token.listing (t : Token) : String :=
  t.kind.name ++ " " ++ t.lexeme ++ " " ++ t.kind.literalText

example : Token.listing ⟨.number 3, "3", 1⟩ = "NUMBER 3 3.0" := by decide +kernel
example : Token.listing ⟨.plus, "+", 1⟩ = "PLUS + null" := by decide +kernel

end Lox
