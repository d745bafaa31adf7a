/-!
Reading bytes as UTF-8: where and how a sequence of bytes stops being a text, and a reading that
puts a replacement character in the place of what cannot be read.

The rule is the table of well-formed byte sequences: a leading byte fixes how many bytes follow
it and the range of each of them.
-/

namespace Lox.Text.Utf8

/-- The ranges of the bytes that follow a leading byte, or `none` for a byte that leads nothing. -/
def followers (lead : UInt8) : Option (List (UInt8 × UInt8)) :=
  let any : UInt8 × UInt8 := (0x80, 0xBF)
  if lead < 0x80 then some []
  else if lead < 0xC2 then none
  else if lead < 0xE0 then some [any]
  else if lead = 0xE0 then some [(0xA0, 0xBF), any]
  else if lead = 0xED then some [(0x80, 0x9F), any]
  else if lead < 0xF0 then some [any, any]
  else if lead = 0xF0 then some [(0x90, 0xBF), any, any]
  else if lead < 0xF4 then some [any, any, any]
  else if lead = 0xF4 then some [(0x80, 0x8F), any, any]
  else none

/-- What stands at the front of some bytes. -/
inductive Front where
  /-- A character of this many bytes. -/
  | whole (length : Nat)
  /-- The beginning of a character, after which the bytes end. -/
  | cut
  /-- This many bytes that begin no character. -/
  | broken (length : Nat)
  deriving DecidableEq, Repr

/-- Compares the bytes after a leading byte with the ranges they should lie in; `seen` bytes of
the character have been passed. -/
def Front.follow (seen : Nat) : List (UInt8 × UInt8) → List UInt8 → Front
  | [], _ => .whole seen
  | _ :: _, [] => .cut
  | r :: ranges, b :: rest =>
    if r.1 ≤ b && b ≤ r.2 then follow (seen + 1) ranges rest else .broken seen

/-- What stands at the front of the bytes `lead :: rest`. -/
def Front.of (lead : UInt8) (rest : List UInt8) : Front :=
  match followers lead with
  | none => .broken 1
  | some ranges => Front.follow 1 ranges rest

/-- The way in which bytes fail to be a text, and the index at which they do. -/
inductive Fault where
  /-- The bytes from `index` on begin no character; `length` of them are to blame. -/
  | invalid (index length : Nat)
  /-- The bytes end within the character that starts at `index`. -/
  | incomplete (index : Nat)
  deriving DecidableEq, Repr

/-- The wording of a fault. -/
def Fault.message : Fault → String
  | .invalid index length => s!"invalid utf-8 sequence of {length} bytes from index {index}"
  | .incomplete index => s!"incomplete utf-8 byte sequence from index {index}"

/-- The first fault of bytes of which the first one has the given index. -/
def fault? (index : Nat) : List UInt8 → Option Fault
  | [] => none
  | lead :: rest =>
    match Front.of lead rest with
    | .whole length => fault? (index + length) (rest.drop (length - 1))
    | .cut => some (.incomplete index)
    | .broken length => some (.invalid index length)
  termination_by bytes => bytes.length
  decreasing_by simp only [List.length_drop, List.length_cons]; omega

/-- The text that the bytes stand for, or else their first fault. -/
def decode (bytes : ByteArray) : Except Fault String :=
  match String.fromUTF8? bytes with
  | some text => .ok text
  | none => .error ((fault? 0 bytes.toList).getD (.incomplete bytes.size))

/-- The text that the bytes stand for, with one replacement character for each stretch of them
that begins no character. -/
def decodeReplacing (bytes : List UInt8) : String :=
  match bytes with
  | [] => ""
  | lead :: rest =>
    match Front.of lead rest with
    | .whole length =>
      (String.fromUTF8? ⟨(lead :: rest.take (length - 1)).toArray⟩).getD ""
        ++ decodeReplacing (rest.drop (length - 1))
    | .cut => "\uFFFD"
    | .broken length => "\uFFFD" ++ decodeReplacing (rest.drop (length - 1))
  termination_by bytes.length
  decreasing_by all_goals simp only [List.length_drop, List.length_cons]; omega

end Lox.Text.Utf8
