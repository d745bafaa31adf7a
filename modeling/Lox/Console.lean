import Lox.Diagnostic

/-!
The console of a running program: the bytes it can still read, and what it has written. What an output
takes of a text, and whether it can be flushed, may depend on all that it has been given before; of a
text that it does not take as a whole it keeps the first bytes, and the write fails. An output that
takes only so many bytes in all is one of these.
-/

namespace Lox

/-- How much of a text an output takes at most. -/
structure Intake where
  room : Nat
  /-- The fault of the write if the text has more bytes. -/
  fault : OutputFault := .full

/-- What an output takes of each text. -/
structure Capacity where
  /-- For the bytes that it holds, the texts that it has been given before, the last one first, and the
  text; `none` if it takes all of it. -/
  intake? : ByteArray → List String → String → Option Intake

/-- The number of bytes that are taken in all, if it is limited. -/
def Capacity.ofLimit : Option Nat → Capacity
  | none => ⟨fun _ _ _ => none⟩
  | some limit => ⟨fun held _ _ => some { room := limit - held.size }⟩

instance : Coe (Option Nat) Capacity := ⟨Capacity.ofLimit⟩

/-- The faults of the flushes of an output, for the bytes that it holds and the texts that it has been
given, the last one first. -/
structure FlushFaults where
  /-- A flush after a text has been written. -/
  afterWrite : ByteArray → List String → Option OutputFault
  /-- The flush at the end of a program. -/
  atEnd : ByteArray → List String → Option OutputFault

/-- All flushes fail, or none. -/
def FlushFaults.always (fails : Bool) : FlushFaults :=
  let fault := if fails then some .flushFailed else none
  ⟨fun _ _ => fault, fun _ _ => fault⟩

instance : Coe Bool FlushFaults := ⟨FlushFaults.always⟩

/-- What a program writes to. -/
structure Output where
  written : ByteArray := .empty
  /-- The texts that it has been given, the last one first. -/
  given : List String := []
  /-- What is taken of each text. -/
  capacity : Capacity := Capacity.ofLimit none
  /-- Which flushes fail. -/
  flushFails : FlushFaults := FlushFaults.always false

namespace Output

/-- The bytes of a text that are kept, and a fault if these are not all. -/
def take (out : Output) (text : String) : Option OutputFault × ByteArray :=
  let bytes := text.toUTF8
  match out.capacity.intake? out.written out.given text with
  | none => (none, bytes)
  | some intake =>
    let fault := if intake.room < bytes.size then some intake.fault else none
    (fault, bytes.extract 0 (min bytes.size intake.room))

/-- Writes a text. -/
def write (out : Output) (text : String) : Option OutputFault × Output :=
  let (fault, kept) := out.take text
  (fault, { out with written := out.written ++ kept, given := text :: out.given })

/-- The fault of a flush after a text has been written, if there is one. -/
def writeFault? (out : Output) : Option OutputFault :=
  out.flushFails.afterWrite out.written out.given

/-- The fault of the flush at the end of a program, if there is one. -/
def flushFault? (out : Output) : Option OutputFault :=
  out.flushFails.atEnd out.written out.given

end Output

/-- The input and the output of a program. -/
structure Console where
  input : List UInt8 := []
  output : Output := {}

/-- The outcome of reading a line. -/
inductive Line where
  /-- There is no more input. -/
  | ended
  | text (contents : String)
  /-- The bytes of the line are not UTF-8. -/
  | unreadable
  deriving DecidableEq, Repr

namespace Line

/-- The byte that ends a line. -/
def newline : UInt8 := 10

/-- Takes the bytes of one line off the front, with the newline if there is one. -/
def split (input : List UInt8) : List UInt8 × List UInt8 :=
  let body := input.takeWhile (· ≠ newline)
  match input.dropWhile (· ≠ newline) with
  | [] => (body, [])
  | last :: rest => (body ++ [last], rest)

/-- The bytes of all lines, one after the other, each with its newline if there is one. -/
def pieces : List UInt8 → List (List UInt8)
  | [] => []
  | b :: rest =>
    if b = newline then [b] :: pieces rest
    else match pieces rest with
      | [] => [[b]]
      | line :: lines => (b :: line) :: lines

/-- The bytes of the first line and the bytes after it are all bytes. -/
theorem split_append (input : List UInt8) : (split input).1 ++ (split input).2 = input := by
  have h : input.takeWhile (· ≠ newline) ++ input.dropWhile (· ≠ newline) = input :=
    List.takeWhile_append_dropWhile
  unfold split
  split
  · rename_i hd
    rwa [hd] at h
  · rename_i last rest hd
    rw [hd] at h
    rw [List.append_assoc]
    exact h

/-- The lines are all bytes, in order. -/
theorem flatten_pieces (input : List UInt8) : (pieces input).flatten = input := by
  induction input with
  | nil => rfl
  | cons b rest ih =>
    rw [pieces]
    split
    · simp [ih]
    · split <;> simp_all

/-- The first of the lines is the one that is split off, and the others are those of the rest. -/
theorem pieces_cons (b : UInt8) (rest : List UInt8) :
    pieces (b :: rest) = (split (b :: rest)).1 :: pieces (split (b :: rest)).2 := by
  induction rest generalizing b with
  | nil => by_cases h : b = newline <;> simp [pieces, split, h]
  | cons next rest ih =>
    by_cases h : b = newline
    · simp [pieces, split, h]
    · have hs : split (b :: next :: rest)
          = (b :: (split (next :: rest)).1, (split (next :: rest)).2) := by
        simp only [split, List.takeWhile_cons, List.dropWhile_cons, h, ne_eq, not_false_eq_true,
          decide_true, if_true]
        split <;> rfl
      rw [pieces, if_neg h, ih, hs]

/-- A line without its newline, and without a carriage return just before that. -/
def strip (line : List Char) : List Char :=
  match line.reverse with
  | '\n' :: '\r' :: body => body.reverse
  | '\n' :: body => body.reverse
  | _ => line

/-- What the bytes of one line are. -/
def ofBytes (bytes : List UInt8) : Line :=
  if bytes = [] then ended
  else match String.fromUTF8? ⟨bytes.toArray⟩ with
    | some contents => text (String.ofList (strip contents.toList))
    | none => unreadable

end Line

/-- Reads one line, which takes its bytes whether they are a text or not. -/
def Console.readLine (c : Console) : Line × Console :=
  let (line, rest) := Line.split c.input
  (.ofBytes line, { c with input := rest })

/-- Writes a text and flushes. -/
def Console.print (c : Console) (text : String) : Option OutputFault × Console :=
  let (fault, output) := c.output.write text
  (fault <|> output.writeFault?, { c with output })

end Lox
