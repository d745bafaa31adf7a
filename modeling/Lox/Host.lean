import Lox.Console
import Lox.Decimal.Numeral
import Lox.Text.Blank
import Lox.Value

/-!
The host of a running program: its console and its clock, and the native functions, which do
nothing but use them. A run of something either succeeds or stops, at a fault or because the fuel
that it was given is used up; the state is kept in every case.
-/

namespace Lox

/-- Why a run did not succeed. -/
inductive Stop where
  | fault (line : Nat) (cause : RuntimeFault)
  | outOfFuel
  deriving DecidableEq

/-- What a running program finds outside of itself. -/
structure Host where
  console : Console := {}
  /-- The time, in seconds, that each reading of the clock gives. -/
  clock : Nat → Float := fun _ => 0
  /-- The number of times the clock has been read. -/
  clockReadings : Nat := 0

namespace Host

/-- Prints a text; an output that does not take it is a fault of the given line. -/
def print (text : String) (line : Nat) : EStateM Stop Host Unit := fun h =>
  let (fault, console) := h.console.print text
  let h := { h with console }
  match fault with
  | none => .ok () h
  | some cause => .error (.fault line (.unwritableOutput cause)) h

/-- Reads a line of the input. -/
def readLine : EStateM Stop Host Line := fun h =>
  let (line, console) := h.console.readLine
  .ok line { h with console }

/-- Reads the clock. -/
def readClock : EStateM Stop Host Float := fun h =>
  .ok (h.clock h.clockReadings) { h with clockReadings := h.clockReadings + 1 }

end Host

section

variable {E : Type}

/-- The number that a value is the numeral of. -/
def Value.parseNum : Value E → Except RuntimeFault (Value E)
  | .string text =>
    match Decimal.readNumeral? (Text.trimBlank text.toList) with
    | some x => .ok (.number x)
    | none => .error (.notANumeral text)
  | other => .error (.numeralNotAString other.typeName)

/-- Calls a native function. -/
def Native.call (native : Native) (arguments : List (Value E)) (line : Nat) :
    EStateM Stop Host (Value E) := do
  let argument := arguments.headD .nil
  match native with
  | .clock => return .number (← Host.readClock)
  | .print =>
    Host.print argument.display line
    return .nil
  | .println =>
    Host.print (argument.display ++ "\n") line
    return .nil
  | .readln =>
    match ← Host.readLine with
    | .ended => return .nil
    | .text contents => return .string contents
    | .unreadable => throw (.fault line .unreadableInput)
  | .parseNum =>
    match argument.parseNum with
    | .ok value => return value
    | .error cause => throw (.fault line cause)

end

end Lox
