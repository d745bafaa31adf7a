import Lox.Diagnostic
import Lox.Program.Basic

/-!
Reading a list of tokens: the place reached in it, the elementary steps, and the ways of reading
one thing after another. A reading either succeeds or halts at a fault, and keeps its place in both
cases; faults that do not stop it are recorded on the way.

The readings that repeat something are given a number of rounds. Every round but the last takes a
token, so that one round more than there are tokens is always enough, and running out of rounds is
told apart from every fault.
-/

namespace Lox

/-- How long lists of parameters and of arguments may be. -/
structure Limit where
  maxArguments : Nat := 255
  /-- A list that is too long is a fault. -/
  strict : Bool := true
  deriving DecidableEq, Repr

namespace Parser

/-- A place in a list of tokens. -/
structure Cursor where
  /-- The tokens still to be read. -/
  rest : List Token
  /-- The token that ends the list. -/
  stop : Token
  /-- The number of the next expression. -/
  nextId : Nat
  /-- The faults recorded so far, in order. -/
  faults : List Diagnostic

/-- The start of a list, which ends before its first end of program. A list without one is given
one, on the line of its last token. -/
def Cursor.start (firstId : Nat) (tokens : List Token) : Cursor where
  rest := tokens.takeWhile (·.kind ≠ .eof)
  stop := (tokens.find? (·.kind = .eof)).getD
    ⟨.eof, "", (tokens.getLast?.map Token.line).getD 1⟩
  nextId := firstId
  faults := []

/-- The token at this place. -/
def Cursor.next (s : Cursor) : Token :=
  s.rest.headD s.stop

/-- Records a fault. -/
def Cursor.record (s : Cursor) (d : Diagnostic) : Cursor :=
  { s with faults := s.faults ++ [d] }

/-- Why a reading did not succeed. -/
inductive Halt where
  | fault (d : Diagnostic)
  /-- The rounds it was given were too few. -/
  | outOfRounds

/-- A reading of tokens. -/
abbrev Reading := EStateM Halt Cursor

/-! ### Elementary steps -/

/-- The token at this place, unless the list ends here. -/
def peek? : Reading (Option Token) := fun s =>
  .ok s.rest.head? s

/-- Takes the token at this place, or looks at the one that ends the list. -/
def advance : Reading Token := fun s =>
  .ok s.next { s with rest := s.rest.tail }

/-- Takes the token at this place if `p` accepts its kind. -/
def takeIf (p : Kind → Bool) : Reading (Option Token) := fun s =>
  match s.rest with
  | [] => .ok none s
  | t :: rest => if p t.kind then .ok (some t) { s with rest } else .ok none s

/-- Takes the token at this place if it is of the given kind. -/
def accept (k : Kind) : Reading (Option Token) :=
  takeIf (· = k)

/-- Halts at the token at this place, where something else was expected. -/
def fail {α : Type} (what : Expectation) : Reading α := fun s =>
  .error (.fault (.grammar s.next (.expected what))) s

/-- Takes the token at this place, which must be of the given kind. -/
def expect (k : Kind) (what : Expectation) : Reading Token := do
  match ← accept k with
  | some t => pure t
  | none => fail what

/-- Records a fault of a token and goes on. -/
def report (token : Token) (fault : GrammarFault) : Reading Unit := fun s =>
  .ok () (s.record (.grammar token fault))

/-- Makes an expression with the next number. -/
def node (make : Nat → Expr) : Reading Expr := fun s =>
  .ok (make s.nextId) { s with nextId := s.nextId + 1 }

/-- One more list entry after `count` others; beyond a strict limit this is recorded. -/
def checkLimit (limit : Limit) (what : Listing) (count : Nat) : Reading Unit := fun s =>
  if limit.maxArguments ≤ count ∧ limit.strict then
    .ok () (s.record (.grammar s.next (.overLimit limit.maxArguments what)))
  else .ok () s

/-! ### Statement boundaries -/

/-- The kinds of token with which a statement is certain to start. -/
def startsStatement : Kind → Bool
  | .kwClass | .kwFun | .kwVar | .kwFor | .kwIf | .kwWhile | .kwReturn => true
  | _ => false

/-- The tokens from the next boundary on, at least one token further: the earliest place that
follows a semicolon or holds a token that starts a statement. -/
def afterBoundary : List Token → List Token
  | [] => []
  | t :: rest =>
    if t.kind = .semicolon ∨ rest.head?.any (startsStatement ·.kind) then rest
    else afterBoundary rest

theorem length_afterBoundary_lt (t : Token) (rest : List Token) :
    (afterBoundary (t :: rest)).length < (t :: rest).length := by
  induction rest generalizing t with
  | nil => simp [afterBoundary]
  | cons next rest ih =>
    rw [afterBoundary]
    split
    · simp
    · exact Nat.lt_succ_of_lt (ih next)

theorem afterBoundary_suffix (ts : List Token) : afterBoundary ts <:+ ts := by
  induction ts with
  | nil => exact List.suffix_refl _
  | cons t rest ih =>
    rw [afterBoundary]
    split
    · exact List.suffix_cons t rest
    · exact ih.trans (List.suffix_cons t rest)

/-- Moves on to the next statement boundary. -/
def Cursor.toBoundary (s : Cursor) : Cursor :=
  { s with rest := afterBoundary s.rest }

/-- A reading that halts at a fault records it and goes on at the next boundary. -/
def recovering {α : Type} (p : Reading α) : Reading (Option α) := fun s =>
  match p s with
  | .ok a s => .ok (some a) s
  | .error (.fault d) s => .ok none (s.record d).toBoundary
  | .error .outOfRounds s => .error .outOfRounds s

/-! ### Repetition -/

/-- Reads something unless a token of the given kind stands here. -/
def unlessNext {α : Type} (k : Kind) (p : Reading α) : Reading (Option α) := do
  if (← peek?).any (·.kind = k) then pure none else some <$> p

/-- Reads one thing after another up to a token that `closes`, or to the end of the list. -/
def upTo {α : Type} (closes : Kind → Bool) (entry : Reading α) : Nat → Reading (List α)
  | 0 => throw .outOfRounds
  | rounds + 1 => do
    if (← peek?).all (closes ·.kind) then return []
    else
      let first ← entry
      return first :: (← upTo closes entry rounds)

/-- Reads one thing or more with commas between them; `count` others have been read. -/
def listed {α : Type} (limit : Limit) (what : Listing) (entry : Reading α) (count : Nat) :
    Nat → Reading (List α)
  | 0 => throw .outOfRounds
  | rounds + 1 => do
    checkLimit limit what count
    let first ← entry
    if (← accept .comma).isSome then
      return first :: (← listed limit what entry (count + 1) rounds)
    else return [first]

/-- Reads a list that ends before a closing parenthesis and may be empty. -/
def listedOrNone {α : Type} (limit : Limit) (what : Listing) (entry : Reading α) (rounds : Nat) :
    Reading (List α) := do
  return (← unlessNext .rightParen (listed limit what entry 0 rounds)).getD []

end Parser

end Lox
