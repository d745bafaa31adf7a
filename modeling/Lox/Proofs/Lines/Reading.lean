import Lox.Host
import Lox.Proofs.Lines.Pieces
import Mathlib.Data.List.Basic

/-!
What depends on lines that are asked for. A `Reading` lists what it does, step by step; some of its steps
ask for a line, and what it does after such a step depends on what it has been given. Carried out on an
input, whatever it does, its calls take the pieces of the input one by one, nothing is taken twice or left
out, and behind the last piece each call gives `nil` (`Reading.delivered_on`).
-/

namespace Lox

/-- What a program is given for a line: its text, `nil` behind the last one, or a fault. -/
def Line.value : Line → Except RuntimeFault Value
  | .ended => .ok .nil
  | .text contents => .ok (.string contents)
  | .unreadable => .error .unreadableInput

/-- A call for a line: the bytes that it takes from the input, and what it gives. -/
structure Delivery where
  taken : List UInt8
  given : Except RuntimeFault Value

/-- The call with this number, of those that read the input from its beginning. -/
def Delivery.nth (input : List UInt8) (k : Nat) : Delivery :=
  match (Line.pieces input)[k]? with
  | some piece => ⟨piece, (Line.ofBytes piece).value⟩
  | none => ⟨[], .ok .nil⟩

/-- The first call takes the first piece. -/
theorem Delivery.nth_zero (input : List UInt8) :
    nth input 0 = ⟨(Line.split input).1, (Line.ofBytes (Line.split input).1).value⟩ := by
  cases input with
  | nil => rfl
  | cons b rest => simp [nth, Line.pieces_cons]

/-- The calls after the first one are those that read the bytes behind the first piece. -/
theorem Delivery.nth_succ (input : List UInt8) (k : Nat) :
    nth input (k + 1) = nth (Line.split input).2 k := by
  cases input with
  | nil => rfl
  | cons b rest => simp [nth, Line.pieces_cons]

/-- The pieces after the first one are those of the bytes behind it. -/
theorem Line.drop_pieces_succ (input : List UInt8) (k : Nat) :
    (Line.pieces input).drop (k + 1) = (Line.pieces (Line.split input).2).drop k := by
  cases input with
  | nil => simp [pieces, split]
  | cons b rest => simp [Line.pieces_cons]

/-- What is done with lines. -/
inductive Reading (ε ρ : Type) where
  /-- It ends with a result. -/
  | done (result : ρ)
  /-- A step that takes no line. -/
  | notes (step : ε) (rest : Reading ε ρ)
  /-- A step that asks for a line; the rest depends on what is given. -/
  | asks (step : ε) (next : Except RuntimeFault Value → Reading ε ρ)

/-- What comes of a reading: its result, the bytes that it has not read, and its steps in order, with the
call of each that has asked for a line. -/
structure Reading.Outcome (ε ρ : Type) where
  result : ρ
  left : List UInt8
  log : List (ε × Option Delivery)

namespace Reading

variable {ε ρ σ : Type}

namespace Outcome

/-- The calls for lines. -/
def calls (o : Outcome ε ρ) : List Delivery :=
  o.log.filterMap Prod.snd

/-- All steps. -/
def steps (o : Outcome ε ρ) : List ε :=
  o.log.map Prod.fst

end Outcome

/-- Carries out a reading; the console reads each of the lines. -/
def on : Reading ε ρ → List UInt8 → Outcome ε ρ
  | .done result, input => ⟨result, input, []⟩
  | .notes step rest, input =>
    let later := rest.on input
    { later with log := (step, none) :: later.log }
  | .asks step next, input =>
    let (line, console) := Console.readLine { input }
    let later := (next line.value).on console.input
    { later with log := (step, some ⟨(Line.split input).1, line.value⟩) :: later.log }

/-- One reading and then another, which depends on the result of the first one. -/
def bind (reading : Reading ε ρ) (next : ρ → Reading ε σ) : Reading ε σ :=
  match reading with
  | .done result => next result
  | .notes step rest => .notes step (rest.bind next)
  | .asks step more => .asks step fun given => (more given).bind next

theorem on_bind (reading : Reading ε ρ) (next : ρ → Reading ε σ) (input : List UInt8) :
    (reading.bind next).on input =
      let first := reading.on input
      let second := (next first.result).on first.left
      { second with log := first.log ++ second.log } := by
  induction reading generalizing input with
  | done result => rfl
  | notes step rest ih => simp only [bind, on, ih, List.cons_append]
  | asks step more ih => simp only [bind, on, ih, List.cons_append]

/-- The same reading with another result. -/
def map (f : ρ → σ) (reading : Reading ε ρ) : Reading ε σ :=
  reading.bind fun result => .done (f result)

theorem on_map (f : ρ → σ) (reading : Reading ε ρ) (input : List UInt8) :
    (reading.map f).on input =
      let o := reading.on input
      ⟨f o.result, o.left, o.log⟩ := by
  rw [map, on_bind]
  simp only [on, List.append_nil]

/-- The steps that ask for a line are those that are asking, whatever has been given. -/
def Marks (asking : ε → Bool) : Reading ε ρ → Prop
  | .done _ => True
  | .notes step rest => asking step = false ∧ rest.Marks asking
  | .asks step next => asking step = true ∧ ∀ given, (next given).Marks asking

protected theorem Marks.bind {asking : ε → Bool} {reading : Reading ε ρ} {next : ρ → Reading ε σ}
    (h : reading.Marks asking) (hnext : ∀ result, (next result).Marks asking) :
    (reading.bind next).Marks asking := by
  induction reading with
  | done result => exact hnext result
  | notes step rest ih => exact ⟨h.1, ih h.2⟩
  | asks step more ih => exact ⟨h.1, fun given => ih given (h.2 given)⟩

protected theorem Marks.map {asking : ε → Bool} {reading : Reading ε ρ} (h : reading.Marks asking)
    (f : ρ → σ) : (reading.map f).Marks asking :=
  h.bind fun _ => trivial

/-- The steps with a call are those that are asking. -/
theorem Marks.log {asking : ε → Bool} {reading : Reading ε ρ} (h : reading.Marks asking)
    (input : List UInt8) :
    ∀ entry ∈ (reading.on input).log, entry.2.isSome = asking entry.1 := by
  induction reading generalizing input with
  | done result => exact fun entry hentry => absurd hentry List.not_mem_nil
  | notes step rest ih =>
    intro entry hentry
    rcases List.mem_cons.1 hentry with rfl | hentry
    · exact h.1.symm
    · exact ih h.2 input entry hentry
  | asks step next ih =>
    intro entry hentry
    rcases List.mem_cons.1 hentry with rfl | hentry
    · exact h.1.symm
    · exact ih _ (h.2 _) _ entry hentry

/-! ### The calls of a reading -/

/-- What asks for a line asks for the first one. -/
theorem on_asks (step : ε) (next : Except RuntimeFault Value → Reading ε ρ) (input : List UInt8) :
    (Reading.asks step next).on input =
      let first := Delivery.nth input 0
      let later := (next first.given).on (Line.split input).2
      { later with log := (step, some first) :: later.log } := by
  rw [Delivery.nth_zero]
  rfl

/-- The calls are those of the first pieces, as many as there are calls, and the bytes that are left are
the pieces behind them. -/
theorem calls_on (reading : Reading ε ρ) (input : List UInt8) :
    (∀ k call, (reading.on input).calls[k]? = some call → call = Delivery.nth input k)
      ∧ (reading.on input).left
        = ((Line.pieces input).drop (reading.on input).calls.length).flatten := by
  induction reading generalizing input with
  | done result =>
    exact ⟨fun k call h => by simp [on, Outcome.calls] at h, (Line.flatten_pieces input).symm⟩
  | notes step rest ih => exact ih input
  | asks step next ih =>
    rw [on_asks]
    obtain ⟨hcalls, hleft⟩ := ih (Delivery.nth input 0).given (Line.split input).2
    constructor
    · intro k call h
      cases k with
      | zero =>
        cases h
        rfl
      | succ k =>
        rw [Delivery.nth_succ]
        exact hcalls k call h
    · exact hleft.trans (congrArg List.flatten (Line.drop_pieces_succ input _).symm)

/-- What the calls take and what is left is the input. -/
theorem taken_on (reading : Reading ε ρ) (input : List UInt8) :
    ((reading.on input).calls.map Delivery.taken).flatten ++ (reading.on input).left = input := by
  induction reading generalizing input with
  | done result => rfl
  | notes step rest ih => exact ih input
  | asks step next ih =>
    rw [on_asks]
    have htaken : (Delivery.nth input 0).taken = (Line.split input).1 := by rw [Delivery.nth_zero]
    let later := (next (Delivery.nth input 0).given).on (Line.split input).2
    have hlater : (later.calls.map Delivery.taken).flatten ++ later.left = (Line.split input).2 :=
      ih (Delivery.nth input 0).given (Line.split input).2
    show ((Delivery.nth input 0).taken :: later.calls.map Delivery.taken).flatten ++ later.left = input
    rw [List.flatten_cons, List.append_assoc, hlater, htaken]
    exact Line.split_append input

end Reading

/-- The calls have read an input up to the bytes that are left. -/
structure Delivered (input : List UInt8) (calls : List Delivery) (left : List UInt8) : Prop where
  /-- Each call takes the piece with its number, and nothing if there is none. -/
  taken : ∀ (k : Nat) (call : Delivery), calls[k]? = some call →
    call.taken = (Line.pieces input)[k]?.getD []
  /-- A piece that is UTF-8 is given as a text, without what ends its line. -/
  text : ∀ (k : Nat) (call : Delivery) (piece : List UInt8), calls[k]? = some call →
    (Line.pieces input)[k]? = some piece → ∀ source, Lexer.bytes source = piece →
      ∃ text, call.given = .ok (.string text) ∧ Line.Ends (Lexer.bytes text) piece
  /-- For a piece that is not, the call fails. -/
  unreadable : ∀ (k : Nat) (call : Delivery) (piece : List UInt8), calls[k]? = some call →
    (Line.pieces input)[k]? = some piece → (∀ source, Lexer.bytes source ≠ piece) →
      call.given = .error .unreadableInput
  /-- Behind the last piece every call gives `nil`. -/
  ended : ∀ (k : Nat) (call : Delivery), calls[k]? = some call →
    (Line.pieces input)[k]? = none → call.given = .ok .nil
  left_eq : left = ((Line.pieces input).drop calls.length).flatten
  /-- No byte is left out, and none is taken twice. -/
  all : (calls.map Delivery.taken).flatten ++ left = input

/-- However many lines a reading asks for, they are the lines of the input, in order. -/
theorem Reading.delivered_on {ε ρ : Type} (reading : Reading ε ρ) (input : List UInt8) :
    Delivered input (reading.on input).calls (reading.on input).left := by
  obtain ⟨hcalls, hleft⟩ := reading.calls_on input
  refine ⟨?_, ?_, ?_, ?_, hleft, reading.taken_on input⟩
  · intro k call hcall
    rw [hcalls k call hcall, Delivery.nth]
    cases (Line.pieces input)[k]? <;> rfl
  · intro k call piece hcall hpiece source hsource
    obtain ⟨text, htext, hends⟩ :=
      Line.ofBytes_eq_text (Line.isPiece_of_mem (List.mem_of_getElem? hpiece)) hsource
    refine ⟨text, ?_, hends⟩
    simp only [hcalls k call hcall, Delivery.nth, hpiece, htext, Line.value]
  · intro k call piece hcall hpiece hsource
    have hread := Line.ofBytes_eq_unreadable
      (Line.isPiece_of_mem (List.mem_of_getElem? hpiece)) hsource
    simp only [hcalls k call hcall, Delivery.nth, hpiece, hread, Line.value]
  · intro k call hcall hnone
    simp only [hcalls k call hcall, Delivery.nth, hnone]

end Lox
