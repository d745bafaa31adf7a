import Lox.Proofs.Journal.Limited
import Lox.Proofs.Lines.Reading

/-!
The lines that programs read. All that the programs of a session do, they do as a `Reading` that does not
depend on the input, with the calls of `readln` as its questions; so their calls take the lines of the
input one after the other (`Session.lines_delivered`).
-/

namespace Lox

/-! ### Inputs -/

/-- The same host with another input. -/
def Host.withInput (input : List UInt8) (h : Host) : Host :=
  { h with console := { h.console with input } }

/-- The same machine with another input. -/
def Machine.withInput (input : List UInt8) (m : Machine) : Machine :=
  m.withHost (m.toHost.withInput input)

/-- The same session with another input. -/
def Session.withInput (input : List UInt8) (s : Session) : Session :=
  { s with machine := s.machine.withInput input }

/-- With another input the run does the same, and leaves the input alone. -/
def Run.Deaf {α : Type} (r : Run α) : Prop :=
  ∀ input m, r (m.withInput input) = mapMachine (Machine.withInput input) (r m)

/-- What does not touch the host does not touch its input. -/
theorem Run.Offline.deaf {α : Type} {r : Run α} (hr : r.Offline) : r.Deaf := by
  intro input m
  exact hr.with_host (Host.withInput input) m

/-- The native functions that do not read. -/
theorem Native.deaf {host : Native} (hread : host ≠ .readln) (arguments : List Value) (line : Nat) :
    (Run.ofHost (host.call arguments line)).Deaf := by
  intro input m
  have hprint (text : String) :
      let use : EStateM Stop Host Value := Host.print text line >>= fun _ => pure .nil
      Run.ofHost use (m.withInput input) = mapMachine (Machine.withInput input) (Run.ofHost use m) := by
    intro use
    rw [Run.ofHost_print, Run.ofHost_print]
    show Run.wrote line (m.console.output.write text) _ = _
    unfold Run.wrote
    cases (m.console.output.write text).1 <|> (m.console.output.write text).2.writeFault? <;> rfl
  cases host with
  | readln => exact absurd rfl hread
  | print | println => exact hprint _
  | clock => rfl
  | parseNum =>
    simp only [Run.ofHost, Native.call]
    cases (arguments.headD .nil).parseNum <;> rfl

/-! ### Calls of `readln` -/

/-- A call of `readln`. -/
def Event.isReadln : Event → Bool
  | .invoked (.native .readln) _ _ => true
  | _ => false

/-- What a native function that is called on this line comes to. -/
def Run.given (line : Nat) (given : Except RuntimeFault Value) (m : Machine) :
    EStateM.Result Stop Machine Value :=
  match given with
  | .ok v => .ok v m
  | .error cause => .error (.fault line cause) m

/-- A call of `readln` takes the first piece of the input, and comes to what that gives. -/
theorem Run.readln (arguments : List Value) (line : Nat) (m : Machine) :
    Run.ofHost (Native.readln.call arguments line) m
      = Run.given line (Delivery.nth m.console.input 0).given
        (m.withInput (Line.split m.console.input).2) := by
  rw [Delivery.nth_zero]
  simp only [Run.ofHost, Native.call, Bind.bind, EStateM.bind, Host.readLine, Console.readLine]
  cases Line.ofBytes (Line.split m.console.input).1 <;> rfl

/-! ### Runs as readings -/

/-- What is done, and what comes of it, is a reading of the input, whatever the input is. -/
def Reads {α : Type} (t : Journaled α) : Prop :=
  ∀ m : Machine, ∃ reading : Reading Event (EStateM.Result Stop Machine α),
    reading.Marks Event.isReadln ∧ ∀ input,
      let o := reading.on input
      t (m.withInput input) = (mapMachine (Machine.withInput o.left) o.result, o.steps)

namespace Reads

variable {α β : Type} {t : Journaled α}

/-- What is read after a run: nothing if the run has stopped. -/
def following (later : α → Machine → Reading Event (EStateM.Result Stop Machine β)) :
    EStateM.Result Stop Machine α → Reading Event (EStateM.Result Stop Machine β)
  | .ok a n => later a n
  | .error stop n => .done (.error stop n)

/-- A run that does not touch the input. -/
theorem deaf {r : Run α} (hr : r.Deaf) : Reads (Journaled.quiet r) := by
  intro m
  refine ⟨.done (r m), trivial, fun input => ?_⟩
  exact congrArg (·, []) (hr input m)

/-- What is no call of `readln` takes no line. -/
theorem note {event : Event} (h : event.isReadln = false) : Reads (Journaled.note event) :=
  fun m => ⟨.notes event (.done (.ok () m)), ⟨h, trivial⟩, fun _ => rfl⟩

/-- One run after the other: what is read first decides from which machine the second one starts. -/
protected theorem bind {next : α → Journaled β} (ht : Reads t) (hnext : ∀ a, Reads (next a)) :
    Reads (t >>= next) := by
  intro m
  obtain ⟨reading, hmarks, hreading⟩ := ht m
  choose later hlater using hnext
  refine ⟨reading.bind (following later), hmarks.bind ?_, fun input => ?_⟩
  · rintro (⟨a, n⟩ | ⟨stop, n⟩)
    · exact (hlater a n).1
    · trivial
  · have hfirst := hreading input
    rw [Reading.on_bind]
    generalize reading.on input = o at hfirst
    rcases o with ⟨⟨a, n⟩ | ⟨stop, n⟩, left, log⟩
    · rw [Journaled.bind_ok hfirst, (hlater a n).2 left]
      exact congrArg _ (List.map_append).symm
    · rw [Journaled.bind_error hfirst]
      exact congrArg (_, List.map Prod.fst ·) (List.append_nil log).symm

theorem within (inside : Environment) (ht : Reads t) : Reads (t.within inside) := by
  intro m
  obtain ⟨reading, hmarks, hreading⟩ := ht { m with environment := inside }
  refine ⟨reading.map (mapMachine fun n => { n with environment := m.environment }),
    hmarks.map _, fun input => ?_⟩
  have hinside := hreading input
  rw [Reading.on_map]
  generalize reading.on input = o at hinside
  have hwithin : t.within inside (m.withInput input)
      = (mapMachine (fun n => { n with environment := m.environment })
          (t ({ m with environment := inside }.withInput input)).1,
        (t ({ m with environment := inside }.withInput input)).2) :=
    Prod.ext (Run.within_eq inside t.run (m.withInput input)) rfl
  rw [hwithin, hinside]
  refine Prod.ext ?_ rfl
  show mapMachine _ (mapMachine _ o.result) = mapMachine _ (mapMachine _ o.result)
  cases o.result <;> rfl

/-- A call of `readln` asks for one line. -/
theorem readln (arguments : List Value) (line : Nat) :
    Reads (Native.readln.journal arguments line) := by
  intro m
  refine ⟨.asks (.invoked (.native .readln) arguments line) fun given =>
    .done (Run.given line given m), ⟨rfl, fun _ => trivial⟩, fun input => ?_⟩
  rw [Reading.on_asks]
  refine Prod.ext ((Run.readln arguments line (m.withInput input)).trans ?_) rfl
  show Run.given line (Delivery.nth input 0).given _ = mapMachine _ (Run.given line _ m)
  cases (Delivery.nth input 0).given <;> rfl

end Reads

/-- Every run is a reading of its input. -/
def Trait.reads : Trait where
  Holds := Reads
  quiet hr := .deaf hr.deaf
  bind := .bind
  within inside ht := ht.within inside
  evaluated _ := .note rfl
  executed _ := .note rfl
  invoked callee _ _ hcallee _ := by
    cases callee with
    | native host => exact absurd rfl (hcallee host)
    | function closure => exact .note rfl
    | classOf description => exact .note rfl
  native host arguments line _ := by
    cases host with
    | readln => exact .readln arguments line
    | clock | print | println | parseNum =>
      exact .bind (.note rfl) fun _ => .deaf (Native.deaf (by nofun) arguments line)

/-! ### Sessions -/

namespace Session

/-- What a session does with programs that are run one after the other: the answers, the session at the
end, and all that is done on the way. -/
structure Conduct where
  answers : List (Answer Unit)
  final : Session
  events : List Event

/-- Runs programs one after the other, each with its own fuel. -/
def conduct : List (Nat × String) → Session → Conduct
  | [], s => ⟨[], s, []⟩
  | (fuel, source) :: rest, s =>
    let (answer, next) := s.run fuel source
    let later := conduct rest next
    ⟨answer :: later.answers, later.final, s.journal fuel source ++ later.events⟩

/-- A single program. -/
theorem reads_run (s : Session) (fuel : Nat) (source : String) :
    ∃ reading : Reading Event (Answer Unit × Session),
      reading.Marks Event.isReadln ∧ ∀ input,
        let o := reading.on input
        (s.withInput input).run fuel source = (o.result.1, o.result.2.withInput o.left)
          ∧ (s.withInput input).journal fuel source = o.steps := by
  cases hread : s.limit.read? s.nextId source with
  | none =>
    obtain ⟨-, faults, n, hrun⟩ := run_of_read?_none hread
    refine ⟨.done (.failure faults, { s with nextId := n }), trivial, fun input => ⟨?_, ?_⟩⟩
    · exact hrun (s.machine.withInput input) fuel
    · exact (run_of_read?_none (s := s.withInput input) hread).1 fuel
  | some r =>
    obtain ⟨p, d, n⟩ := r
    obtain ⟨reading, hmarks, hreading⟩ := Trait.reads.program fuel p (s.machine.addDistances d)
    let answer (r : EStateM.Result Stop Machine Unit) : Answer Unit × Session :=
      let outcome := Run.answer (fun _ => r) s.machine
      (outcome.1.flushed outcome.2.toHost, { s with nextId := n, machine := outcome.2 })
    refine ⟨reading.map answer, hmarks.map answer, fun input => ?_⟩
    obtain ⟨hjournal, hrun⟩ := run_of_read? (s := s.withInput input) hread fuel
    have hprogram := hreading input
    have hmachine : (s.withInput input).machine.addDistances d
        = (s.machine.addDistances d).withInput input := rfl
    rw [Reading.on_map, hjournal, hrun, hmachine]
    unfold Run.answer Journaled.run
    rw [hprogram]
    generalize reading.on input = o
    refine ⟨?_, rfl⟩
    rcases o with ⟨⟨a, k⟩ | ⟨_ | _, k⟩, left, log⟩ <;> rfl

/-- Programs one after the other: each goes on with the input where the one before has left it. -/
theorem reads_conduct (runs : List (Nat × String)) (s : Session) :
    ∃ reading : Reading Event (List (Answer Unit) × Session),
      reading.Marks Event.isReadln ∧ ∀ input,
        let o := reading.on input
        (s.withInput input).conduct runs = ⟨o.result.1, o.result.2.withInput o.left, o.steps⟩ := by
  induction runs generalizing s with
  | nil => exact ⟨.done ([], s), trivial, fun input => rfl⟩
  | cons run rest ih =>
    obtain ⟨fuel, source⟩ := run
    obtain ⟨reading, hmarks, hreading⟩ := s.reads_run fuel source
    choose later hlater using ih
    refine ⟨reading.bind fun r => (later r.2).map fun rest => (r.1 :: rest.1, rest.2),
      hmarks.bind fun r => (hlater r.2).1.map _, fun input => ?_⟩
    obtain ⟨hrun, hjournal⟩ := hreading input
    rw [Reading.on_bind]
    generalize reading.on input = o at hrun hjournal
    rw [conduct, hrun, hjournal]
    dsimp only
    rw [Reading.on_map, (hlater o.result.2).2 o.left]
    generalize (later o.result.2).on o.left = o'
    exact congrArg (Conduct.mk _ _) List.map_append.symm

/-- Whatever programs a session runs, there is a reading that does, on every input, what they do, with
their calls of `readln` as those of its steps that ask for a line. The input is cut behind each newline,
and the calls take the pieces, each the one with its number: a call gives the text of the piece without
what ends its line, or fails if that is not UTF-8, and gives `nil` behind the last piece. No byte is left
out or taken twice. And so does every call of `readln` on its own. -/
theorem lines_delivered (s : Session) (runs : List (Nat × String)) :
    (∃ reading : Reading Event (List (Answer Unit) × Session), ∀ input,
      let o := reading.on input
      (s.withInput input).conduct runs = ⟨o.result.1, o.result.2.withInput o.left, o.steps⟩
        ∧ (∀ entry ∈ o.log, entry.2.isSome = entry.1.isReadln)
        ∧ Line.IsCut input (Line.pieces input)
        ∧ Delivered input o.calls o.left)
      ∧ ∀ (arguments : List Value) (line : Nat) (m : Machine), ∃ call left,
        Run.ofHost (Native.readln.call arguments line) m = Run.given line call.given (m.withInput left)
          ∧ Delivered m.console.input [call] left := by
  constructor
  · obtain ⟨reading, hmarks, hreading⟩ := reads_conduct runs s
    refine ⟨reading, fun input => ⟨hreading input, hmarks.log input, ?_, ?_⟩⟩
    · exact Line.isCut_pieces input
    · exact reading.delivered_on input
  · intro arguments line m
    have hdelivered := (Reading.asks () fun _ => .done ()).delivered_on m.console.input
    rw [Reading.on_asks] at hdelivered
    exact ⟨_, _, Run.readln arguments line m, hdelivered⟩

/-- The first program stops at the line that is not UTF-8, and the second one goes on behind it. -/
example :
    let s : Session := { machine := .fresh {} fun _ => 0 }
    let input : List UInt8 := [97, 13, 10, 255, 13, 10, 10, 98, 13]
    let outcome := (s.withInput input).conduct
      [(20, "print(readln());\nprint(readln());"), (20, "print(readln() + \"-\" + readln());"),
        (20, "print(readln());")]
    outcome.answers = [.failure [.runtime 2 .unreadableInput], .success (), .success ()]
      ∧ outcome.final.machine.console.output.written = "a-b\rnil".toUTF8
      ∧ outcome.final.machine.console.input = [] := by
  decide +kernel

end Session

end Lox
