import Lox.Proofs.Execution.Undisturbed
import Lox.Proofs.Journal.Arguments

/-!
Outputs that take only so many bytes. A run with such an output does what the run with an unlimited one
does up to the first call whose text does not fit. It writes what fits of that, and there it ends, with the
fault of that call and with nothing done after it (`Session.run_limited`).
-/

namespace Lox

/-! ### Bytes -/

/-- The first bytes are all bytes if there are no more. -/
theorem extract_all {a : ByteArray} {n : Nat} (h : a.size ≤ n) : a.extract 0 n = a := by
  rw [← Nat.max_eq_left h, ByteArray.extract_zero_max_size]

/-- The first bytes are those of the first part if it has as many. -/
theorem extract_first {a : ByteArray} {n : Nat} (h : n ≤ a.size) (b : ByteArray) :
    (a ++ b).extract 0 n = a.extract 0 n := by
  rw [ByteArray.extract_append, ByteArray.extract_eq_empty_iff (b := b).2 (by omega),
    ByteArray.append_empty]

/-! ### Writing -/

/-- The same output with another capacity. -/
def Output.withCapacity (capacity : Option Nat) (out : Output) : Output :=
  { out with capacity }

/-- The same host with another output. -/
def Host.withOutput (out : Output) (h : Host) : Host :=
  { h with console := { h.console with output := out } }

/-- The same machine with another output. -/
def Machine.withOutput (out : Output) (m : Machine) : Machine :=
  m.withHost (m.toHost.withOutput out)

/-- The same machine with an output of another capacity. -/
def Machine.withCapacity (capacity : Option Nat) (m : Machine) : Machine :=
  m.withOutput (m.console.output.withCapacity capacity)

section

variable {out : Output} {text : String} {N : Nat}

theorem Output.write_unlimited (h : out.capacity = Capacity.ofLimit none) (text : String) :
    out.write text
      = (none, { out with written := out.written ++ text.toUTF8, given := text :: out.given }) := by
  simp [write, take, h, Capacity.ofLimit]

/-- What is kept of a text if so many bytes are taken in all. -/
theorem Output.take_limited (out : Output) (text : String) (N : Nat) :
    (out.withCapacity (some N)).take text
      = (if N - out.written.size < text.toUTF8.size then some .full else none,
        text.toUTF8.extract 0 (min text.toUTF8.size (N - out.written.size))) := rfl

/-- A text that fits is written as if there were no limit. -/
theorem Output.write_fits (h : (out.written ++ text.toUTF8).size ≤ N) :
    (out.withCapacity (some N)).write text
      = (none, withCapacity (some N)
        { out with written := out.written ++ text.toUTF8, given := text :: out.given }) := by
  rw [ByteArray.size_append] at h
  have hroom : text.toUTF8.size ≤ N - out.written.size := by omega
  have htake : (out.withCapacity (some N)).take text = (none, text.toUTF8) := by
    rw [take_limited, if_neg (Nat.not_lt.2 hroom), Nat.min_eq_left hroom,
      ByteArray.extract_zero_size]
  simp only [write, htake]
  rfl

/-- Of a text that does not fit, as much is written as fits. -/
theorem Output.write_full (hroom : out.written.size ≤ N)
    (h : N < (out.written ++ text.toUTF8).size) :
    (out.withCapacity (some N)).write text
      = (some .full, withCapacity (some N)
        { out with
          written := (out.written ++ text.toUTF8).extract 0 N
          given := text :: out.given }) := by
  rw [ByteArray.size_append] at h
  have hbeyond : N - out.written.size < text.toUTF8.size := by omega
  have htake : (out.withCapacity (some N)).take text
      = (some .full, text.toUTF8.extract 0 (N - out.written.size)) := by
    rw [take_limited, if_pos hbeyond, Nat.min_eq_right (Nat.le_of_lt hbeyond)]
  have hwritten : (out.written ++ text.toUTF8).extract 0 N
      = out.written ++ text.toUTF8.extract 0 (N - out.written.size) := by
    rw [ByteArray.extract_append, extract_all hroom, Nat.zero_sub]
  simp only [write, htake, hwritten]
  rfl

end

/-! ### What is printed -/

/-- The text that is printed when something is done. -/
def Event.text : Event → String
  | .invoked (.native .print) arguments _ => (arguments.headD .nil).display
  | .invoked (.native .println) arguments _ => (arguments.headD .nil).display ++ "\n"
  | _ => ""

/-- The bytes of all that is printed. -/
def printed : List Event → ByteArray
  | [] => .empty
  | event :: rest => event.text.toUTF8 ++ printed rest

theorem printed_append (events later : List Event) :
    printed (events ++ later) = printed events ++ printed later := by
  induction events with
  | nil => rw [List.nil_append, printed, ByteArray.empty_append]
  | cons event rest ih => rw [List.cons_append, printed, printed, ih, ByteArray.append_assoc]

theorem printed_singleton (event : Event) : printed [event] = event.text.toUTF8 := by
  rw [printed, printed, ByteArray.append_empty]

/-! ### Limits -/

/-- With `w` written, and with what is printed before, this call prints the first text that does not fit
into `N` bytes. -/
structure Overflows (N : Nat) (w : ByteArray) (before : List Event) (host : Native) (v : Value)
    (line : Nat) : Prop where
  prints : host = .print ∨ host = .println
  room : (w ++ printed before).size ≤ N
  beyond : N < (w ++ printed (before ++ [.invoked (.native host) [v] line])).size

/-- A result with an unlimited output, `w` being written before, and the one with an output that takes `N`
bytes. Either all that is printed fits, and they are the same. Or there is a first call that prints what
does not fit; then what has been written is what fits of it, this call is the last thing that is done, and
its fault is the result. -/
inductive Cut (N : Nat) (w : ByteArray) {α : Type} :
    EStateM.Result Stop Machine α × List Event → EStateM.Result Stop Machine α × List Event → Prop
  | fits (r : EStateM.Result Stop Machine α) {events : List Event}
    (h : (w ++ printed events).size ≤ N) :
    Cut N w (r, events) (mapMachine (Machine.withCapacity (some N)) r, events)
  | full (r : EStateM.Result Stop Machine α) {before : List Event} {host : Native} {v : Value}
    {line : Nat} (after : List Event) {n : Machine} (h : Overflows N w before host v line)
    (hwritten : n.console.output.written
      = (w ++ printed (before ++ [.invoked (.native host) [v] line])).extract 0 N) :
    Cut N w (r, before ++ .invoked (.native host) [v] line :: after)
      (.error (.fault line (.unwritableOutput .full)) n, before ++ [.invoked (.native host) [v] line])

/-- With an unlimited output all is written that is printed, and a limit cuts the run. -/
def LimitedTo (N : Nat) {α : Type} (t : Journaled α) : Prop :=
  ∀ m : Machine, m.console.output.capacity = Capacity.ofLimit none →
    ((machineOf (t m).1).console.output.capacity = Capacity.ofLimit none
      ∧ (machineOf (t m).1).console.output.written = m.console.output.written ++ printed (t m).2)
      ∧ (m.console.output.written.size ≤ N →
        Cut N m.console.output.written (t m) (t (m.withCapacity (some N))))

namespace Cut

variable {N : Nat} {w : ByteArray} {α β : Type}

/-- Something is done before that fits. -/
theorem after {w' : ByteArray} {r r' : EStateM.Result Stop Machine α} {events events' : List Event}
    (earlier : List Event) (hw : w' = w ++ printed earlier)
    (h : Cut N w' (r, events) (r', events')) :
    Cut N w (r, earlier ++ events) (r', earlier ++ events') := by
  subst hw
  have hprinted (es : List Event) : w ++ printed earlier ++ printed es = w ++ printed (earlier ++ es) := by
    rw [printed_append, ByteArray.append_assoc]
  cases h with
  | fits r h => exact .fits r (by rwa [← hprinted])
  | full r later h hwritten =>
    obtain ⟨hprints, hroom, hbeyond⟩ := h
    rw [hprinted] at hroom hbeyond hwritten
    rw [← List.append_assoc] at hbeyond hwritten ⊢
    rw [← List.append_assoc]
    exact .full r later ⟨hprints, hroom, hbeyond⟩ hwritten

/-- Another environment is put in force behind both of them. -/
theorem restore (environment : Environment)
    {x y : EStateM.Result Stop Machine α × List Event} (h : Cut N w x y) :
    Cut N w (mapMachine (fun n => { n with environment }) x.1, x.2)
      (mapMachine (fun n => { n with environment }) y.1, y.2) := by
  cases h with
  | @fits r events h =>
    have hboth : mapMachine (fun n : Machine => { n with environment })
        (mapMachine (Machine.withCapacity (some N)) r)
          = mapMachine (Machine.withCapacity (some N))
            (mapMachine (fun n => { n with environment }) r) := by
      cases r <;> rfl
    dsimp only
    rw [hboth]
    exact .fits _ h
  | full r after h hwritten => exact .full _ after h hwritten

end Cut

/-- A run in another environment. -/
theorem Run.within_eq {α : Type} (inside : Environment) (r : Run α) (m : Machine) :
    Run.within inside r m
      = mapMachine (fun n => { n with environment := m.environment })
        (r { m with environment := inside }) := by
  unfold Run.within
  cases r { m with environment := inside } <;> rfl

/-- The result of a call that has written something, after which the output is flushed. -/
def Run.wrote (line : Nat) (write : Option OutputFault × Output) : Run Value := fun m =>
  match write.1 <|> write.2.writeFault? with
  | none => .ok .nil (m.withOutput write.2)
  | some cause => .error (.fault line (.unwritableOutput cause)) (m.withOutput write.2)

theorem Run.ofHost_print (text : String) (line : Nat) (m : Machine) :
    Run.ofHost (Host.print text line >>= fun _ => pure .nil) m
      = Run.wrote line (m.console.output.write text) m := by
  simp only [Run.ofHost, Run.wrote, Bind.bind, EStateM.bind, Host.print, Console.print]
  cases (m.console.output.write text).1 <|> (m.console.output.write text).2.writeFault? <;> rfl

theorem Run.machineOf_wrote (line : Nat) (write : Option OutputFault × Output) (m : Machine) :
    machineOf (Run.wrote line write m) = m.withOutput write.2 := by
  unfold Run.wrote
  split <;> rfl

theorem Run.wrote_withCapacity (line : Nat) (capacity : Option Nat) (out : Output) (m : Machine) :
    Run.wrote line (none, out.withCapacity capacity) (m.withCapacity capacity)
      = mapMachine (Machine.withCapacity capacity) (Run.wrote line (none, out) m) := by
  show (match out.writeFault? with
    | none => _
    | some cause => _) = mapMachine _ (match out.writeFault? with
    | none => _
    | some cause => _)
  cases out.writeFault? <;> rfl

/-! ### Runs that do not touch the output -/

/-- With another output the run does the same, and leaves the output alone. -/
def Run.Silent {α : Type} (r : Run α) : Prop :=
  ∀ out m, r (m.withOutput out) = mapMachine (Machine.withOutput out) (r m)

/-- What does not touch the host does not touch its output. -/
theorem Run.Offline.silent {α : Type} {r : Run α} (hr : r.Offline) : r.Silent := by
  intro out m
  exact hr.with_host (Host.withOutput out) m

/-- The native functions that do not print. -/
theorem Native.silent {host : Native} (hprint : host ≠ .print) (hprintln : host ≠ .println)
    (arguments : List Value) (line : Nat) : (Run.ofHost (host.call arguments line)).Silent := by
  intro out m
  cases host with
  | print => exact absurd rfl hprint
  | println => exact absurd rfl hprintln
  | clock => rfl
  | readln =>
    have hread : (m.withOutput out).console.readLine.1 = m.console.readLine.1 := rfl
    simp only [Run.ofHost, Native.call, Bind.bind, EStateM.bind, Host.readLine, hread]
    cases m.console.readLine.1 <;> rfl
  | parseNum =>
    simp only [Run.ofHost, Native.call]
    cases (arguments.headD .nil).parseNum <;> rfl

namespace LimitedTo

variable {N : Nat} {α β : Type} {t : Journaled α}

/-- A run that does not touch the output. -/
theorem silent {r : Run α} (hr : r.Silent) : LimitedTo N (Journaled.quiet r) := by
  intro m hcap
  have hkept : mapMachine (Machine.withOutput m.console.output) (r m) = r m :=
    (hr m.console.output m).symm
  have hout : (machineOf (r m)).console.output = m.console.output := by
    rw [← hkept]
    cases r m <;> rfl
  refine ⟨⟨?_, ?_⟩, fun hroom => ?_⟩
  · exact (congrArg Output.capacity hout).trans hcap
  · exact (congrArg Output.written hout).trans ByteArray.append_empty.symm
  · have hlimited : r (m.withCapacity (some N)) = mapMachine (Machine.withCapacity (some N)) (r m) := by
      rw [Machine.withCapacity, hr, ← hkept]
      cases r m <;> rfl
    show Cut N _ (r m, []) (r (m.withCapacity (some N)), [])
    rw [hlimited]
    exact .fits _ (by rwa [printed, ByteArray.append_empty])

/-- What prints nothing. -/
theorem note {event : Event} (h : event.text = "") : LimitedTo N (Journaled.note event) := by
  have hnothing : printed [event] = .empty := by
    rw [printed_singleton, h]
    rfl
  intro m hcap
  refine ⟨⟨hcap, ?_⟩, fun hroom => .fits (.ok () m) ?_⟩
  · show m.console.output.written = m.console.output.written ++ printed [event]
    rw [hnothing, ByteArray.append_empty]
  · rwa [hnothing, ByteArray.append_empty]

protected theorem bind {next : α → Journaled β} (ht : LimitedTo N t)
    (hnext : ∀ a, LimitedTo N (next a)) : LimitedTo N (t >>= next) := by
  intro m hcap
  obtain ⟨⟨hcap', hwritten⟩, hcut⟩ := ht m hcap
  rcases hm : t m with ⟨⟨a, k⟩ | ⟨stop, k⟩, events⟩
  · rw [hm] at hcap' hwritten hcut
    obtain ⟨⟨hcap'', hwritten'⟩, hcut'⟩ := hnext a k hcap'
    rw [Journaled.bind_ok hm]
    refine ⟨⟨hcap'', ?_⟩, fun hroom => ?_⟩
    · rw [hwritten', printed_append, ← ByteArray.append_assoc]
      exact congrArg (· ++ printed (next a k).2) hwritten
    · have hcut := hcut hroom
      generalize hl : t (m.withCapacity (some N)) = limited at hcut
      cases hcut with
      | fits _ h =>
        have hok : t (m.withCapacity (some N)) = (.ok a (k.withCapacity (some N)), events) := hl
        rw [Journaled.bind_ok hok]
        have hfits : k.console.output.written.size ≤ N := by
          rw [show k.console.output.written = _ from hwritten]
          exact h
        exact (hcut' hfits).after events hwritten
      | full _ after h hkept =>
        rw [Journaled.bind_error hl, List.append_assoc, List.cons_append]
        exact .full _ _ h hkept
  · rw [hm] at hcap' hwritten hcut
    rw [Journaled.bind_error hm]
    refine ⟨⟨hcap', hwritten⟩, fun hroom => ?_⟩
    have hcut := hcut hroom
    generalize hl : t (m.withCapacity (some N)) = limited at hcut
    cases hcut with
    | fits _ h =>
      have herror : t (m.withCapacity (some N)) = (.error stop (k.withCapacity (some N)), events) := hl
      rw [Journaled.bind_error herror]
      exact .fits (.error stop k) h
    | full _ after h hkept =>
      rw [Journaled.bind_error hl]
      exact .full _ after h hkept

theorem within (inside : Environment) (ht : LimitedTo N t) : LimitedTo N (t.within inside) := by
  intro m hcap
  obtain ⟨⟨hcap', hwritten⟩, hcut⟩ := ht { m with environment := inside } hcap
  have hwithin (n : Machine) : t.within inside n
      = (mapMachine (fun k => { k with environment := n.environment })
          (t { n with environment := inside }).1, (t { n with environment := inside }).2) :=
    Prod.ext (Run.within_eq inside t.run n) rfl
  have hmachine : machineOf (t.within inside m).1
      = { machineOf (t { m with environment := inside }).1 with environment := m.environment } := by
    rw [hwithin]
    cases (t { m with environment := inside }).1 <;> rfl
  rw [hmachine]
  refine ⟨⟨hcap', hwritten⟩, fun hroom => ?_⟩
  rw [hwithin, hwithin]
  exact (hcut hroom).restore m.environment

/-- A call of a native function that prints. -/
theorem print {host : Native} (hprints : host = .print ∨ host = .println) (v : Value) (line : Nat)
    (hcall : host.call [v] line =
      Host.print (Event.invoked (.native host) [v] line).text line >>= fun _ => pure .nil) :
    LimitedTo N (host.journal [v] line) := by
  generalize hevent : Event.invoked (.native host) [v] line = event at hcall
  have hjournal (n : Machine) : host.journal [v] line n
      = (Run.wrote line (n.console.output.write event.text) n, [event]) := by
    rw [← Run.ofHost_print, ← hcall, ← hevent]
    rfl
  intro m hcap
  rw [hjournal, hjournal, Output.write_unlimited hcap, printed_singleton]
  refine ⟨?_, fun hroom => ?_⟩
  · rw [Run.machineOf_wrote]
    exact ⟨hcap, rfl⟩
  · show Cut N _ _ (Run.wrote line ((m.console.output.withCapacity (some N)).write event.text)
      (m.withCapacity (some N)), _)
    by_cases hfits : (m.console.output.written ++ event.text.toUTF8).size ≤ N
    · rw [Output.write_fits hfits, Run.wrote_withCapacity]
      exact .fits _ (by rwa [printed_singleton])
    · rw [Output.write_full hroom (Nat.lt_of_not_le hfits)]
      subst hevent
      refine @Cut.full N _ _ _ [] host v line [] _ ⟨hprints, ?_, ?_⟩ ?_
      · rwa [printed, ByteArray.append_empty]
      · rw [List.nil_append, printed_singleton]
        exact Nat.lt_of_not_le hfits
      · rw [List.nil_append, printed_singleton]
        rfl

end LimitedTo

/-- A limited output cuts every run. -/
def Trait.limitedTo (N : Nat) : Trait where
  Holds := LimitedTo N
  quiet hr := .silent hr.silent
  bind := .bind
  within inside ht := ht.within inside
  evaluated _ := .note rfl
  executed _ := .note rfl
  invoked callee _ _ hcallee _ := by
    cases callee with
    | native host => exact absurd rfl (hcallee host)
    | function closure => exact .note rfl
    | classOf description => exact .note rfl
  native host arguments line harity := by
    cases host with
    | print =>
      obtain ⟨v, rfl⟩ := List.length_eq_one_iff.1 harity
      exact .print (.inl rfl) v line rfl
    | println =>
      obtain ⟨v, rfl⟩ := List.length_eq_one_iff.1 harity
      exact .print (.inr rfl) v line rfl
    | clock | readln | parseNum =>
      exact .bind (.note rfl) fun _ => .silent (Native.silent (by nofun) (by nofun) arguments line)

/-! ### Sessions -/

/-- The same session with an output of another capacity. -/
def Session.withCapacity (capacity : Option Nat) (s : Session) : Session :=
  { s with machine := s.machine.withCapacity capacity }

namespace Session

/-- The outcome and the journal of a run with an unlimited output, `w` being written before, and those of
the run with an output that takes `N` bytes in all. -/
structure CutAt (N : Nat) (w : ByteArray) (unlimited : Answer Unit × Session) (events : List Event)
    (limited : Answer Unit × Session) (events' : List Event) : Prop where
  /-- All is written that is printed. -/
  total : unlimited.2.machine.console.output.written = w ++ printed events
  /-- The limited output keeps the first bytes. -/
  kept : limited.2.machine.console.output.written
    = unlimited.2.machine.console.output.written.extract 0
      (min N unlimited.2.machine.console.output.written.size)
  /-- If there are no more, the runs do and answer the same. -/
  fits : unlimited.2.machine.console.output.written.size ≤ N →
    limited = (unlimited.1, unlimited.2.withCapacity (some N)) ∧ events' = events
  /-- If there are more, the limited run ends with the call whose text does not fit, and with its fault. -/
  full : N < unlimited.2.machine.console.output.written.size →
    ∃ before host v line after, Overflows N w before host v line
      ∧ events = before ++ .invoked (.native host) [v] line :: after
      ∧ events' = before ++ [.invoked (.native host) [v] line]
      ∧ limited.1 = .failure [.runtime line (.unwritableOutput .full)]

namespace CutAt

variable {N : Nat} {w : ByteArray} {unlimited limited : Answer Unit × Session}

/-- All that is printed fits. -/
theorem of_fits {events : List Event}
    (htotal : unlimited.2.machine.console.output.written = w ++ printed events)
    (h : (w ++ printed events).size ≤ N)
    (hsame : limited = (unlimited.1, unlimited.2.withCapacity (some N))) :
    CutAt N w unlimited events limited events := by
  rw [← htotal] at h
  refine ⟨htotal, ?_, fun _ => ⟨hsame, rfl⟩, fun hfull => absurd h (Nat.not_le_of_lt hfull)⟩
  rw [Nat.min_eq_right h, ByteArray.extract_zero_size, hsame]
  rfl

/-- A call prints what does not fit. -/
theorem of_full {before after : List Event} {host : Native} {v : Value} {line : Nat}
    (h : Overflows N w before host v line)
    (htotal : unlimited.2.machine.console.output.written
      = w ++ printed (before ++ .invoked (.native host) [v] line :: after))
    (hwritten : limited.2.machine.console.output.written
      = (w ++ printed (before ++ [.invoked (.native host) [v] line])).extract 0 N)
    (hanswer : limited.1 = .failure [.runtime line (.unwritableOutput .full)]) :
    CutAt N w unlimited (before ++ .invoked (.native host) [v] line :: after) limited
      (before ++ [.invoked (.native host) [v] line]) := by
  have hsplit : unlimited.2.machine.console.output.written
      = w ++ printed (before ++ [.invoked (.native host) [v] line]) ++ printed after := by
    rw [htotal, List.append_cons, printed_append, ByteArray.append_assoc]
  have hbeyond : N < unlimited.2.machine.console.output.written.size := by
    rw [hsplit, ByteArray.size_append]
    exact Nat.lt_add_right _ h.beyond
  refine ⟨htotal, ?_, fun hfits => absurd hfits (Nat.not_le_of_lt hbeyond),
    fun _ => ⟨before, host, v, line, after, h, rfl, rfl, hanswer⟩⟩
  rw [Nat.min_eq_left (Nat.le_of_lt hbeyond), hsplit, extract_first (Nat.le_of_lt h.beyond), hwritten]

end CutAt

/-- With an unlimited output, what has been written in the end is what had been before and all that is
printed. An output that takes `N` bytes in all keeps the first `N` of these. If they are not more, the run
does and answers what the other one does. If they are, it does so up to the first call whose text does not
fit, and nothing after that; the fault of this call, on its line, is the answer. -/
theorem run_limited (s : Session) {N : Nat}
    (hroom : s.machine.console.output.written.size ≤ N) (fuel : Nat) (source : String) :
    CutAt N s.machine.console.output.written
      ((s.withCapacity none).run fuel source) ((s.withCapacity none).journal fuel source)
      ((s.withCapacity (some N)).run fuel source) ((s.withCapacity (some N)).journal fuel source) := by
  cases hread : s.limit.read? s.nextId source with
  | none =>
    have hjournal (capacity : Option Nat) : (s.withCapacity capacity).journal fuel source = [] :=
      (run_of_read?_none (s := s.withCapacity capacity) hread).1 fuel
    obtain ⟨-, faults, n, hrun⟩ := run_of_read?_none hread
    have hrun (capacity : Option Nat) : (s.withCapacity capacity).run fuel source
        = (.failure faults, { s.withCapacity capacity with nextId := n }) := hrun _ fuel
    rw [hjournal, hjournal, hrun, hrun]
    exact .of_fits ByteArray.append_empty.symm (by rwa [printed, ByteArray.append_empty]) rfl
  | some r =>
    obtain ⟨p, d, n⟩ := r
    obtain ⟨hjournal, hrun⟩ := run_of_read? (s := s.withCapacity none) hread fuel
    obtain ⟨hjournal', hrun'⟩ := run_of_read? (s := s.withCapacity (some N)) hread fuel
    obtain ⟨⟨-, htotal⟩, hcut⟩ := (Trait.limitedTo N).program fuel p
      ((s.withCapacity none).machine.addDistances d) rfl
    have hcut : Cut N s.machine.console.output.written
        (Journaled.program fuel p ((s.withCapacity none).machine.addDistances d))
        (Journaled.program fuel p ((s.withCapacity (some N)).machine.addDistances d)) := hcut hroom
    rw [hjournal, hjournal', hrun, hrun']
    unfold Run.answer Journaled.run
    generalize Journaled.program fuel p ((s.withCapacity none).machine.addDistances d) = x
      at htotal hcut
    generalize Journaled.program fuel p ((s.withCapacity (some N)).machine.addDistances d) = y at hcut
    cases hcut with
    | fits r h => rcases r with ⟨a, k⟩ | ⟨_ | _, k⟩ <;> exact .of_fits htotal h rfl
    | full r after h hkept =>
      rcases r with ⟨a, k⟩ | ⟨_ | _, k⟩ <;> exact .of_full h htotal hkept rfl

/-- The second call of the function prints what does not fit into four bytes, in the middle of the
evaluation of what is to be printed at last. -/
theorem run_limited_nested :
    let source := "fun f(x) \x7b\n println(x);\n return x;\n\x7d\nprint(f(\"ab\") + f(\"cd\"));"
    let s : Session := { machine := .fresh {} fun _ => 0 }
    let unlimited := (s.withCapacity none).run 20 source
    let limited := (s.withCapacity (some 4)).run 20 source
    unlimited.1 = .success ()
      ∧ unlimited.2.machine.console.output.written = "ab\ncd\nabcd".toUTF8
      ∧ limited.1 = .failure [.runtime 2 (.unwritableOutput .full)]
      ∧ (Diagnostic.runtime 2 (.unwritableOutput .full)).text
        = "Could not write output: failed to write whole buffer\n[line 2]"
      ∧ limited.2.machine.console.output.written = "ab\nc".toUTF8
      ∧ CutAt 4 .empty unlimited ((s.withCapacity none).journal 20 source)
        limited ((s.withCapacity (some 4)).journal 20 source) := by
  intro source s unlimited limited
  refine ⟨by decide +kernel, by decide +kernel, by decide +kernel, by decide +kernel,
    by decide +kernel, ?_⟩
  exact run_limited s (by decide : s.machine.console.output.written.size ≤ 4) 20 source

end Session

end Lox
