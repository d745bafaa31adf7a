import Lox.Proofs.Lexing.Joined
import Lox.Proofs.Scoping.Joined
import Lox.Proofs.Session.Shifted

/-!
Two texts run one after the other, and run as one text with a newline between them. If both are
accepted, so is the whole (`Limit.Reads.join`), and it runs as the two do one after the other: with the
same output and the same globals, but for the lines of the second text (`Joint.success`). To say which
lines those are, they are marked: everything of the session before gets the double of its line, and
every token of the second program an odd line, so that the two cannot be taken for each other
(`Machine.interpretMarked`).
-/

namespace Lox

/-- The text passes all stages before the execution, wherever its numbers begin. -/
def Limit.Accepts (limit : Limit) (source : String) : Prop :=
  ∃ p d n, limit.Reads 0 source p d n

theorem Limit.accepts_iff {limit : Limit} {source : String} :
    limit.Accepts source ↔ (limit.read? 0 source).isSome = true := by
  rw [Option.isSome_iff_exists]
  constructor
  · rintro ⟨p, d, n, hr⟩
    exact ⟨(p, d, n), Limit.read?_eq_some_iff.2 hr⟩
  · rintro ⟨⟨p, d, n⟩, hr⟩
    exact ⟨p, d, n, Limit.read?_eq_some_iff.1 hr⟩

instance (limit : Limit) (source : String) : Decidable (limit.Accepts source) :=
  decidable_of_iff _ Limit.accepts_iff.symm

/-- The two texts on lines of their own. -/
def joinLines (p q : String) : String :=
  p ++ "\n" ++ q

/-- The number of lines before the second one of two texts. -/
def linesBefore (p : String) : Nat :=
  p.toList.count '\n' + 1

namespace Limit

variable {limit : Limit} {n n' n'' : Nat} {source : String} {p q : Program} {d d' : Distances}

theorem Reads.append_nil (h : limit.Reads n source p d n') :
    limit.Reads n source (p ++ []) d n' := by
  rwa [List.append_nil]

theorem Reads.add (h : limit.Reads n source p d n') (k : Nat) :
    ∃ p d, limit.Reads (n + k) source p d (n' + k) := by
  obtain ⟨⟨ts, hts, hp⟩, hd⟩ := h
  have hparsed := parseProgram_add limit n k ts
  rw [hp] at hparsed
  have hinjective : Function.Injective (Relabel.numbers (· + k)).number := fun _ _ h =>
    Nat.add_right_cancel h
  obtain ⟨d', hd', -⟩ := Program.distances_relabel_of_ok (.numbers (· + k)) hinjective hd
  exact ⟨_, d', ⟨ts, hts, hparsed⟩, hd'⟩

/-- An accepted text is read wherever the numbers begin. -/
theorem Accepts.reads (h : limit.Accepts source) (n : Nat) :
    ∃ p d n', limit.Reads n source p d n' := by
  obtain ⟨p, d, n', hr⟩ := h
  obtain ⟨p', d', hr'⟩ := hr.add n
  rw [Nat.zero_add] at hr'
  exact ⟨p', d', _, hr'⟩

/-- Two texts that are accepted are read as one: the second program follows the first one, on lines of
its own, with the same numbers and distances. -/
theorem Reads.join {first second : String} (hp : limit.Reads n first p d n')
    (hq : limit.Reads n' second q d' n'') :
    ∃ joined : Distances,
      limit.Reads n (joinLines first second)
          (p ++ Stmt.relabelEach (.lines (· + linesBefore first)) q) joined n''
        ∧ ∀ id : Nat, joined[id]? = d'[id]?.or d[id]? := by
  obtain ⟨⟨ts, hts, hp⟩, hd⟩ := hp
  obtain ⟨⟨us, hus, hq⟩, hd'⟩ := hq
  obtain ⟨hne, body, stop, rfl, hbody, hstop, htokens⟩ := tokens_join hts hus
  obtain ⟨e, he, hsame⟩ := Program.distances_onLines hd' (· + linesBefore first)
  obtain ⟨joined, hjoined, hlookup⟩ := Program.distances_append hd he
  refine ⟨joined, ⟨⟨_, htokens, parseProgram_join _ hbody hstop hne hp hq⟩, hjoined⟩, ?_⟩
  intro id
  rw [hlookup, hsame]

theorem Accepts.join {first second : String} (hp : limit.Accepts first)
    (hq : limit.Accepts second) : limit.Accepts (joinLines first second) := by
  obtain ⟨p, d, n, hp⟩ := hp
  obtain ⟨q, d', n', hq⟩ := hq.reads n
  obtain ⟨joined, hr, -⟩ := hp.join hq
  exact ⟨_, joined, n', hr⟩

end Limit

/-! ### Lines that tell two programs apart -/

namespace Relabel

/-- The lines of what was there before. -/
def marksOld : Relabel := .lines (2 * ·)

/-- The lines of the program that is run. -/
def marksNew : Relabel := .lines (2 * · + 1)

/-- Takes the marks away; the lines of the program that is run become others. -/
def unmark (f : Nat → Nat) : Relabel :=
  .lines fun line => if line % 2 = 0 then line / 2 else f (line / 2)

theorem marksOld_unmark (f : Nat → Nat) : marksOld.trans (unmark f) = .refl := by
  have hline : (fun line => if 2 * line % 2 = 0 then 2 * line / 2 else f (2 * line / 2))
      = fun line => line := by
    funext line
    rw [if_pos (by omega)]
    omega
  exact congrArg (Relabel.mk · _) hline

theorem marksNew_unmark (f : Nat → Nat) : marksNew.trans (unmark f) = .lines f := by
  have hline : (fun line => if (2 * line + 1) % 2 = 0 then (2 * line + 1) / 2
      else f ((2 * line + 1) / 2)) = f := by
    funext line
    rw [if_neg (by omega), show (2 * line + 1) / 2 = line by omega]
  exact congrArg (Relabel.mk · _) hline

end Relabel

namespace Machine

/-- Runs a program after marking the lines of everything that is there and those of the program. -/
def interpretMarked (fuel : Nat) (q : Program) (m : Machine) : Answer Unit × Machine :=
  { m with store := m.store.relabel .marksOld }.interpret fuel (Stmt.relabelEach .marksNew q)

/-- The second run is the marked one after the marks have been taken away: it gives the same answer,
the same output and the same globals, but for the lines. -/
structure Unmarked (f : Nat → Nat) (marked run : Answer Unit × Machine) : Prop where
  answer : run.1 = marked.1.relabel (.unmark f)
  machine : marked.2.Relabeled (.unmark f) run.2

theorem Unmarked.outOfFuel_iff {f : Nat → Nat} {marked run : Answer Unit × Machine}
    (h : Unmarked f marked run) : run.1 = .outOfFuel ↔ marked.1 = .outOfFuel := by
  rw [h.answer]
  cases marked.1 <;> simp [Answer.relabel]

/-- The program on other lines does what it does with marks. -/
theorem unmarked_interpret {m m' : Machine} (h : m.Relabeled .refl m') (f : Nat → Nat)
    {exact : Prop} {fuel fuel' : Nat} (hfuel : Suffices exact fuel fuel') (q : Program)
    (he : exact ∨ (m.interpretMarked fuel q).1 ≠ .outOfFuel) :
    Unmarked f (m.interpretMarked fuel q)
      (m'.interpret fuel' (Stmt.relabelEach (.lines f) q)) := by
  have hstore : (m.store.relabel .marksOld).relabel (.unmark f) = m.store.relabel .refl := by
    rw [Store.relabel_relabel, Relabel.marksOld_unmark]
  have hmarked : Machine.Relabeled (.unmark f) { m with store := m.store.relabel .marksOld } m' :=
    { h with store := h.store.trans hstore.symm }
  have hrun := hmarked.interpret hfuel (Stmt.relabelEach .marksNew q) he
  rw [Stmt.relabelEach_relabelEach, Relabel.marksNew_unmark] at hrun
  exact ⟨hrun.1, hrun.2⟩

/-! ### Programs one after the other -/

variable {m : Machine} {fuel : Nat} {p : Program}

theorem forM_append (k : Stmt → Run Unit) (p q : Program) :
    (p ++ q).forM k = p.forM k >>= fun _ => q.forM k :=
  List.forM_append

/-- A program that all of its statements have been executed of goes on with the next one, and one that
stops does not. -/
theorem interpret_append_cases (m : Machine) (fuel : Nat) (p q : Program) :
    ((m.interpret fuel p).1 = Answer.flushed (.success ()) (m.interpret fuel p).2.toHost
        ∧ m.interpret fuel (p ++ q) = (m.interpret fuel p).2.interpret fuel q)
      ∨ ∃ stop : Stop, (m.interpret fuel p).1 = stop.answer
        ∧ m.interpret fuel (p ++ q) = m.interpret fuel p := by
  unfold interpret interpretBy Run.answer
  rw [forM_append]
  simp only [Bind.bind, EStateM.bind]
  cases (p.forM fun s => discard (execute fuel s)) m with
  | ok a m' => exact .inl ⟨rfl, rfl⟩
  | error stop m' =>
    refine .inr ⟨stop, ?_, rfl⟩
    cases stop <;> rfl

theorem interpret_append_of_success (h : (m.interpret fuel p).1 = .success ()) (q : Program) :
    m.interpret fuel (p ++ q) = (m.interpret fuel p).2.interpret fuel q := by
  rcases m.interpret_append_cases fuel p q with ⟨-, hw⟩ | ⟨stop, hstop, -⟩
  · exact hw
  · rw [h] at hstop
    cases stop <;> cases hstop

theorem interpret_append_of_outOfFuel (h : (m.interpret fuel p).1 = .outOfFuel) (q : Program) :
    (m.interpret fuel (p ++ q)).1 = .outOfFuel := by
  rcases m.interpret_append_cases fuel p q with ⟨hflushed, -⟩ | ⟨stop, -, hw⟩
  · rw [h] at hflushed
    simp only [Answer.flushed] at hflushed
    split at hflushed <;> cases hflushed
  · rw [hw, h]

theorem interpret_append_of_fault {line : Nat} {cause : RuntimeFault}
    (h : (m.interpret fuel p).1 = .failure [.runtime line cause]) (q : Program) :
    m.interpret fuel (p ++ q) = m.interpret fuel p := by
  rcases m.interpret_append_cases fuel p q with ⟨hflushed, -⟩ | ⟨stop, -, hw⟩
  · rw [h] at hflushed
    cases Answer.eq_failure_of_flushed hflushed.symm
  · exact hw

end Machine

namespace Session

variable {s : Session} {source : String} {p q : Program} {d : Distances} {n : Nat}

theorem run_of_reads (hr : s.limit.Reads s.nextId source p d n) (fuel : Nat) :
    s.run fuel source = (((s.machine.addDistances d).interpret fuel p).1,
      { s with nextId := n, machine := ((s.machine.addDistances d).interpret fuel p).2 }) := by
  obtain ⟨⟨ts, hts, hp⟩, hd⟩ := hr
  simp only [run, runBy, parse, hts, hp, runProgramBy, hd]
  rfl

/-- The first part of a program leaves the table as it is. -/
theorem Sound.interpret_distances (h : s.Sound)
    (hr : s.limit.Reads s.nextId source (p ++ q) d n) (fuel : Nat) :
    ((s.machine.addDistances d).interpret fuel p).2.distances
      = (s.machine.addDistances d).distances := by
  obtain ⟨t, w, st, -, ha, hl⟩ := h.linked hr
  obtain ⟨-, -, w', hagrees⟩ := ha.interpret h.environment hl.of_append fuel
  rw [hagrees.distances, ha.distances]

/-! ### The two texts and the whole -/

/-- Two texts that a session reads one after the other, and the whole that they make. -/
structure Joint (s : Session) (first second : String) (p q : Program) (d d' joined : Distances)
    (n n' : Nat) : Prop where
  readsFirst : s.limit.Reads s.nextId first p d n
  readsSecond : s.limit.Reads n second q d' n'
  readsWhole : s.limit.Reads s.nextId (joinLines first second)
    (p ++ Stmt.relabelEach (.lines (· + linesBefore first)) q) joined n'
  lookup : ∀ id : Nat, joined[id]? = d'[id]?.or d[id]?

theorem exists_joint (s : Session) {first second : String} (hp : s.limit.Accepts first)
    (hq : s.limit.Accepts second) :
    ∃ p q d d' joined n n', s.Joint first second p q d d' joined n n' := by
  obtain ⟨p, d, n, hp⟩ := hp.reads s.nextId
  obtain ⟨q, d', n', hq⟩ := hq.reads n
  obtain ⟨joined, hw, hlookup⟩ := hp.join hq
  exact ⟨p, q, d, d', joined, n, n', hp, hq, hw, hlookup⟩

namespace Joint

variable {first second : String} {d' joined : Distances} {n' fuel fuel' : Nat} {exact : Prop}

/-- The machine that knows the whole program is the one that knows the first part, but for the
numbers of the second one. -/
theorem relabeled (hj : s.Joint first second p q d d' joined n n') (h : s.Reachable) :
    (s.machine.addDistances d).Relabeled (.shift n (n' - n)) (s.machine.addDistances joined) := by
  have hfirst := h.sound.steady_of_reads h.steady hj.readsFirst
  have hwhole := h.sound.steady_of_reads h.steady hj.readsWhole
  have hle := hj.readsSecond.made.1
  refine ⟨rfl, (hfirst.store _ (Relabel.shift_keeps n _)).symm, rfl, ?_, rfl⟩
  intro id
  show (s.machine.addDistances joined).distances[(Relabel.shift n (n' - n)).number id]? = _
  by_cases hid : id < n
  · have hnone : d'[id]? = none := Program.getElem?_distances hj.readsSecond.distances fun hmem =>
      Nat.not_le.2 hid (hj.readsSecond.made.2.numbered.bounds id hmem).1
    rw [(Relabel.shift_keeps n _).below id hid]
    simp only [Machine.addDistances, Distances.getElem?_insertMany, hj.lookup, hnone,
      Option.none_or]
  · have hid := Nat.le_of_not_lt hid
    rw [Relabel.shift_of_le _ _ hid, hfirst.distances id hid, hwhole.distances _ (by omega)]

/-- The first part of the whole program runs as the first program does, also with more fuel. -/
theorem interpret_first (hj : s.Joint first second p q d d' joined n n') (h : s.Reachable)
    (hfuel : Suffices exact fuel fuel')
    (he : exact ∨ ((s.machine.addDistances d).interpret fuel p).1 ≠ .outOfFuel) :
    ((s.machine.addDistances joined).interpret fuel' p).1
        = ((s.machine.addDistances d).interpret fuel p).1
      ∧ ((s.machine.addDistances d).interpret fuel p).2.Relabeled (.shift n (n' - n))
        ((s.machine.addDistances joined).interpret fuel' p).2 := by
  have hkeeps := Relabel.shift_keeps n (n' - n)
  have hsame := hkeeps.relabelEach fun id hid => (hj.readsFirst.made.2.numbered.bounds id hid).2
  have hrun := (hj.relabeled h).interpret hfuel p he
  rw [hsame, Answer.relabel_of_line hkeeps.line] at hrun
  exact hrun

/-- After the first part of the whole program the machine is the one that runs the second program. -/
theorem relabeled_second (hj : s.Joint first second p q d d' joined n n') (h : s.Reachable)
    (hfuel : Suffices exact fuel fuel')
    (he : exact ∨ ((s.machine.addDistances d).interpret fuel p).1 ≠ .outOfFuel) :
    (((s.machine.addDistances d).interpret fuel p).2.addDistances d').Relabeled .refl
      ((s.machine.addDistances joined).interpret fuel' p).2 := by
  obtain ⟨-, hrelabeled⟩ := hj.interpret_first h hfuel he
  have hsteady := (Reachable.run fuel first h).steady
  rw [run_of_reads hj.readsFirst] at hsteady
  have hstore := hsteady.store _ (Relabel.shift_keeps n (n' - n))
  have hdistances := h.sound.interpret_distances (hj.readsFirst.append_nil) fuel
  have hdistances' := h.sound.interpret_distances hj.readsWhole fuel'
  refine ⟨hrelabeled.host, ?_, hrelabeled.environment, ?_, hrelabeled.nextIdentity⟩
  · exact (hrelabeled.store.trans hstore).trans (Store.relabel_refl _).symm
  · intro id
    show ((s.machine.addDistances joined).interpret fuel' p).2.distances[id]? = _
    simp only [Machine.addDistances] at hdistances hdistances' ⊢
    rw [hdistances, hdistances']
    simp only [Distances.getElem?_insertMany, hj.lookup, Option.or_assoc]

/-- After the first program, the second one runs as it does with marks, and so does the rest of the
whole. -/
theorem interpret_whole (hj : s.Joint first second p q d d' joined n n') (h : s.Reachable)
    (hfuel : Suffices exact fuel fuel')
    (hsuccess : ((s.machine.addDistances d).interpret fuel p).1 = .success ()) {fuel'' : Nat}
    (hfuel'' : Suffices exact fuel'' fuel')
    (he : exact ∨ ((((s.machine.addDistances d).interpret fuel p).2.addDistances d').interpretMarked
      fuel'' q).1 ≠ .outOfFuel) :
    Machine.Unmarked (· + linesBefore first)
      ((((s.machine.addDistances d).interpret fuel p).2.addDistances d').interpretMarked fuel'' q)
      ((s.machine.addDistances joined).interpret fuel'
        (p ++ Stmt.relabelEach (.lines (· + linesBefore first)) q)) := by
  have hends : exact ∨ ((s.machine.addDistances d).interpret fuel p).1 ≠ .outOfFuel :=
    .inr (by rw [hsuccess]; exact nofun)
  have hfirst := (hj.interpret_first h hfuel hends).1
  rw [Machine.interpret_append_of_success (hfirst.trans hsuccess)]
  exact Machine.unmarked_interpret (hj.relabeled_second h hfuel hends) _ hfuel'' q he

end Joint

/-! ### Runs that end -/

/-- With enough fuel, a run of the text ends with this answer in this session. -/
def Ends (s : Session) (source : String) (r : Answer Unit × Session) : Prop :=
  r.1 ≠ .outOfFuel ∧ ∃ fuel, s.run fuel source = r

/-- More fuel changes nothing in a run that ends. -/
theorem Reachable.run_mono (h : s.Reachable) {fuel fuel' : Nat} (hle : fuel ≤ fuel')
    (hends : (s.run fuel source).1 ≠ .outOfFuel) : s.run fuel' source = s.run fuel source := by
  rcases s.run_cases source with ⟨faults, n, -, -, hrun⟩ | ⟨p, d, n, hr, hrun⟩
  · rw [Session.run, Session.run, hrun, hrun]
  · rw [Session.run, hrun] at hends
    have hfuel : Suffices False fuel fuel' := ⟨hle, False.elim⟩
    obtain ⟨hanswer, hmachine⟩ :=
      (Machine.Relabeled.refl (s.machine.addDistances d)).interpret hfuel p (.inr hends)
    rw [Stmt.relabelEach_refl] at hanswer hmachine
    have hdistances := h.sound.interpret_distances hr.append_nil
    have hsame := hmachine.eq_of_refl ((hdistances fuel').trans (hdistances fuel).symm)
    rw [Session.run, Session.run, hrun, hrun]
    exact Prod.ext (hanswer.trans (Answer.relabel_of_line rfl _))
      (congrArg (fun machine => { s with nextId := n, machine }) hsame)

/-- How a run ends does not depend on the fuel. -/
theorem Reachable.ends_unique (h : s.Reachable) {r r' : Answer Unit × Session}
    (hr : s.Ends source r) (hr' : s.Ends source r') : r' = r := by
  obtain ⟨hends, fuel, rfl⟩ := hr
  obtain ⟨hends', fuel', rfl⟩ := hr'
  rcases Nat.le_total fuel fuel' with hle | hle
  · exact h.run_mono hle hends
  · exact (h.run_mono hle hends').symm

/-- With enough fuel, a run of the text with marked lines ends like this. -/
def EndsMarked (s : Session) (source : String) (r : Answer Unit × Machine) : Prop :=
  r.1 ≠ .outOfFuel ∧ ∃ p d n fuel, s.limit.Reads s.nextId source p d n
    ∧ (s.machine.addDistances d).interpretMarked fuel p = r

/-- Two texts can be run one after the other or as one. -/
structure Splits (s : Session) (first second : String) : Prop where
  accepted : s.limit.Accepts (joinLines first second)
  /-- If the first text succeeds, the whole ends as the second one does, with the lines of its tokens
  further on. -/
  success : ∀ r r', s.Ends first r → r.1 = .success () → r.2.Ends second r' →
    ∃ whole marked, s.Ends (joinLines first second) whole ∧ r.2.EndsMarked second marked
      ∧ Machine.Unmarked id marked (r'.1, r'.2.machine)
      ∧ Machine.Unmarked (· + linesBefore first) marked (whole.1, whole.2.machine)
      ∧ whole.2.machine.toHost = r'.2.machine.toHost ∧ whole.2.nextId = r'.2.nextId
  /-- If the first text fails at run time, the whole fails there. -/
  failure : ∀ r line cause, s.Ends first r → r.1 = .failure [.runtime line cause] →
    ∃ whole, s.Ends (joinLines first second) whole ∧ whole.1 = r.1
      ∧ whole.2.machine.toHost = r.2.machine.toHost
  /-- If the whole ends, so do the two texts. -/
  ends : ∀ whole, s.Ends (joinLines first second) whole →
    ∃ r, s.Ends first r ∧ (r.1 = .success () → ∃ r', r.2.Ends second r')

namespace Joint

variable {first second : String} {d' joined : Distances} {n' : Nat} {r r' : Answer Unit × Session}

/-- The second text without marks. -/
theorem unmarked_second (m : Machine) (fuel : Nat) (q : Program) :
    Machine.Unmarked id (m.interpretMarked fuel q) (m.interpret fuel q) := by
  have hrun := Machine.unmarked_interpret (.refl m) id (.refl True fuel) q (.inl trivial)
  have hsame : Stmt.relabelEach (.lines id) q = q := Stmt.relabelEach_refl q
  rwa [hsame] at hrun

theorem success (hj : s.Joint first second p q d d' joined n n') (h : s.Reachable)
    (hr : s.Ends first r) (hsuccess : r.1 = .success ()) (hr' : r.2.Ends second r') :
    ∃ whole marked, s.Ends (joinLines first second) whole ∧ r.2.EndsMarked second marked
      ∧ Machine.Unmarked id marked (r'.1, r'.2.machine)
      ∧ Machine.Unmarked (· + linesBefore first) marked (whole.1, whole.2.machine)
      ∧ whole.2.machine.toHost = r'.2.machine.toHost ∧ whole.2.nextId = r'.2.nextId := by
  obtain ⟨-, fuel, rfl⟩ := hr
  rw [run_of_reads hj.readsFirst] at hsuccess hr' ⊢
  obtain ⟨hends, fuel', rfl⟩ := hr'
  rw [run_of_reads hj.readsSecond] at hends ⊢
  have hsecond := unmarked_second
    (((s.machine.addDistances d).interpret fuel p).2.addDistances d') fuel' q
  have hmarked := fun hout => hends (hsecond.outOfFuel_iff.2 hout)
  have hwhole := hj.interpret_whole h (⟨Nat.le_max_left fuel fuel', False.elim⟩) hsuccess
    ⟨Nat.le_max_right fuel fuel', False.elim⟩ (.inr hmarked)
  refine ⟨s.run (max fuel fuel') (joinLines first second), _, ⟨?_, _, rfl⟩,
    ⟨hmarked, q, d', n', fuel', hj.readsSecond, rfl⟩, ⟨hsecond.answer, hsecond.machine⟩, ?_, ?_, ?_⟩
  · rw [run_of_reads hj.readsWhole]
    exact fun hout => hmarked (hwhole.outOfFuel_iff.1 hout)
  · rw [run_of_reads hj.readsWhole]
    exact ⟨hwhole.answer, hwhole.machine⟩
  · rw [run_of_reads hj.readsWhole]
    exact hwhole.machine.host.trans hsecond.machine.host.symm
  · rw [run_of_reads hj.readsWhole]

theorem failure (hj : s.Joint first second p q d d' joined n n') (h : s.Reachable) {line : Nat}
    {cause : RuntimeFault} (hr : s.Ends first r) (hfault : r.1 = .failure [.runtime line cause]) :
    ∃ whole, s.Ends (joinLines first second) whole ∧ whole.1 = r.1
      ∧ whole.2.machine.toHost = r.2.machine.toHost := by
  obtain ⟨hends, fuel, rfl⟩ := hr
  rw [run_of_reads hj.readsFirst] at hends hfault ⊢
  obtain ⟨hanswer, hmachine⟩ := hj.interpret_first h (.refl True fuel) (.inl trivial)
  have hwhole := Machine.interpret_append_of_fault (hanswer.trans hfault)
    (Stmt.relabelEach (.lines (· + linesBefore first)) q)
  refine ⟨s.run fuel (joinLines first second), ⟨?_, fuel, rfl⟩, ?_, ?_⟩
  · rw [run_of_reads hj.readsWhole, hwhole, hanswer]
    exact hends
  · rw [run_of_reads hj.readsWhole, hwhole, hanswer]
  · rw [run_of_reads hj.readsWhole, hwhole]
    exact hmachine.host

theorem ends (hj : s.Joint first second p q d d' joined n n') (h : s.Reachable)
    {whole : Answer Unit × Session} (hw : s.Ends (joinLines first second) whole) :
    ∃ r, s.Ends first r ∧ (r.1 = .success () → ∃ r', r.2.Ends second r') := by
  obtain ⟨hends, fuel, rfl⟩ := hw
  rw [run_of_reads hj.readsWhole] at hends
  have hfuel : Suffices True fuel fuel := .refl True fuel
  have hanswer := (hj.interpret_first h hfuel (.inl trivial)).1
  refine ⟨s.run fuel first, ⟨fun hout => hends ?_, fuel, rfl⟩, ?_⟩
  · rw [run_of_reads hj.readsFirst] at hout
    exact Machine.interpret_append_of_outOfFuel (hanswer.trans hout) _
  · intro hsuccess
    rw [run_of_reads hj.readsFirst] at hsuccess ⊢
    have hwhole := hj.interpret_whole h hfuel hsuccess hfuel (.inl trivial)
    refine ⟨_, fun hout => hends (hwhole.outOfFuel_iff.2 ?_), fuel, rfl⟩
    rw [run_of_reads hj.readsSecond] at hout
    exact (unmarked_second _ fuel q).outOfFuel_iff.1 hout

end Joint

/-- Two texts that are accepted on their own can be run one after the other or as one. -/
theorem Reachable.splits_of_accepts (h : s.Reachable) {first second : String}
    (hp : s.limit.Accepts first) (hq : s.limit.Accepts second) : s.Splits first second := by
  obtain ⟨p, q, d, d', joined, n, n', hj⟩ := s.exists_joint hp hq
  exact ⟨hp.join hq, fun _ _ => hj.success h, fun _ _ _ => hj.failure h, fun _ => hj.ends h⟩

/-- A text that declares a function, and ends in a comment. -/
def declaringOnly : String :=
  "fun f(x) \x7b\n return x; \x7d // and no more"

/-- A text that calls it, and then misses a name on its second line. -/
def callingTwice : String :=
  "println(f(1));\nf(b);"

/-- The name is missed on the second line after the first text, and on the fourth one of the whole. -/
theorem Reachable.splits_of_accepts_callingTwice :
    let s : Session := { machine := .fresh {} fun _ => 0 }
    s.Reachable ∧ s.limit.Accepts declaringOnly ∧ s.limit.Accepts callingTwice
      ∧ s.Splits declaringOnly callingTwice
      ∧ (s.run 20 declaringOnly).1 = .success ()
      ∧ ((s.run 20 declaringOnly).2.run 20 callingTwice).1
        = .failure [.runtime 2 (.undefinedVariable "b")]
      ∧ (s.run 20 (joinLines declaringOnly callingTwice)).1
        = .failure [.runtime 4 (.undefinedVariable "b")] := by
  have h : ({ machine := .fresh {} fun _ => 0 } : Session).Reachable := .fresh {} {} fun _ => 0
  have hp : ({} : Limit).Accepts declaringOnly := by decide +kernel
  have hq : ({} : Limit).Accepts callingTwice := by decide +kernel
  exact ⟨h, hp, hq, h.splits_of_accepts hp hq, by decide +kernel, by decide +kernel,
    by decide +kernel⟩

end Session

end Lox
