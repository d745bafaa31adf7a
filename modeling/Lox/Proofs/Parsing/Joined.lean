import Lox.Proofs.Parsing.Relabeled

/-!
Whole programs on two lists of tokens. Other lines and numbers make no difference but for those
(`parseProgram_relabel`), nor does where the numbering starts (`parseProgram_add`), and two programs
that are read from two lists of tokens are read one after the other from the lists one after the other
(`parseProgram_join`).
-/

namespace Lox

namespace Parser

variable {S : Setting}

section

variable {α β : Type} {f : α → β} {p : Reading α} {p' : Reading β} {rounds : Nat} {s s' : Cursor}

theorem reading_map_congr {q : Reading α} (k : α → β) (h : p s = q s') :
    (k <$> p) s = (k <$> q) s' := by
  show EStateM.map k p s = EStateM.map k q s'
  simp only [EStateM.map, h]

/-- All things up to the end of the list, one after another. -/
abbrev upToEnd (p : Reading α) (rounds : Nat) : Reading (List α) :=
  upTo (fun _ => false) p rounds

theorem upToEnd_nil (hrest : s.rest = []) : upToEnd p (rounds + 1) s = .ok [] s := by
  show (if s.rest.head?.all (fun _ => false) = true then _ else _ : Reading (List α)) s = _
  rw [hrest]
  rfl

theorem upToEnd_cons {a : α} {s₁ : Cursor} (hrest : s.rest ≠ []) (ha : p s = .ok a s₁) :
    upToEnd p (rounds + 1) s = ((a :: ·) <$> upToEnd p rounds) s₁ := by
  show (if s.rest.head?.all (fun _ => false) = true then _ else _ : Reading (List α)) s = _
  obtain ⟨t, rest, hcons⟩ := List.exists_cons_of_ne_nil hrest
  rw [hcons, List.head?_cons]
  show (p >>= fun a => upToEnd p rounds >>= fun as => pure (a :: as)) s = _
  rw [reading_bind_ok ha, map_eq_pure_bind]

theorem upToEnd_cases {as : List α} (h : upToEnd p (rounds + 1) s = .ok as s') :
    (s.rest = [] ∧ as = [] ∧ s' = s)
      ∨ s.rest ≠ [] ∧ ∃ a s₁ as', as = a :: as' ∧ p s = .ok a s₁
        ∧ upToEnd p rounds s₁ = .ok as' s' := by
  by_cases hrest : s.rest = []
  · cases (upToEnd_nil hrest).symm.trans h
    exact .inl ⟨hrest, rfl, rfl⟩
  · refine .inr ⟨hrest, ?_⟩
    obtain ⟨t, rest, hcons⟩ := List.exists_cons_of_ne_nil hrest
    have hstep : upToEnd p (rounds + 1) s
        = (p >>= fun a => upToEnd p rounds >>= fun as => pure (a :: as)) s := by
      show (if s.rest.head?.all (fun _ => false) = true then _ else _ : Reading (List α)) s = _
      rw [hcons]
      rfl
    rw [hstep] at h
    cases ha : p s with
    | error e s₁ =>
      rw [reading_bind_error ha] at h
      cases h
    | ok a s₁ =>
      rw [reading_bind_ok ha] at h
      cases has : upToEnd p rounds s₁ with
      | error e s₂ =>
        rw [reading_bind_error has] at h
        cases h
      | ok as' s₂ =>
        rw [reading_bind_ok has] at h
        cases h
        exact ⟨a, s₁, as', rfl, rfl, has⟩

/-- Every thing takes a token, so that there are no more of them than tokens; and the first token is
one that something can start with. -/
theorem Recovers.upToEnd_spec (hp : Recovers S True f p p') {as : List α}
    (hr : upToEnd p rounds s = .ok as s') (hfaults : s'.faults = []) :
    s.Onward s' ∧ s'.rest = [] ∧ as.length ≤ s.rest.length
      ∧ ∀ t ∈ s.rest.head?, t.kind ≠ .kwElse := by
  induction rounds generalizing s as with
  | zero => cases hr
  | succ rounds ih =>
    rcases upToEnd_cases hr with ⟨hrest, rfl, rfl⟩ | ⟨hrest, a, s₁, as', rfl, ha, has⟩
    · exact ⟨.refl _, hrest, Nat.zero_le _, by simp [hrest]⟩
    · obtain ⟨hon, hend, hlength, -⟩ := ih has
      have hfaults₁ := hon.faults hfaults
      have htaken := hp.consumes s a s₁ ha hfaults₁
      refine ⟨(hp.parallel.onward ha).trans hon, hend, ?_, ?_⟩
      · rw [List.length_cons]
        omega
      · intro t ht helse
        refine hp.faults_ne_nil (fun t' ht' => ?_) ha hfaults₁
        rw [Option.mem_unique ht' ht]
        exact helse

/-- From the second list all things of the first one are read, and then those that follow. -/
theorem Recovers.upToEnd_eq (hp : Recovers S True f p p') {as : List α} (m : Nat)
    (hr : upToEnd p rounds s = .ok as s') (hfaults : s'.faults = []) :
    upToEnd p' (as.length + m) (s.across S)
      = ((as.map f ++ ·) <$> upToEnd p' m) (s'.across S) := by
  induction rounds generalizing s as with
  | zero => cases hr
  | succ rounds ih =>
    rcases upToEnd_cases hr with ⟨hrest, rfl, rfl⟩ | ⟨hrest, a, s₁, as', rfl, ha, has⟩
    · simp
    · obtain ⟨hon, -⟩ := hp.upToEnd_spec has hfaults
      have hcross := (hp.parallel.ok ha).2 (.inr ⟨hon.faults hfaults, .inr trivial⟩)
      have hrest' : (s.across S).rest ≠ [] := by
        simp [Cursor.across, hrest]
      rw [List.length_cons, Nat.add_right_comm, upToEnd_cons hrest' hcross]
      refine (reading_map_congr (f a :: ·) (ih has)).trans ?_
      rw [Functor.map_map]
      rfl

/-- All things of the first list are read from the second one too, and then those that follow. -/
theorem Recovers.upToEnd_append (hp : Recovers S True f p p') {as : List α} {m : Nat}
    {bs : List β} {s'' : Cursor} (hr : upToEnd p rounds s = .ok as s') (hfaults : s'.faults = [])
    (hbs : upToEnd p' m (s'.across S) = .ok bs s'') :
    upToEnd p' (as.length + m) (s.across S) = .ok (as.map f ++ bs) s'' := by
  rw [hp.upToEnd_eq m hr hfaults, map_eq_pure_bind, reading_bind_ok hbs]
  rfl

end

theorem reduceOption_relabel (g : Relabel) (as : List (Option Stmt)) :
    (as.map (Option.map (Stmt.relabel g))).reduceOption = Stmt.relabelEach g as.reduceOption := by
  rw [List.reduceOption_map, Stmt.relabelEach_eq_map]

theorem program_ok {limit : Limit} {rounds : Nat} {s s' : Cursor} {as : List (Option Stmt)}
    (h : upToEnd (declaration limit rounds) rounds s = .ok as s') :
    program limit rounds s = .ok as.reduceOption s' :=
  reading_bind_ok h

end Parser

open Lox.Parser

theorem parseProgram_eq_ok_iff {limit : Limit} {n n' : Nat} {ts : List Token} {p : Program} :
    parseProgram limit n ts = ⟨.ok p, n'⟩ ↔ ∃ as s',
      upToEnd (declaration limit (roundsFor ts)) (roundsFor ts) (Cursor.start n ts) = .ok as s'
        ∧ s'.faults = [] ∧ as.reduceOption = p ∧ s'.nextId = n' := by
  unfold parseProgram Cursor.parse
  constructor
  · intro h
    cases has : upToEnd (declaration limit (roundsFor ts)) (roundsFor ts) (Cursor.start n ts) with
    | ok as s' =>
      rw [program_ok has] at h
      dsimp only at h
      by_cases hfaults : s'.faults = []
      · rw [if_pos hfaults] at h
        cases h
        exact ⟨as, s', rfl, hfaults, rfl, rfl⟩
      · rw [if_neg hfaults] at h
        cases h
    | error e s' =>
      have herror : program limit (roundsFor ts) (Cursor.start n ts) = .error e s' :=
        reading_bind_error has
      rw [herror] at h
      cases e <;> cases h
  · rintro ⟨as, s', has, hfaults, rfl, rfl⟩
    rw [program_ok has]
    dsimp only
    rw [if_pos hfaults]

/-- What is made of a list of tokens, with other lines and numbers. -/
def Parser.Parsed.relabel (g : Relabel) (parsed : Parsed Program) : Parsed Program where
  result :=
    match parsed.result with
    | .ok p => .ok (Stmt.relabelEach g p)
    | .error faults => .error (faults.map (Diagnostic.relabel g))
  nextId := g.number parsed.nextId

/-- The token that ends the list is on the other line. -/
theorem stop_relabel {g : Relabel} (hline : g.line 1 = 1) {n m : Nat} {ts : List Token} :
    (Cursor.start m (ts.map (Token.relabel g))).stop = (Cursor.start n ts).stop.relabel g := by
  simp only [Cursor.start, List.find?_map, List.getLast?_map]
  show (Option.map _ (ts.find? (·.kind = .eof))).getD _ = _
  cases ts.find? (·.kind = .eof) with
  | some t => rfl
  | none =>
    cases ts.getLast? with
    | some t => rfl
    | none => simp [Token.relabel, hline]

/-- On other lines and with other numbers the same is read. A list without an end is given one on the
first line if it has no token, which has to stay there. -/
theorem parseProgram_relabel (limit : Limit) (n : Nat) (ts : List Token) {g : Relabel}
    (hnumber : ∀ n, g.number (n + 1) = g.number n + 1) (hline : g.line 1 = 1) :
    parseProgram limit (g.number n) (ts.map (Token.relabel g))
      = (parseProgram limit n ts).relabel g := by
  let S : Setting :=
    { relabel := g
      follow := []
      stop := Token.relabel g
      exact := True
      number_succ := hnumber
      follow_eq := fun _ => rfl
      stop_eq := fun _ _ => rfl }
  have hstart : Cursor.start (g.number n) (ts.map (Token.relabel g))
      = (Cursor.start n ts).across S := by
    show Cursor.mk _ (Cursor.start (g.number n) (ts.map (Token.relabel g))).stop _ _
      = Cursor.mk _ _ _ _
    rw [stop_relabel hline, List.takeWhile_map, List.append_nil]
    rfl
  have hprogram : Parallel S False (Stmt.relabelEach S.relabel)
      (program limit (roundsFor ts)) (program limit (roundsFor ts)) := by
    have hrounds : Suffices S.exact (roundsFor ts) (roundsFor ts) := .refl _ _
    have hclosed : S.Closed False := fun h => h.elim
    have hdeclaration := (Parallel.statements limit (roundsFor ts) hclosed hrounds).1
    refine (Parallel.upTo _ hdeclaration.parallel hrounds).bind fun as => .pure ?_
    exact reduceOption_relabel _ as
  have hsame : roundsFor (ts.map (Token.relabel g)) = roundsFor ts := by
    simp only [roundsFor, List.length_map]
  unfold parseProgram
  rw [hstart, hsame]
  unfold Cursor.parse
  cases hr : program limit (roundsFor ts) (Cursor.start n ts) with
  | ok p s =>
    rw [(hprogram.ok hr).2 (.inl trivial)]
    by_cases hs : s.faults = []
    · simp only [Cursor.across, Parsed.relabel, hs, List.map_nil, ↓reduceIte]
      rfl
    · simp only [Cursor.across, Parsed.relabel, hs, List.map_eq_nil_iff, ↓reduceIte]
      rfl
  | error e s =>
    rw [(hprogram.error hr).2 trivial]
    cases e with
    | fault d =>
      simp only [Halt.relabel, Cursor.across, Parsed.relabel, List.map_append]
      rfl
    | outOfRounds => rfl

/-- Where the numbering starts makes no difference but for the numbers. -/
theorem parseProgram_add (limit : Limit) (n k : Nat) (ts : List Token) :
    parseProgram limit (n + k) ts
      = ⟨(parseProgram limit n ts).result.map (Stmt.relabelEach (.numbers (· + k))),
        (parseProgram limit n ts).nextId + k⟩ := by
  have hlines (d : Diagnostic) : d.relabel (.numbers (· + k)) = d := by cases d <;> rfl
  have htokens : ts.map (Token.relabel (.numbers (· + k))) = ts := List.map_id' ts
  have h := parseProgram_relabel limit n ts (g := .numbers (· + k))
    (fun n => Nat.add_right_comm n 1 k) rfl
  rw [htokens] at h
  refine h.trans ?_
  unfold Parsed.relabel
  cases (parseProgram limit n ts).result with
  | ok p => rfl
  | error faults =>
    simp only [List.map_congr_left fun d _ => hlines d, List.map_id']
    rfl

/-! ### One list after another -/

namespace Parser

/-- The first list goes on with other tokens. -/
def Setting.goingOn (follow : List Token) (stop : Token) : Setting where
  relabel := .refl
  follow
  stop := fun _ => stop
  exact := False
  number_succ := fun _ => rfl
  follow_eq := False.elim
  stop_eq := False.elim

/-- The tokens are on other lines. -/
def Setting.onLines (line : Nat → Nat) (stop : Token) : Setting where
  relabel := .lines line
  follow := []
  stop := fun _ => stop
  exact := False
  number_succ := fun _ => rfl
  follow_eq := False.elim
  stop_eq := False.elim

/-- The tokens up to the first one that ends a program. -/
abbrev upToEof (ts : List Token) : List Token :=
  ts.takeWhile (·.kind ≠ .eof)

theorem upToEof_append {ts : List Token} (hts : ∀ t ∈ ts, t.kind ≠ .eof) (us : List Token) :
    upToEof (ts ++ us) = ts ++ upToEof us :=
  List.takeWhile_append_of_pos fun t ht => decide_eq_true (hts t ht)

theorem upToEof_eq_self {ts : List Token} (hts : ∀ t ∈ ts, t.kind ≠ .eof) : upToEof ts = ts := by
  simpa using upToEof_append hts []

theorem upToEof_map (g : Relabel) (ts : List Token) :
    upToEof (ts.map (Token.relabel g)) = (upToEof ts).map (Token.relabel g) :=
  List.takeWhile_map ..

theorem upToEof_stop {ts : List Token} {stop : Token} (hts : ∀ t ∈ ts, t.kind ≠ .eof)
    (hstop : stop.kind = .eof) : upToEof (ts ++ [stop]) = ts := by
  rw [upToEof_append hts, upToEof, List.takeWhile_cons_of_neg (by simp [hstop]), List.append_nil]

/-- The tokens before an end of program may go on with others instead. -/
theorem start_append {ts vs : List Token} (hts : ∀ t ∈ ts, t.kind ≠ .eof) (hvs : upToEof vs = ts)
    (n : Nat) (us : List Token) :
    Cursor.start n (ts ++ us) = (Cursor.start n vs).across
      (.goingOn (upToEof us) (Cursor.start n (ts ++ us)).stop) := by
  have hrest : (Cursor.start n (ts ++ us)).rest
      = (upToEof vs).map (Token.relabel .refl) ++ upToEof us := by
    rw [hvs, Token.map_relabel_refl]
    exact upToEof_append hts us
  rw [Cursor.across]
  exact congrArg (fun rest => (⟨rest, _, _, _⟩ : Cursor)) hrest

/-- At the end of the first list begins the second one. -/
theorem across_goingOn {s : Cursor} (hrest : s.rest = []) (hfaults : s.faults = [])
    (line : Nat → Nat) (ts : List Token) (stop : Token) :
    s.across (.goingOn (upToEof (ts.map (Token.relabel (.lines line)))) stop)
      = (Cursor.start s.nextId ts).across (.onLines line stop) := by
  rw [Cursor.across, Cursor.across, hrest, hfaults, upToEof_map]
  exact congrArg (fun rest => (⟨rest, _, _, _⟩ : Cursor)) (List.append_nil _).symm

end Parser

/-- Two programs that are read from two lists of tokens, the second one with the numbers that follow,
are read one after the other from the lists one after the other. The lines of the second list may be
others then. -/
theorem parseProgram_join {limit : Limit} {n n' n'' : Nat} {ts us : List Token} {stop : Token}
    {p q : Program} (line : Nat → Nat) (hts : ∀ t ∈ ts, t.kind ≠ .eof) (hstop : stop.kind = .eof)
    (hus : us ≠ []) (hp : parseProgram limit n (ts ++ [stop]) = ⟨.ok p, n'⟩)
    (hq : parseProgram limit n' us = ⟨.ok q, n''⟩) :
    parseProgram limit n (ts ++ us.map (Token.relabel (.lines line)))
      = ⟨.ok (p ++ Stmt.relabelEach (.lines line) q), n''⟩ := by
  rw [parseProgram_eq_ok_iff] at hp hq ⊢
  obtain ⟨as, s, has, hs, rfl, rfl⟩ := hp
  obtain ⟨bs, s', hbs, hs', rfl, rfl⟩ := hq
  let us' := us.map (Token.relabel (.lines line))
  let stop' := (Cursor.start n (ts ++ us')).stop
  have hlength : 0 < us.length := List.length_pos_iff.2 hus
  have hlength' : (ts ++ us').length = ts.length + us.length := by simp [us']
  have hrounds : roundsFor (ts ++ [stop]) ≤ roundsFor (ts ++ us') := by
    simp only [roundsFor, hlength', List.length_append, List.length_singleton]
    omega
  have hrounds' : roundsFor us ≤ roundsFor (ts ++ us') := by
    simp only [roundsFor, hlength']
    omega
  have hclosed' : (Setting.onLines line stop').Closed True := fun _ t ht => by cases ht
  have hsecond := (Parallel.statements limit (roundsFor us) hclosed' ⟨hrounds', False.elim⟩).1
  obtain ⟨-, hend', hcount', hhead⟩ := hsecond.upToEnd_spec hbs hs'
  have hclosed : (Setting.goingOn (upToEof us') stop').Closed True := by
    intro _ t ht
    rw [Setting.goingOn, upToEof_map, List.head?_map] at ht
    obtain ⟨t', ht', rfl⟩ := Option.map_eq_some_iff.1 ht
    exact hhead t' ht'
  have hfirst := (Parallel.statements limit (roundsFor (ts ++ [stop])) hclosed
    ⟨hrounds, False.elim⟩).1
  obtain ⟨-, hend, hcount, -⟩ := hfirst.upToEnd_spec has hs
  have hcount : as.length ≤ ts.length := by
    rwa [← upToEof_stop hts hstop]
  have hcount' : bs.length ≤ us.length := Nat.le_trans hcount' (List.takeWhile_sublist _).length_le
  obtain ⟨m, hm⟩ : ∃ m, roundsFor (ts ++ us') = as.length + (bs.length + (m + 1)) := by
    refine ⟨roundsFor (ts ++ us') - (as.length + bs.length + 1), ?_⟩
    simp only [roundsFor, hlength']
    omega
  have hlast : upToEnd (declaration limit (roundsFor (ts ++ us'))) (m + 1)
      (s'.across (.onLines line stop')) = .ok [] (s'.across (.onLines line stop')) :=
    upToEnd_nil (by simp [Cursor.across, hend', Setting.onLines])
  have hrest := hsecond.upToEnd_append hbs hs' hlast
  rw [← across_goingOn hend hs] at hrest
  have hjoined := hfirst.upToEnd_append has hs hrest
  rw [← hm, ← start_append hts (upToEof_stop hts hstop) n us'] at hjoined
  refine ⟨_, _, hjoined, by simp [Cursor.across, hs'], ?_, rfl⟩
  have hold : (as.map (Option.map (Stmt.relabel .refl))).reduceOption = as.reduceOption := by
    rw [reduceOption_relabel, Stmt.relabelEach_refl]
  rw [List.append_nil, List.reduceOption_append]
  exact congr (congrArg _ hold) (reduceOption_relabel _ bs)

end Lox
