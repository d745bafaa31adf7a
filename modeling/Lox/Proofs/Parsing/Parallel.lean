import Lox.Program.Cursor
import Lox.Proofs.Tree.Relabel

/-!
Readings of two lists of tokens. A `Setting` says how the second list comes from the first one: its
tokens are on other lines, its expressions get other numbers, and it may go on where the first one
ends. `Parallel` says of two readings that the second one does on the second list what the first one
does on the first list, provided that this does not depend on where the list ends. If nothing follows
and the rounds are the same, the two do the same in every case (`Setting.exact`).
-/

namespace Lox

namespace Parser

/-- How a second list of tokens comes from a first one. -/
structure Setting where
  relabel : Relabel
  /-- The tokens after those of the first list. -/
  follow : List Token
  /-- The token that ends the second list, for the one that ends the first. -/
  stop : Token → Token
  /-- The second list is the first one but for lines and numbers, and is given as many rounds. -/
  exact : Prop
  number_succ : ∀ n, relabel.number (n + 1) = relabel.number n + 1
  follow_eq : exact → follow = []
  stop_eq : exact → ∀ t, stop t = t.relabel relabel

variable (S : Setting)

/-- The place in the second list. -/
def Cursor.across (s : Cursor) : Cursor where
  rest := s.rest.map (Token.relabel S.relabel) ++ S.follow
  stop := S.stop s.stop
  nextId := S.relabel.number s.nextId
  faults := s.faults.map (Diagnostic.relabel S.relabel)

def Halt.relabel (g : Relabel) : Halt → Halt
  | .fault d => .fault (d.relabel g)
  | .outOfRounds => .outOfRounds

/-- The second place is not before the first one, and no fault has been forgotten. -/
structure Cursor.Onward (s s' : Cursor) : Prop where
  rest : s'.rest <:+ s.rest
  faults : s'.faults = [] → s.faults = []

theorem Cursor.Onward.refl (s : Cursor) : s.Onward s := ⟨List.suffix_refl _, id⟩

theorem Cursor.Onward.trans {s s' s'' : Cursor} (h : s.Onward s') (h' : s'.Onward s'') :
    s.Onward s'' :=
  ⟨h'.rest.trans h.rest, h.faults ∘ h'.faults⟩

theorem Cursor.Onward.rest_ne_nil {s s' : Cursor} (h : s.Onward s') (hs : s'.rest ≠ []) :
    s.rest ≠ [] := by
  intro hnil
  have hsuffix := h.rest
  rw [hnil] at hsuffix
  exact hs (List.suffix_nil.1 hsuffix)

/-- What happens up to here counts: nothing was wrong, and the list goes on, unless it does not matter
whether it does. -/
def Counts (open? : Prop) (s : Cursor) : Prop :=
  S.exact ∨ (s.faults = [] ∧ (s.rest ≠ [] ∨ open?))

variable {S} in
theorem Counts.of_onward {open? : Prop} {s s' : Cursor} (h : Counts S open? s') (hs : s.Onward s') :
    Counts S open? s :=
  h.imp_right fun h => ⟨hs.faults h.1, h.2.imp_left hs.rest_ne_nil⟩

/-- The readings do the same on the two lists. -/
structure Parallel {α β : Type} (open? : Prop) (f : α → β) (p : Reading α) (p' : Reading β) :
    Prop where
  ok : ∀ {s a s'}, p s = .ok a s' →
    s.Onward s' ∧ (Counts S open? s' → p' (s.across S) = .ok (f a) (s'.across S))
  error : ∀ {s e s'}, p s = .error e s' →
    s.Onward s' ∧ (S.exact → p' (s.across S) = .error (e.relabel S.relabel) (s'.across S))

/-- The reading never succeeds at the end of the list or at an `else`. -/
def Refuses {α : Type} (p : Reading α) : Prop :=
  ∀ s : Cursor, (∀ t ∈ s.rest.head?, t.kind = .kwElse) → ∀ a s', p s ≠ .ok a s'

/-- If the reading succeeds and nothing was wrong, it has taken a token. -/
def Consumes {α : Type} (p : Reading α) : Prop :=
  ∀ s a s', p s = .ok a s' → s'.faults = [] → s'.rest.length < s.rest.length

variable {S} {α β γ δ : Type} {open? : Prop} {f : α → β} {h : γ → δ} {p : Reading α}
  {p' : Reading β} {next : α → Reading γ} {next' : β → Reading δ}

theorem reading_bind_ok {s s' : Cursor} {a : α} (hp : p s = .ok a s') :
    (p >>= next) s = next a s' := by
  simp only [Bind.bind, EStateM.bind, hp]

theorem reading_bind_error {s s' : Cursor} {e : Halt} (hp : p s = .error e s') :
    (p >>= next) s = .error e s' := by
  simp only [Bind.bind, EStateM.bind, hp]

namespace Refuses

protected theorem fail (what : Expectation) : Refuses (fail what : Reading α) :=
  fun _ _ _ _ h => by cases h

protected theorem outOfRounds : Refuses (throw .outOfRounds : Reading α) :=
  fun _ _ _ _ h => by cases h

theorem bind (hp : Refuses p) : Refuses (p >>= next) := by
  intro s hs b s' hb
  cases hr : p s with
  | ok a s₁ => exact hp s hs a s₁ hr
  | error e s₁ =>
    rw [reading_bind_error hr] at hb
    cases hb

theorem map {k : α → γ} (hp : Refuses p) : Refuses (k <$> p) := by
  rw [map_eq_pure_bind]
  exact hp.bind

theorem takeIf_none {accepts : Kind → Bool} (ha : accepts .kwElse = false) {s : Cursor}
    (hs : ∀ t ∈ s.rest.head?, t.kind = .kwElse) : takeIf accepts s = .ok none s := by
  unfold takeIf
  cases hr : s.rest with
  | nil => rfl
  | cons t rest =>
    have ht : t.kind = .kwElse := hs t (by simp [hr])
    dsimp only
    rw [if_neg (by simp [ht, ha])]

/-- Nothing is taken, so that it is for what follows to refuse. -/
theorem takeIf_bind {accepts : Kind → Bool} {next : Option Token → Reading γ}
    (ha : accepts .kwElse = false) (hnone : Refuses (next none)) :
    Refuses (takeIf accepts >>= next) := by
  intro s hs b s' hb
  rw [reading_bind_ok (takeIf_none ha hs)] at hb
  exact hnone s hs b s' hb

theorem accept_bind {k : Kind} {next : Option Token → Reading γ} (hk : Kind.kwElse ≠ k)
    (hnone : Refuses (next none)) : Refuses (accept k >>= next) :=
  takeIf_bind (by simpa using hk) hnone

theorem accept_ite {k : Kind} {p q : Reading γ} (hk : Kind.kwElse ≠ k) (hq : Refuses q) :
    Refuses (accept k >>= fun t? => if t?.isSome = true then p else q) :=
  accept_bind hk hq

theorem expect {k : Kind} {what : Expectation} (hk : Kind.kwElse ≠ k) :
    Refuses (expect k what) :=
  accept_bind hk (.fail what)

/-- What cannot be read there is a fault. -/
protected theorem recovering (hp : Refuses p) {s s' : Cursor} {a? : Option α}
    (hs : ∀ t ∈ s.rest.head?, t.kind = .kwElse) (hr : recovering p s = .ok a? s') :
    s'.faults ≠ [] := by
  unfold Parser.recovering at hr
  cases hp' : p s with
  | ok a s₁ => exact absurd hp' (hp s hs a s₁)
  | error e s₁ =>
    rw [hp'] at hr
    cases e with
    | outOfRounds => cases hr
    | fault d =>
      cases hr
      simp [Cursor.record, Cursor.toBoundary]

end Refuses

namespace Consumes

theorem bind_left (hp : Consumes p)
    (hnext : ∀ a {s b s'}, next a s = .ok b s' → s.Onward s') : Consumes (p >>= next) := by
  intro s b s' hb hfaults
  cases hr : p s with
  | error e s₁ =>
    rw [reading_bind_error hr] at hb
    cases hb
  | ok a s₁ =>
    rw [reading_bind_ok hr] at hb
    have hon := hnext a hb
    exact Nat.lt_of_le_of_lt hon.rest.length_le (hp s a s₁ hr (hon.faults hfaults))

theorem bind_right (hp : ∀ {s a s'}, p s = .ok a s' → s.Onward s')
    (hnext : ∀ a, Consumes (next a)) : Consumes (p >>= next) := by
  intro s b s' hb hfaults
  cases hr : p s with
  | error e s₁ =>
    rw [reading_bind_error hr] at hb
    cases hb
  | ok a s₁ =>
    rw [reading_bind_ok hr] at hb
    exact Nat.lt_of_lt_of_le (hnext a s₁ b s' hb hfaults) (hp hr).rest.length_le

theorem accept_bind {k : Kind} {next : Option Token → Reading γ}
    (hsome : ∀ t {s b s'}, next (some t) s = .ok b s' → s.Onward s') (hnone : Consumes (next none)) :
    Consumes (accept k >>= next) := by
  intro s b s' hb hfaults
  have hskip : accept k s = .ok none s → s'.rest.length < s.rest.length := by
    intro htake
    rw [reading_bind_ok htake] at hb
    exact hnone s b s' hb hfaults
  cases hr : s.rest with
  | nil =>
    rw [← hr]
    exact hskip (by simp only [accept, takeIf, hr])
  | cons t rest =>
    by_cases hk : t.kind = k
    · have htake : accept k s = .ok (some t) { s with rest } := by
        simp [accept, takeIf, hr, hk]
      rw [reading_bind_ok htake] at hb
      exact Nat.lt_succ_of_le (hsome t hb).rest.length_le
    · rw [← hr]
      exact hskip (by simp [accept, takeIf, hr, hk])

theorem expect (k : Kind) (what : Expectation) : Consumes (expect k what) :=
  accept_bind (fun t s b s' h => by cases h; exact .refl s) fun s b s' h => by cases h

protected theorem recovering (hp : Consumes p) : Consumes (recovering p) := by
  intro s a? s' hr hfaults
  unfold Parser.recovering at hr
  cases hp' : p s with
  | ok a s₁ =>
    rw [hp'] at hr
    cases hr
    exact hp s a _ hp' hfaults
  | error e s₁ =>
    rw [hp'] at hr
    cases e with
    | outOfRounds => cases hr
    | fault d =>
      cases hr
      simp [Cursor.record, Cursor.toBoundary] at hfaults

end Consumes

namespace Parallel

theorem onward (hp : Parallel S open? f p p') {s s' : Cursor} {a : α} (hr : p s = .ok a s') :
    s.Onward s' :=
  (hp.ok hr).1

/-- A step that always succeeds. -/
theorem of_ok (hstep : ∀ s, ∃ a s', p s = .ok a s' ∧ s.Onward s'
    ∧ (Counts S open? s' → p' (s.across S) = .ok (f a) (s'.across S))) :
    Parallel S open? f p p' := by
  constructor
  · intro s a s' hr
    obtain ⟨b, s₁, hr', hon, hacross⟩ := hstep s
    cases hr.symm.trans hr'
    exact ⟨hon, hacross⟩
  · intro s e s' hr
    obtain ⟨b, s₁, hr', -⟩ := hstep s
    cases hr.symm.trans hr'

protected theorem pure {a : α} {b : β} (hb : b = f a) : Parallel S open? f (pure a) (pure b) :=
  of_ok fun s => ⟨a, s, rfl, .refl s, fun _ => by rw [hb]; rfl⟩

theorem outOfRounds (hr : S.exact → p' = throw .outOfRounds) :
    Parallel S open? f (throw .outOfRounds) p' := by
  constructor
  · intro s a s' hs
    cases hs
  · intro s e s' hs
    cases hs
    exact ⟨.refl s, fun he => by rw [hr he]; rfl⟩

theorem next_across {s : Cursor} (he : S.exact) :
    (s.across S).next = s.next.relabel S.relabel := by
  unfold Cursor.next Cursor.across
  rw [S.follow_eq he, S.stop_eq he]
  cases s.rest <;> rfl

protected theorem fail (what : Expectation) : Parallel S open? f (fail what) (fail what) := by
  constructor
  · intro s a s' hs
    cases hs
  · intro s e s' hs
    cases hs
    refine ⟨.refl s, ?_⟩
    intro he
    rw [Parser.fail, next_across he]
    rfl

/-- One reading after another. What counts after the second one must count after the first one. -/
theorem bind_of_counts {first? : Prop} (hp : Parallel S first? f p p')
    (hnext : ∀ a, Parallel S open? h (next a) (next' (f a)))
    (hcounts : ∀ {a s b s'}, next a s = .ok b s' → Counts S open? s' → Counts S first? s) :
    Parallel S open? h (p >>= next) (p' >>= next') := by
  constructor
  · intro s b s' hb
    cases hr : p s with
    | error e s₁ =>
      rw [reading_bind_error hr] at hb
      cases hb
    | ok a s₁ =>
      rw [reading_bind_ok hr] at hb
      obtain ⟨hon, hacross⟩ := hp.ok hr
      obtain ⟨hon', hacross'⟩ := (hnext a).ok hb
      refine ⟨hon.trans hon', ?_⟩
      intro hc
      rw [reading_bind_ok (hacross (hcounts hb hc)), hacross' hc]
  · intro s e s' hb
    cases hr : p s with
    | error e₁ s₁ =>
      rw [reading_bind_error hr] at hb
      cases hb
      obtain ⟨hon, hacross⟩ := hp.error hr
      exact ⟨hon, fun he => reading_bind_error (hacross he)⟩
    | ok a s₁ =>
      rw [reading_bind_ok hr] at hb
      obtain ⟨hon, hacross⟩ := hp.ok hr
      obtain ⟨hon', hacross'⟩ := (hnext a).error hb
      refine ⟨hon.trans hon', ?_⟩
      intro he
      rw [reading_bind_ok (hacross (.inl he)), hacross' he]

protected theorem bind (hp : Parallel S open? f p p')
    (hnext : ∀ a, Parallel S open? h (next a) (next' (f a))) :
    Parallel S open? h (p >>= next) (p' >>= next') :=
  hp.bind_of_counts hnext fun hb hc => hc.of_onward ((hnext _).onward hb)

/-- One reading after another, where the second one needs a token to start with. -/
theorem bind_of_refuses (hp : Parallel S False f p p')
    (hnext : ∀ a, Parallel S open? h (next a) (next' (f a))) (hrefuses : ∀ a, Refuses (next a)) :
    Parallel S open? h (p >>= next) (p' >>= next') := by
  refine hp.bind_of_counts hnext fun {a s b s'} hb hc => hc.imp_right fun hquiet => ?_
  refine ⟨((hnext a).onward hb).faults hquiet.1, .inl fun hnil => ?_⟩
  exact hrefuses a s (by simp [hnil]) b s' hb

theorem map {k : α → γ} {k' : β → δ} (hp : Parallel S open? f p p')
    (hk : ∀ a, k' (f a) = h (k a)) : Parallel S open? h (k <$> p) (k' <$> p') := by
  rw [map_eq_pure_bind, map_eq_pure_bind]
  exact hp.bind fun a => .pure (hk a)

theorem some_map (hp : Parallel S open? f p p') :
    Parallel S open? (Option.map f) (some <$> p) (some <$> p') :=
  hp.map fun _ => rfl

/-! ### Elementary steps -/

theorem follow_eq_nil {s : Cursor} (hc : Counts S False s) (hr : s.rest = []) : S.follow = [] :=
  hc.elim S.follow_eq fun h => absurd hr (h.2.resolve_right id)

protected theorem peek? :
    Parallel S False (Option.map (Token.relabel S.relabel)) peek? peek? := by
  refine of_ok fun s => ⟨_, s, rfl, .refl s, fun hc => ?_⟩
  unfold Parser.peek? Cursor.across
  cases hr : s.rest with
  | nil => simp [follow_eq_nil hc hr]
  | cons t rest => simp

/-- Whether a token is taken depends on the token alone. -/
theorem takeIf_across (accepts : Kind → Bool) (s : Cursor)
    (hend : s.rest = [] → ∀ t ∈ S.follow.head?, accepts t.kind = false) :
    ∃ t? s', takeIf accepts s = .ok t? s' ∧ s.Onward s'
      ∧ takeIf accepts (s.across S) = .ok (t?.map (Token.relabel S.relabel)) (s'.across S) := by
  cases hr : s.rest with
  | nil =>
    refine ⟨none, s, by simp only [Parser.takeIf, hr], .refl s, ?_⟩
    have hrest : (s.across S).rest = S.follow := by simp [Cursor.across, hr]
    unfold Parser.takeIf
    rw [hrest]
    cases hf : S.follow with
    | nil => rfl
    | cons t rest =>
      have ht : accepts t.kind = false := hend hr t (by simp [hf])
      dsimp only
      rw [if_neg (by simp [ht])]
      rfl
  | cons t rest =>
    have hrest : (s.across S).rest = t.relabel S.relabel :: ({ s with rest }.across S).rest := by
      simp [Cursor.across, hr]
    by_cases ha : accepts t.kind = true
    · refine ⟨some t, { s with rest }, by simp only [Parser.takeIf, hr, if_pos ha],
        ⟨hr ▸ List.suffix_cons t rest, id⟩, ?_⟩
      unfold Parser.takeIf
      rw [hrest]
      exact if_pos ha
    · refine ⟨none, s, ?_, .refl s, ?_⟩
      · unfold Parser.takeIf
        rw [hr]
        exact if_neg ha
      · unfold Parser.takeIf
        rw [hrest]
        exact if_neg ha

theorem takeIf_of_follow (accepts : Kind → Bool)
    (hend : ∀ s, Counts S open? s → s.rest = [] → ∀ t ∈ S.follow.head?, accepts t.kind = false) :
    Parallel S open? (Option.map (Token.relabel S.relabel)) (takeIf accepts)
      (takeIf accepts) := by
  refine of_ok fun s => ?_
  cases hr : s.rest with
  | nil =>
    refine ⟨none, s, by simp only [Parser.takeIf, hr], .refl s, ?_⟩
    intro hc
    obtain ⟨t?, s', htake, -, hacross⟩ := takeIf_across accepts s fun _ => hend s hc hr
    have hnone : takeIf accepts s = .ok none s := by simp only [Parser.takeIf, hr]
    cases hnone.symm.trans htake
    exact hacross
  | cons t rest =>
    have hne : s.rest ≠ [] := by simp [hr]
    obtain ⟨t?, s', htake, hon, hacross⟩ := @takeIf_across S accepts s fun he => absurd he hne
    exact ⟨t?, s', htake, hon, fun _ => hacross⟩

protected theorem takeIf (accepts : Kind → Bool) :
    Parallel S False (Option.map (Token.relabel S.relabel)) (takeIf accepts) (takeIf accepts) :=
  takeIf_of_follow accepts fun s hc hr => by simp [follow_eq_nil hc hr]

protected theorem accept (k : Kind) :
    Parallel S False (Option.map (Token.relabel S.relabel)) (accept k) (accept k) :=
  .takeIf _

/-- At the end of the first list a token is not taken from what follows. -/
theorem takeIf_closed (accepts : Kind → Bool)
    (hf : open? → ∀ t ∈ S.follow.head?, accepts t.kind = false) :
    Parallel S open? (Option.map (Token.relabel S.relabel)) (takeIf accepts)
      (takeIf accepts) := by
  refine takeIf_of_follow _ fun s hc hr t ht => ?_
  rcases hc with he | ⟨-, hrest | hopen⟩
  · simp [S.follow_eq he] at ht
  · exact absurd hr hrest
  · exact hf hopen t ht

theorem accept_of_follow (k : Kind) (hf : open? → ∀ t ∈ S.follow.head?, t.kind ≠ k) :
    Parallel S open? (Option.map (Token.relabel S.relabel)) (accept k) (accept k) :=
  takeIf_closed _ fun hopen t ht => decide_eq_false (hf hopen t ht)

/-- A token that may be missing, where what comes instead needs a token to start with. -/
theorem accept_bind {k : Kind} {next : Option Token → Reading γ}
    {next' : Option Token → Reading δ}
    (hsome : ∀ t, Parallel S open? h (next (some t)) (next' (some (t.relabel S.relabel))))
    (hnone : Parallel S open? h (next none) (next' none)) (hrefuses : Refuses (next none)) :
    Parallel S open? h (accept k >>= next) (accept k >>= next') := by
  have hnext : ∀ t?, Parallel S open? h (next t?) (next' (t?.map (Token.relabel S.relabel))) := by
    intro t?
    cases t? with
    | none => exact hnone
    | some t => exact hsome t
  have hnil : ∀ s : Cursor, s.rest = [] → accept k s = .ok none s := by
    intro s hr
    simp only [accept, Parser.takeIf, hr]
  constructor
  · intro s b s' hb
    by_cases hr : s.rest = []
    · rw [reading_bind_ok (hnil s hr)] at hb
      exact absurd hb (hrefuses s (by simp [hr]) b s')
    · obtain ⟨t?, s₁, htake, hon, hacross⟩ := @takeIf_across S (· = k) s (absurd · hr)
      rw [reading_bind_ok (p := accept k) htake] at hb
      obtain ⟨hon', hacross'⟩ := (hnext t?).ok hb
      exact ⟨hon.trans hon', fun hc => (reading_bind_ok hacross).trans (hacross' hc)⟩
  · intro s e s' hb
    by_cases hr : s.rest = []
    · rw [reading_bind_ok (hnil s hr)] at hb
      obtain ⟨hon, hacross⟩ := hnone.error hb
      refine ⟨hon, ?_⟩
      intro he
      have hend : accept k (s.across S) = .ok none (s.across S) :=
        hnil _ (by simp [Cursor.across, hr, S.follow_eq he])
      exact (reading_bind_ok hend).trans (hacross he)
    · obtain ⟨t?, s₁, htake, hon, hacross⟩ := @takeIf_across S (· = k) s (absurd · hr)
      rw [reading_bind_ok (p := accept k) htake] at hb
      obtain ⟨hon', hacross'⟩ := (hnext t?).error hb
      exact ⟨hon.trans hon', fun he => (reading_bind_ok hacross).trans (hacross' he)⟩

/-- A choice by a token, where what comes instead needs a token to start with. -/
theorem accept_ite {k : Kind} {q : Reading α} {q' : Reading β} (hp : Parallel S open? f p p')
    (hq : Parallel S open? f q q') (hrefuses : Refuses q) :
    Parallel S open? f (accept k >>= fun t? => if t?.isSome = true then p else q)
      (accept k >>= fun t? => if t?.isSome = true then p' else q') :=
  accept_bind (fun _ => hp) hq hrefuses

protected theorem expect (k : Kind) (what : Expectation) :
    Parallel S open? (Token.relabel S.relabel) (expect k what) (expect k what) :=
  accept_bind (fun _ => .pure rfl) (.fail what) (.fail what)

/-- Something that leaves the tokens as they are and records faults. -/
theorem of_record {make make' : Cursor → Diagnostic}
    (hd : ∀ s, S.exact → make' (s.across S) = (make s).relabel S.relabel) :
    Parallel S open? (fun u : Unit => u) (fun s => .ok () (s.record (make s)))
      (fun s => .ok () (s.record (make' s))) := by
  refine of_ok fun s => ⟨(), _, rfl, ⟨List.suffix_refl _, fun h => ?_⟩, fun hc => ?_⟩
  · simp [Cursor.record] at h
  · rcases hc with he | ⟨hfaults, -⟩
    · rw [hd s he]
      simp [Cursor.record, Cursor.across]
    · simp [Cursor.record] at hfaults

protected theorem report (token : Token) (fault : GrammarFault) :
    Parallel S open? (fun u : Unit => u) (report token fault)
      (report (token.relabel S.relabel) fault) :=
  of_record fun _ _ => rfl

protected theorem checkLimit (limit : Limit) (what : Listing) (count : Nat) :
    Parallel S open? (fun u : Unit => u) (checkLimit limit what count)
      (checkLimit limit what count) := by
  by_cases hl : limit.maxArguments ≤ count ∧ limit.strict
  · have hrecord : checkLimit limit what count = fun s : Cursor =>
        .ok () (s.record (.grammar s.next (.overLimit limit.maxArguments what))) :=
      funext fun s => if_pos hl
    rw [hrecord]
    exact of_record fun s he => by rw [next_across he]; rfl
  · have hpure : checkLimit limit what count = pure () := funext fun s => if_neg hl
    rw [hpure]
    exact .pure rfl

/-- An expression gets the next number in both. -/
protected theorem node {make make' : Nat → Expr}
    (hmake : ∀ n, make' (S.relabel.number n) = (make n).relabel S.relabel) :
    Parallel S open? (Expr.relabel S.relabel) (node make) (node make') := by
  refine of_ok fun s => ⟨_, _, rfl, ⟨List.suffix_refl _, id⟩, fun _ => ?_⟩
  show EStateM.Result.ok (make' (S.relabel.number s.nextId)) _ = _
  rw [hmake]
  simp [Cursor.across, S.number_succ]

theorem map_afterBoundary (g : Relabel) (ts : List Token) :
    afterBoundary (ts.map (Token.relabel g)) = (afterBoundary ts).map (Token.relabel g) := by
  induction ts with
  | nil => rfl
  | cons t rest ih =>
    rw [List.map_cons, afterBoundary, afterBoundary, ih]
    have hhead : (rest.map (Token.relabel g)).head?.any (startsStatement ·.kind)
        = rest.head?.any (startsStatement ·.kind) := by
      cases rest <;> rfl
    rw [hhead, Token.relabel_kind]
    split <;> rfl

protected theorem recovering (hp : Parallel S open? f p p') :
    Parallel S open? (Option.map f) (recovering p) (recovering p') := by
  have hlost : ∀ {s s₁ : Cursor} {d : Diagnostic}, s.Onward s₁ →
      s.Onward (s₁.record d).toBoundary := by
    intro s s₁ d hon
    refine ⟨(afterBoundary_suffix _).trans hon.rest, ?_⟩
    intro hfaults
    simp [Cursor.record, Cursor.toBoundary] at hfaults
  constructor
  · intro s a? s' hr
    unfold Parser.recovering at hr ⊢
    cases hp' : p s with
    | ok a s₁ =>
      rw [hp'] at hr
      cases hr
      refine ⟨hp.onward hp', ?_⟩
      intro hc
      rw [(hp.ok hp').2 hc]
      rfl
    | error e s₁ =>
      obtain ⟨hon, hacross⟩ := hp.error hp'
      rw [hp'] at hr
      cases e with
      | outOfRounds => cases hr
      | fault d =>
        cases hr
        refine ⟨hlost hon, ?_⟩
        intro hc
        rcases hc with he | ⟨hfaults, -⟩
        · rw [hacross he]
          simp [Halt.relabel, Cursor.record, Cursor.toBoundary, Cursor.across, S.follow_eq he,
            map_afterBoundary]
        · simp [Cursor.record, Cursor.toBoundary] at hfaults
  · intro s e s' hr
    unfold Parser.recovering at hr ⊢
    cases hp' : p s with
    | ok a s₁ =>
      rw [hp'] at hr
      cases hr
    | error e₁ s₁ =>
      obtain ⟨hon, hacross⟩ := hp.error hp'
      rw [hp'] at hr
      cases e₁ with
      | outOfRounds =>
        cases hr
        exact ⟨hon, fun he => by rw [hacross he]; rfl⟩
      | fault d => cases hr

/-! ### Repetition -/

protected theorem unlessNext (k : Kind) (hp : Parallel S False f p p') :
    Parallel S False (Option.map f) (unlessNext k p) (unlessNext k p') := by
  refine Parallel.peek?.bind fun t? => ?_
  have hany : (t?.map (Token.relabel S.relabel)).any (·.kind = k) = t?.any (·.kind = k) := by
    cases t? <;> rfl
  rw [hany]
  split
  · exact .pure rfl
  · exact hp.some_map

protected theorem upTo (closes : Kind → Bool) (hp : Parallel S False f p p')
    {rounds rounds' : Nat} (hrounds : Suffices S.exact rounds rounds') :
    Parallel S False (List.map f) (upTo closes p rounds) (upTo closes p' rounds') := by
  induction rounds generalizing rounds' with
  | zero => exact .outOfRounds fun he => by rw [hrounds.2 he]; rfl
  | succ rounds ih =>
    obtain ⟨rounds', rfl⟩ := hrounds.exists_succ
    refine Parallel.peek?.bind fun t? => ?_
    have hall : (t?.map (Token.relabel S.relabel)).all (closes ·.kind) = t?.all (closes ·.kind) := by
      cases t? <;> rfl
    rw [hall]
    split
    · exact .pure rfl
    · exact hp.bind fun a => (ih hrounds.pred).bind fun as => .pure rfl

protected theorem listed (limit : Limit) (what : Listing) (hp : Parallel S False f p p')
    {rounds rounds' : Nat} (hrounds : Suffices S.exact rounds rounds') (count : Nat) :
    Parallel S False (List.map f) (listed limit what p count rounds)
      (listed limit what p' count rounds') := by
  induction rounds generalizing rounds' count with
  | zero => exact .outOfRounds fun he => by rw [hrounds.2 he]; rfl
  | succ rounds ih =>
    obtain ⟨rounds', rfl⟩ := hrounds.exists_succ
    refine (Parallel.checkLimit limit what count).bind fun _ => hp.bind fun a => ?_
    refine (Parallel.accept .comma).bind fun t? => ?_
    rw [Option.isSome_map]
    split
    · exact (ih hrounds.pred (count + 1)).bind fun as => .pure rfl
    · exact .pure rfl

protected theorem listedOrNone (limit : Limit) (what : Listing) (hp : Parallel S False f p p')
    {rounds rounds' : Nat} (hrounds : Suffices S.exact rounds rounds') :
    Parallel S False (List.map f) (listedOrNone limit what p rounds)
      (listedOrNone limit what p' rounds') := by
  refine (Parallel.unlessNext .rightParen (Parallel.listed limit what hp hrounds 0)).bind
    fun as? => .pure ?_
  cases as? <;> rfl

end Parallel

/-- The readings do the same on the two lists. They start with a token, which is not an `else`. -/
structure Starts {α β : Type} (S : Setting) (open? : Prop) (f : α → β) (p : Reading α)
    (p' : Reading β) : Prop where
  parallel : Parallel S open? f p p'
  refuses : Refuses p
  consumes : Consumes p

namespace Starts

protected theorem outOfRounds (hr : S.exact → p' = throw .outOfRounds) :
    Starts S open? f (throw .outOfRounds) p' :=
  ⟨.outOfRounds hr, .outOfRounds, fun _ _ _ h => by cases h⟩

protected theorem accept_bind {k : Kind} {next : Option Token → Reading γ}
    {next' : Option Token → Reading δ} (hk : Kind.kwElse ≠ k)
    (hsome : ∀ t, Parallel S open? h (next (some t)) (next' (some (t.relabel S.relabel))))
    (hnone : Starts S open? h (next none) (next' none)) :
    Starts S open? h (accept k >>= next) (accept k >>= next') :=
  ⟨.accept_bind hsome hnone.parallel hnone.refuses, .accept_bind hk hnone.refuses,
    .accept_bind (fun t => (hsome t).onward) hnone.consumes⟩

/-- One more choice in front of others. -/
theorem choice {k : Kind} {q : Reading α} {q' : Reading β} (hk : Kind.kwElse ≠ k)
    (hp : Parallel S open? f p p') (hq : Starts S open? f q q') :
    Starts S open? f (accept k >>= fun t? => if t?.isSome = true then p else q)
      (accept k >>= fun t? => if t?.isSome = true then p' else q') :=
  .accept_bind hk (fun _ => hp) hq

end Starts

/-- The readings do the same on the two lists. If nothing is wrong, they start with a token, which is
not an `else`. -/
structure Recovers {α β : Type} (S : Setting) (open? : Prop) (f : α → β) (p : Reading α)
    (p' : Reading β) : Prop where
  parallel : Parallel S open? f p p'
  consumes : Consumes p
  faults_ne_nil : ∀ {s s' : Cursor} {a : α}, (∀ t ∈ s.rest.head?, t.kind = .kwElse) →
    p s = .ok a s' → s'.faults ≠ []

namespace Recovers

protected theorem outOfRounds (hr : S.exact → p' = throw .outOfRounds) :
    Recovers S open? f (throw .outOfRounds) p' :=
  ⟨.outOfRounds hr, fun _ _ _ h => (by cases h), fun _ h => by cases h⟩

theorem of_starts (hp : Starts S open? f p p') :
    Recovers S open? (Option.map f) (recovering p) (recovering p') :=
  ⟨.recovering hp.parallel, .recovering hp.consumes, hp.refuses.recovering⟩

end Recovers

end Parser

end Lox
