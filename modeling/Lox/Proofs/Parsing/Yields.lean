import Lox.Proofs.Grammar.Written
import Lox.Proofs.Parsing.Parallel

/-!
What a reading has taken. `Yields` says of a reading that succeeds with nothing wrong that nothing
was wrong before, and that what it gives, the tokens it has taken and those it leaves are as `post`
says. There is one rule for each elementary step and for each way of reading one thing after another.
-/

namespace Lox

namespace Parser

/-- The reading yields what `post` says from this place on. -/
def YieldsAt {α : Type} (s : Cursor) (p : Reading α) (post : α → List Token → List Token → Prop) :
    Prop :=
  ∀ a s', p s = .ok a s' → s'.faults = [] →
    s.faults = [] ∧ ∃ ts, s.rest = ts ++ s'.rest ∧ post a ts s'.rest

/-- The reading yields what `post` says of its value, of the tokens taken and of those left. -/
def Yields {α : Type} (p : Reading α) (post : α → List Token → List Token → Prop) : Prop :=
  ∀ s, YieldsAt s p post

namespace Yields

variable {α β : Type} {p q : Reading α} {next : α → Reading β}
  {mid post post' : α → List Token → List Token → Prop}
  {last : β → List Token → List Token → Prop}

theorem conseq (h : Yields p post) (hpost : ∀ a ts rest, post a ts rest → post' a ts rest) :
    Yields p post' := by
  intro s a s' hp hfaults
  obtain ⟨hs, ts, hts, ha⟩ := h s a s' hp hfaults
  exact ⟨hs, ts, hts, hpost a ts _ ha⟩

protected theorem pure {a : α} (h : ∀ rest, post a [] rest) : Yields (pure a) post := by
  intro s b s' hp hfaults
  cases hp
  exact ⟨hfaults, [], rfl, h s.rest⟩

protected theorem outOfRounds : Yields (throw .outOfRounds : Reading α) post :=
  fun _ _ _ h => by cases h

protected theorem fail {what : Expectation} : Yields (fail what : Reading α) post :=
  fun _ _ _ h => by cases h

/-- One reading after another. What the first one yields is known only if nothing is wrong after the
second one, so that it is a premise of what the second one yields. -/
protected theorem bind (h : Yields p mid)
    (hnext : ∀ a ts, Yields (next a) fun b us rest => mid a ts (us ++ rest) → last b (ts ++ us) rest) :
    Yields (p >>= next) last := by
  intro s b s' hb hfaults
  cases hr : p s with
  | error e s₁ =>
    rw [reading_bind_error hr] at hb
    cases hb
  | ok a s₁ =>
    rw [reading_bind_ok hr] at hb
    obtain ⟨hs₁, -⟩ := hnext a [] s₁ b s' hb hfaults
    obtain ⟨hs, ts, hts, ha⟩ := h s a s₁ hr hs₁
    obtain ⟨-, us, hus, hlast⟩ := hnext a ts s₁ b s' hb hfaults
    exact ⟨hs, ts ++ us, by rw [hts, hus, List.append_assoc], hlast (hus ▸ ha)⟩

/-- What is made of what a reading gives. -/
protected theorem bind_pure {f : α → β} (h : Yields p fun a ts rest => last (f a) ts rest) :
    Yields (p >>= fun a => pure (f a)) last :=
  h.bind fun _ ts => .pure fun _ ha => (List.append_nil ts).symm ▸ ha

protected theorem map {f : α → β} (h : Yields p fun a ts rest => last (f a) ts rest) :
    Yields (f <$> p) last := by
  rw [map_eq_pure_bind]
  exact h.bind_pure

/-! ### Elementary steps -/

/-- The token at a place is taken, and what follows depends on it. -/
theorem advance_bind {s : Cursor} {t : Token} {rest : List Token} {next : Token → Reading β}
    (hr : s.rest = t :: rest)
    (h : Yields (next t) fun b us rest => last b (t :: us) rest) :
    YieldsAt s (advance >>= next) last := by
  intro b s' hb hfaults
  have hadvance : advance s = .ok t { s with rest } := by
    simp [advance, Cursor.next, hr]
  rw [reading_bind_ok hadvance] at hb
  obtain ⟨hs, us, hus, hlast⟩ := h _ b s' hb hfaults
  exact ⟨hs, t :: us, by rw [hr, List.cons_append, ← hus], hlast⟩

/-- A token that is accepted is taken; if none is, what follows starts with another one. -/
theorem takeIf_bind {accepts : Kind → Bool} {next : Option Token → Reading β}
    (hsome : ∀ t, accepts t.kind = true →
      Yields (next (some t)) fun b us rest => last b (t :: us) rest)
    (hnone : Yields (next none) fun b us rest =>
      (∀ t ∈ (us ++ rest).head?, accepts t.kind = false) → last b us rest) :
    Yields (takeIf accepts >>= next) last := by
  intro s b s' hb hfaults
  have hskip (htake : takeIf accepts s = .ok none s)
      (hhead : ∀ t ∈ s.rest.head?, accepts t.kind = false) :
      s.faults = [] ∧ ∃ ts, s.rest = ts ++ s'.rest ∧ last b ts s'.rest := by
    rw [reading_bind_ok htake] at hb
    obtain ⟨hs, us, hus, hlast⟩ := hnone s b s' hb hfaults
    exact ⟨hs, us, hus, hlast (hus ▸ hhead)⟩
  cases hr : s.rest with
  | nil =>
    rw [← hr]
    exact hskip (by simp only [takeIf, hr]) (by simp [hr])
  | cons t rest =>
    by_cases ha : accepts t.kind = true
    · have htake : takeIf accepts s = .ok (some t) { s with rest } := by
        simp only [takeIf, hr, if_pos ha]
      rw [reading_bind_ok htake] at hb
      obtain ⟨hs, us, hus, hlast⟩ := hsome t ha _ b s' hb hfaults
      exact ⟨hs, t :: us, congrArg (t :: ·) hus, hlast⟩
    · rw [← hr]
      refine hskip ?_ (by simpa [hr] using ha)
      simp only [takeIf, hr]
      exact if_neg ha

theorem accept_bind {k : Kind} {next : Option Token → Reading β}
    (hsome : ∀ t, t.kind = k → Yields (next (some t)) fun b us rest => last b (t :: us) rest)
    (hnone : Yields (next none) fun b us rest =>
      (∀ t ∈ (us ++ rest).head?, t.kind ≠ k) → last b us rest) :
    Yields (accept k >>= next) last :=
  takeIf_bind (fun t ht => hsome t (of_decide_eq_true ht))
    (hnone.conseq fun _ _ _ h hhead => h fun t ht => of_decide_eq_false (hhead t ht))

/-- One thing after a token of that kind, another one without it. -/
theorem accept_ite {k : Kind} {p q : Reading β}
    (hsome : ∀ t, t.kind = k → Yields p fun b us rest => last b (t :: us) rest)
    (hnone : Yields q fun b us rest => (∀ t ∈ (us ++ rest).head?, t.kind ≠ k) → last b us rest) :
    Yields (accept k >>= fun t? => if t?.isSome = true then p else q) last :=
  accept_bind hsome hnone

theorem expect_bind {k : Kind} {what : Expectation} {next : Token → Reading β}
    (h : ∀ t, t.kind = k → Yields (next t) fun b us rest => last b (t :: us) rest) :
    Yields (expect k what >>= next) last := by
  unfold Parser.expect
  rw [bind_assoc]
  exact accept_bind (fun t ht => h t ht) fun _ _ _ h => by cases h

protected theorem expect {k : Kind} {what : Expectation}
    {post : Token → List Token → List Token → Prop}
    (h : ∀ t rest, t.kind = k → post t [t] rest) : Yields (expect k what) post :=
  accept_bind (fun t ht => .pure fun rest => h t rest ht) fun _ _ _ h => by cases h

theorem node_bind {make : Nat → Expr} {next : Expr → Reading β}
    (h : ∀ id, Yields (next (make id)) last) : Yields (node make >>= next) last :=
  fun s b s' hb hfaults => h s.nextId { s with nextId := s.nextId + 1 } b s' hb hfaults

protected theorem node {make : Nat → Expr} {post : Expr → List Token → List Token → Prop}
    (h : ∀ id rest, post (make id) [] rest) : Yields (node make) post := by
  intro s e s' hp hfaults
  cases hp
  exact ⟨hfaults, [], rfl, h s.nextId s.rest⟩

/-- A fault has been recorded. -/
protected theorem report {token : Token} {fault : GrammarFault}
    {post : Unit → List Token → List Token → Prop} : Yields (report token fault) post := by
  intro s _ s' hp hfaults
  cases hp
  simp [Cursor.record] at hfaults

protected theorem checkLimit (limit : Limit) (what : Listing) (count : Nat) :
    Yields (checkLimit limit what count) fun _ ts _ => ts = [] ∧ limit.Allows (count + 1) := by
  intro s _ s' hp hfaults
  unfold Parser.checkLimit at hp
  split at hp
  · cases hp
    simp [Cursor.record] at hfaults
  · rename_i hl
    cases hp
    refine ⟨hfaults, [], rfl, rfl, fun hstrict => ?_⟩
    exact Nat.lt_of_not_le fun hle => hl ⟨hle, hstrict⟩

/-- What cannot be read has been recorded as a fault. -/
protected theorem recovering (h : Yields p post) :
    Yields (recovering p) fun a? ts rest => ∃ a, a? = some a ∧ post a ts rest := by
  intro s a? s' hr hfaults
  unfold Parser.recovering at hr
  cases hp : p s with
  | ok a s₁ =>
    rw [hp] at hr
    cases hr
    obtain ⟨hs, ts, hts, ha⟩ := h s a _ hp hfaults
    exact ⟨hs, ts, hts, a, rfl, ha⟩
  | error e s₁ =>
    rw [hp] at hr
    cases e with
    | outOfRounds => cases hr
    | fault d =>
      cases hr
      simp [Cursor.record, Cursor.toBoundary] at hfaults

/-! ### Repetition -/

protected theorem unlessNext {k : Kind} (h : Yields p post) :
    Yields (unlessNext k p) fun a? ts rest =>
      (a? = none ∧ ts = []) ∨ ∃ a, a? = some a ∧ post a ts rest := by
  intro s a? s' hr hfaults
  have hpeek : unlessNext k p s
      = (if s.rest.head?.any (·.kind = k) = true then pure none else some <$> p : Reading _) s := rfl
  have hsome : Yields (some <$> p) fun a? ts rest =>
      (a? = none ∧ ts = []) ∨ ∃ a, a? = some a ∧ post a ts rest :=
    .map (h.conseq fun a _ _ ha => .inr ⟨a, rfl, ha⟩)
  rw [hpeek] at hr
  split at hr
  · cases hr
    exact ⟨hfaults, [], rfl, .inl ⟨rfl, rfl⟩⟩
  · exact hsome s a? s' hr hfaults

section

variable {good : α → List Token → Prop} {each : List α → List Token → Prop}

/-- One thing after another, until what closes them or the end. -/
protected theorem upTo {closes : Kind → Bool} (h : Yields p fun a ts _ => good a ts)
    (hnil : each [] [])
    (hcons : ∀ {a as ts us}, good a ts → each as us → each (a :: as) (ts ++ us)) (rounds : Nat) :
    Yields (upTo closes p rounds) fun as ts rest =>
      each as ts ∧ ∀ t ∈ rest.head?, closes t.kind = true := by
  induction rounds with
  | zero => exact .outOfRounds
  | succ rounds ih =>
    intro s as s' hr hfaults
    have hpeek : upTo closes p (rounds + 1) s
        = (if s.rest.head?.all (closes ·.kind) = true then pure []
          else p >>= fun a => upTo closes p rounds >>= fun as => pure (a :: as) : Reading _) s := rfl
    have hmore : Yields (p >>= fun a => upTo closes p rounds >>= fun as => pure (a :: as))
        fun as ts rest => each as ts ∧ ∀ t ∈ rest.head?, closes t.kind = true :=
      h.bind fun a ts => (ih.conseq fun as us _ has ha => ⟨hcons ha has.1, has.2⟩).bind_pure
    rw [hpeek] at hr
    split at hr
    · rename_i hcloses
      cases hr
      rw [Option.all_eq_true] at hcloses
      exact ⟨hfaults, [], rfl, hnil, hcloses⟩
    · exact hmore s as s' hr hfaults

/-- Things with commas between them. -/
protected theorem listed {limit : Limit} {what : Listing} (h : Yields p fun a ts _ => good a ts)
    (hone : ∀ {a ts}, good a ts → each [a] ts)
    (hmore : ∀ {a as ts us comma}, good a ts → comma.kind = .comma → each as us →
      each (a :: as) (ts ++ comma :: us)) (rounds count : Nat) :
    Yields (listed limit what p count rounds) fun as ts _ =>
      each as ts ∧ limit.Allows (count + as.length) := by
  induction rounds generalizing count with
  | zero => exact .outOfRounds
  | succ rounds ih =>
    refine (Yields.checkLimit limit what count).bind fun _ ts => ?_
    refine h.bind fun a us => accept_ite (fun comma hcomma => ?_) ?_
    · refine ((ih (count + 1)).conseq fun as vs rest has ha hcount => ?_).bind_pure
      obtain ⟨rfl, -⟩ := hcount
      refine ⟨hmore ha hcomma has.1, ?_⟩
      rw [List.length_cons, Nat.add_comm as.length, ← Nat.add_assoc]
      exact has.2
    · refine .pure fun rest _ ha hcount => ?_
      obtain ⟨rfl, hcount⟩ := hcount
      rw [List.append_nil]
      exact ⟨hone ha, hcount⟩

/-- Things with commas between them, or nothing. -/
protected theorem listedOrNone {limit : Limit} {what : Listing}
    (h : Yields p fun a ts _ => good a ts) (hone : ∀ {a ts}, good a ts → each [a] ts)
    (hmore : ∀ {a as ts us comma}, good a ts → comma.kind = .comma → each as us →
      each (a :: as) (ts ++ comma :: us)) (rounds : Nat) :
    Yields (listedOrNone limit what p rounds) fun as ts _ =>
      (as = [] ∧ ts = []) ∨ each as ts ∧ limit.Allows as.length := by
  refine ((Yields.unlessNext (Yields.listed h hone hmore rounds 0)).conseq
    fun as? ts rest hpost => ?_).bind_pure
  rcases hpost with ⟨rfl, rfl⟩ | ⟨as, rfl, has, hcount⟩
  · exact .inl ⟨rfl, rfl⟩
  · exact .inr ⟨has, Nat.zero_add as.length ▸ hcount⟩

end

end Yields

end Parser

end Lox
