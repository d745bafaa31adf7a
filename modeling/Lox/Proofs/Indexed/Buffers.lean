import Lox.Proofs.Indexed.Parser

/-!
Buffers and the elementary steps in them. A buffer is in bounds if its place is not behind the first
end of program; what can be read from there is a `Cursor`. The place never goes back, and nothing
behind the first end of program is looked at (`Buffer.Leads`); a step that only looks leaves the
cursor as it is (`Looks`).
-/

namespace Lox.Indexed

open Lox.Parser (Cursor)

/-! ### Buffers -/

namespace Buffer

/-- The place of the first end of program. -/
def stop (b : Buffer) : Nat :=
  b.tokens.findIdx (·.kind = .eof)

/-- The place reached is not behind the first end of program. -/
structure InBounds (b : Buffer) : Prop where
  lt : b.stop < b.tokens.length
  le : b.current ≤ b.stop

/-- What can be read from the place on. -/
def cursor (b : Buffer) : Cursor where
  rest := (b.tokens.take b.stop).drop b.current
  stop := b.tokens[b.stop]?.getD default
  nextId := b.nextId
  faults := b.faults

/-- The second buffer has the same tokens and is further on, and between the two no place behind the
first end of program has been looked at. -/
structure Leads (b b' : Buffer) : Prop where
  tokens : b'.tokens = b.tokens
  forward : b.current ≤ b'.current
  le : b'.current ≤ b.stop
  reach : b'.reach ≤ max b.reach b.stop

/-- The token before the place. -/
def Behind (b : Buffer) (t : Token) : Prop :=
  0 < b.current ∧ b.tokens[b.current - 1]? = some t

variable {b b' b'' : Buffer}

theorem Leads.stop (h : b.Leads b') : b'.stop = b.stop := by
  rw [Buffer.stop, h.tokens, Buffer.stop]

theorem Leads.inBounds (h : b.Leads b') (hb : b.InBounds) : b'.InBounds := by
  refine ⟨?_, ?_⟩
  · rw [h.stop, h.tokens]
    exact hb.lt
  · rw [h.stop]
    exact h.le

theorem Leads.trans (h : b.Leads b') (h' : b'.Leads b'') : b.Leads b'' where
  tokens := h'.tokens.trans h.tokens
  forward := Nat.le_trans h.forward h'.forward
  le := h.stop ▸ h'.le
  reach := by
    have hreach := h'.reach
    rw [h.stop] at hreach
    have := h.reach
    omega

theorem InBounds.leads_refl (hb : b.InBounds) : b.Leads b :=
  ⟨rfl, Nat.le_refl _, hb.le, Nat.le_max_left _ _⟩

theorem InBounds.length_rest (hb : b.InBounds) : b.cursor.rest.length = b.stop - b.current := by
  have hlt := hb.lt
  simp only [cursor, List.length_drop, List.length_take]
  omega

theorem InBounds.getElem?_stop (hb : b.InBounds) : b.tokens[b.stop]? = some b.cursor.stop := by
  simp [cursor, List.getElem?_eq_getElem hb.lt]

theorem InBounds.stop_kind (hb : b.InBounds) : b.cursor.stop.kind = .eof := by
  have hkind := List.findIdx_getElem (w := hb.lt)
  rw [cursor, List.getElem?_eq_getElem hb.lt]
  exact of_decide_eq_true hkind

/-- The places up to the end hold the tokens that can be read. -/
theorem InBounds.cases (hb : b.InBounds) :
    (b.current = b.stop ∧ b.cursor.rest = [] ∧ b.tokens[b.current]? = some b.cursor.stop)
      ∨ ∃ t, b.current < b.stop ∧ t.kind ≠ .eof ∧ b.tokens[b.current]? = some t
        ∧ b.cursor.rest = t :: (b.tokens.take b.stop).drop (b.current + 1) := by
  by_cases hlt : b.current < b.stop
  · have hlength : b.current < b.tokens.length := Nat.lt_trans hlt hb.lt
    have htake : b.current < (b.tokens.take b.stop).length := by
      rw [List.length_take]
      exact Nat.lt_min.2 ⟨hlt, hlength⟩
    refine .inr ⟨b.tokens[b.current], hlt, ?_, List.getElem?_eq_getElem hlength, ?_⟩
    · have hkind := List.not_of_lt_findIdx hlt
      simpa using hkind
    · rw [cursor, List.drop_eq_getElem_cons htake, List.getElem_take]
  · have hend : b.current = b.stop := Nat.le_antisymm hb.le (Nat.le_of_not_lt hlt)
    refine .inl ⟨hend, ?_, hend ▸ hb.getElem?_stop⟩
    rw [cursor, hend, List.drop_eq_nil_iff]
    exact List.length_take_le _ _

/-- The second buffer is the first one, but that places have been looked at. -/
structure Still (b b' : Buffer) : Prop extends b.Leads b' where
  current : b'.current = b.current
  cursor : b'.cursor = b.cursor

theorem InBounds.still_refl (hb : b.InBounds) : b.Still b :=
  ⟨hb.leads_refl, rfl, rfl⟩

theorem Still.trans (h : b.Still b') (h' : b'.Still b'') : b.Still b'' :=
  ⟨h.toLeads.trans h'.toLeads, h'.current.trans h.current, h'.cursor.trans h.cursor⟩

theorem Still.behind (h : b.Still b') {t : Token} (ht : b.Behind t) : b'.Behind t := by
  unfold Behind
  rw [h.current, h.tokens]
  exact ht

/-- The second buffer is one token further on. -/
structure Passes (b : Buffer) (t : Token) (rest : List Token) (b' : Buffer) : Prop
    extends b.Leads b' where
  cursor : b'.cursor = { b.cursor with rest }
  behind : b'.Behind t

theorem Passes.still {t : Token} {rest : List Token} (h : b.Passes t rest b') (h' : b'.Still b'') :
    b.Passes t rest b'' :=
  ⟨h.toLeads.trans h'.toLeads, h'.cursor.trans h.cursor, h'.behind h.behind⟩

theorem Still.passes {t : Token} {rest : List Token} (h : b.Still b') (h' : b'.Passes t rest b'') :
    b.Passes t rest b'' :=
  ⟨h.toLeads.trans h'.toLeads, h.cursor ▸ h'.cursor, h'.behind⟩

end Buffer

open Scanning

variable {α β : Type} {b b' : Buffer}

theorem state_bind {x : StateT Buffer Option α} {f : α → StateT Buffer Option β} {a : α}
    (h : x b = some (a, b')) : (x >>= f) b = f a b' := by
  show StateT.bind x f b = _
  simp only [StateT.bind, h]
  rfl

theorem scanning_bind_ok {q : Scanning α} {next : α → Scanning β} {a : α}
    (hq : q b = some (.ok a, b')) : (q >>= next) b = next a b' :=
  (state_bind hq : (q.run >>= ExceptT.bindCont next) b = _)

theorem scanning_bind_error {q : Scanning α} {next : α → Scanning β} {d : Diagnostic}
    (hq : q b = some (.error d, b')) : (q >>= next) b = some (.error d, b') :=
  (state_bind hq : (q.run >>= ExceptT.bindCont next) b = _)

/-- Steps go on alike from two buffers if the first of them does the same from both. -/
theorem scanning_bind_congr {q : Scanning α} {next : α → Scanning β} (hq : q b = q b') :
    (q >>= next) b = (q >>= next) b' := by
  show StateT.bind q (ExceptT.bindCont next) b = StateT.bind q (ExceptT.bindCont next) b'
  simp only [StateT.bind, hq]

/-! ### Elementary steps -/

/-- The step gives this and leaves the buffer as it is, but that places may have been looked at. -/
def Looks (q : Scanning α) (b : Buffer) (a : α) : Prop :=
  ∃ b', q b = some (.ok a, b') ∧ b.Still b'

namespace Looks

theorem bind {q : Scanning α} {next : α → Scanning β} {a : α} {c : β} (h : Looks q b a)
    (hnext : ∀ b', b.Still b' → Looks (next a) b' c) : Looks (q >>= next) b c := by
  obtain ⟨b₁, hq, hstill⟩ := h
  obtain ⟨b₂, hnext, hstill'⟩ := hnext b₁ hstill
  exact ⟨b₂, (scanning_bind_ok hq).trans hnext, hstill.trans hstill'⟩

protected theorem pure (hb : b.InBounds) (a : α) : Looks (pure a) b a :=
  ⟨b, rfl, hb.still_refl⟩

protected theorem get (hb : b.InBounds) : Looks get b b :=
  ⟨b, rfl, hb.still_refl⟩

protected theorem tokenAt (hb : b.InBounds) {place : Nat} {t : Token} (hplace : place ≤ b.stop)
    (ht : b.tokens[place]? = some t) : Looks (tokenAt place) b t := by
  refine ⟨{ b with reach := max b.reach place }, ?_, ⟨rfl, Nat.le_refl _, hb.le, ?_⟩, rfl, rfl⟩
  · simp only [tokenAt, ht]
  · show max b.reach place ≤ max b.reach b.stop
    omega

protected theorem peek (hb : b.InBounds) : Looks peek b b.cursor.next := by
  refine (Looks.get hb).bind fun b' hb' => ?_
  refine Looks.tokenAt (hb'.inBounds hb) (hb'.stop ▸ hb.le) ?_
  rw [hb'.tokens, Cursor.next]
  rcases hb.cases with ⟨-, hrest, ht⟩ | ⟨t, -, -, ht, hrest⟩
  · rw [hrest, ht, List.headD_nil]
  · rw [hrest, ht, List.headD_cons]

protected theorem previous (hb : b.InBounds) {t : Token} (ht : b.Behind t) : Looks previous b t := by
  refine (Looks.get hb).bind fun b' hb' => ?_
  have hle := hb.le
  refine Looks.tokenAt (hb'.inBounds hb) (hb'.stop ▸ ?_) (hb'.tokens ▸ ht.2)
  omega

protected theorem isAtEnd (hb : b.InBounds) : Looks isAtEnd b b.cursor.rest.isEmpty := by
  refine (Looks.peek hb).bind fun b' hb' => ?_
  have hend : decide (b.cursor.next.kind = .eof) = b.cursor.rest.isEmpty := by
    rcases hb.cases with ⟨-, hrest, -⟩ | ⟨t, -, ht, -, hrest⟩
    · simp [Cursor.next, hrest, hb.stop_kind]
    · simp [Cursor.next, hrest, ht]
  rw [hend]
  exact .pure (hb'.inBounds hb) _

protected theorem check (hb : b.InBounds) (k : Kind) :
    Looks (check k) b (b.cursor.rest.head?.any (·.kind = k)) := by
  refine (Looks.isAtEnd hb).bind fun b' hb' => ?_
  have hb₁ := hb'.inBounds hb
  rw [← hb'.cursor]
  rcases hb₁.cases with ⟨-, hrest, -⟩ | ⟨t, -, ht, -, hrest⟩
  · rw [hrest]
    exact .pure hb₁ false
  · rw [hrest]
    refine (Looks.peek hb₁).bind fun b'' hb'' => ?_
    rw [Cursor.next, hrest]
    exact .pure (hb''.inBounds hb₁) _

/-- The next token is of one of these kinds. -/
protected theorem anyM_check (hb : b.InBounds) (ks : List Kind) :
    Looks (ks.anyM check) b (b.cursor.rest.head?.any fun t => ks.contains t.kind) := by
  induction ks generalizing b with
  | nil =>
    have hnone : (b.cursor.rest.head?.any fun t => ([] : List Kind).contains t.kind) = false := by
      cases b.cursor.rest.head? <;> rfl
    rw [hnone]
    exact .pure hb false
  | cons k ks ih =>
    refine (Looks.check hb k).bind fun b' hb' => ?_
    have hmore := ih (hb'.inBounds hb)
    rw [hb'.cursor] at hmore
    cases hr : b.cursor.rest.head? with
    | none =>
      rw [hr] at hmore
      exact hmore
    | some t =>
      rw [hr] at hmore
      rw [Option.any_some, Option.any_some, List.contains_cons]
      by_cases hk : t.kind = k
      · simp only [hk, decide_true, BEq.rfl, Bool.true_or]
        exact .pure (hb'.inBounds hb) true
      · simp only [hk, decide_false, beq_eq_false_iff_ne.2 hk, Bool.false_or]
        exact hmore

end Looks

/-- A token is taken. -/
theorem advance_passes (hb : b.InBounds) {t : Token} {rest : List Token}
    (hrest : b.cursor.rest = t :: rest) :
    ∃ b', advance b = some (.ok t, b') ∧ b.Passes t rest b' := by
  obtain ⟨b₁, hend, hb₁⟩ := Looks.isAtEnd hb
  rw [hrest] at hend
  rw [advance, scanning_bind_ok hend]
  let b₂ : Buffer :=
    { b₁ with current := b₁.current + 1, reach := max b₁.reach (b₁.current + 1) }
  rcases hb.cases with ⟨-, hnil, -⟩ | ⟨t', hlt, -, ht, hcons⟩
  · rw [hrest] at hnil
    cases hnil
  · obtain ⟨rfl, rfl⟩ := List.cons.inj (hrest.symm.trans hcons)
    have hleads : b₁.Leads b₂ := by
      refine ⟨rfl, Nat.le_succ _, ?_, ?_⟩
      · show b₁.current + 1 ≤ b₁.stop
        rw [hb₁.current, hb₁.stop]
        exact hlt
      · show max b₁.reach (b₁.current + 1) ≤ max b₁.reach b₁.stop
        rw [hb₁.current, hb₁.stop]
        omega
    have hbehind : b₂.Behind t := by
      refine ⟨Nat.succ_pos _, ?_⟩
      show b₁.tokens[b₁.current + 1 - 1]? = some t
      rw [Nat.add_sub_cancel, hb₁.tokens, hb₁.current]
      exact ht
    have hcursor : b₂.cursor = { b.cursor with rest := (b.tokens.take b.stop).drop (b.current + 1) } := by
      have hsame := hb₁.cursor
      simp only [Buffer.cursor, Cursor.mk.injEq] at hsame ⊢
      refine ⟨?_, hsame.2⟩
      show (b₁.tokens.take b₁.stop).drop (b₁.current + 1) = _
      rw [hb₁.tokens, hb₁.stop, hb₁.current]
    have hstep : step b₁ = some (.ok (), b₂) := rfl
    obtain ⟨b₃, hprevious, hb₃⟩ := Looks.previous (hleads.inBounds (hb₁.inBounds hb)) hbehind
    have hpasses : b.Passes t ((b.tokens.take b.stop).drop (b.current + 1)) b₂ :=
      ⟨hb₁.toLeads.trans hleads, hcursor, hbehind⟩
    exact ⟨b₃, (scanning_bind_ok hstep).trans hprevious, hpasses.still hb₃⟩

end Lox.Indexed
