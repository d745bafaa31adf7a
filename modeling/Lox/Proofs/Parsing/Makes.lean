import Lox.Program.Cursor
import Lox.Proofs.Tree.Proper

/-!
What a reading makes. `Makes` says of a reading that starts with the number `n`: it never goes back,
neither in the tokens nor in the numbers, all faults it finds are those of parsing, and if it succeeds, then
what it has read is as `post` says.
The tokens are those of a program (`Token.Sound`). There is one rule for each elementary step and for
each way of reading one thing after another.
-/

namespace Lox

/-- Numbers from `n` on and below `n'`, no two of them the same. -/
structure Numbered (n n' : Nat) (ids : List Nat) : Prop where
  nodup : ids.Nodup
  bounds : ∀ id ∈ ids, n ≤ id ∧ id < n'

namespace Numbered

variable {n n₁ n' : Nat} {ids ids' : List Nat}

theorem nil (n n' : Nat) : Numbered n n' [] := ⟨.nil, by simp⟩

theorem append (h : Numbered n n₁ ids) (h' : Numbered n₁ n' ids') (hle : n ≤ n₁) (hle' : n₁ ≤ n') :
    Numbered n n' (ids ++ ids') := by
  refine ⟨List.nodup_append.2 ⟨h.nodup, h'.nodup, ?_⟩, ?_⟩
  · intro i hi j hj he
    have := h.bounds i hi
    have := h'.bounds j hj
    omega
  · intro i hi
    rcases List.mem_append.1 hi with hi | hi
    · have := h.bounds i hi
      omega
    · have := h'.bounds i hi
      omega

/-- An expression gets its number after those in it. -/
theorem cons (h : Numbered n n' ids) (hle : n ≤ n') : Numbered n (n' + 1) (n' :: ids) := by
  refine ⟨List.nodup_cons.2 ⟨?_, h.nodup⟩, ?_⟩
  · intro hi
    have := h.bounds n' hi
    omega
  · intro i hi
    rcases List.mem_cons.1 hi with rfl | hi
    · omega
    · have := h.bounds i hi
      omega

theorem below (h : Numbered n n' ids) : ∀ id ∈ ids, id < n' :=
  fun id hid => (h.bounds id hid).2

theorem single (n : Nat) : Numbered n (n + 1) [n] :=
  (nil n n).cons (Nat.le_refl n)

theorem perm (h : Numbered n n' ids) (hids : ids.Perm ids') : Numbered n n' ids' :=
  ⟨hids.nodup_iff.1 h.nodup, fun i hi => h.bounds i (hids.mem_iff.2 hi)⟩

theorem mono {m m' : Nat} (h : Numbered n n' ids) (hle : m ≤ n) (hle' : n' ≤ m') :
    Numbered m m' ids := by
  refine ⟨h.nodup, ?_⟩
  intro i hi
  have := h.bounds i hi
  omega

end Numbered

namespace Parser

/-- The second place comes after the first one; faults recorded between them are those of
parsing. -/
structure Cursor.Before (s s' : Cursor) : Prop where
  nextId : s.nextId ≤ s'.nextId
  rest : s'.rest <:+ s.rest
  faults : ∀ d ∈ s'.faults, d ∈ s.faults ∨ d.stage = .parsing

theorem Cursor.Before.refl (s : Cursor) : s.Before s :=
  ⟨Nat.le_refl _, List.suffix_refl _, fun _ => .inl⟩

theorem Cursor.Before.trans {s s' s'' : Cursor} (h : s.Before s') (h' : s'.Before s'') :
    s.Before s'' :=
  ⟨Nat.le_trans h.nextId h'.nextId, h'.rest.trans h.rest, fun d hd =>
    (h'.faults d hd).elim (h.faults d) .inr⟩

/-- A fault at which a reading halts is one of parsing. -/
def Halt.OfParsing (e : Halt) : Prop :=
  ∀ d, e = .fault d → d.stage = .parsing

/-- The reading makes what `post` says from this place on, and never goes back. -/
def MakesAt {α : Type} (s : Cursor) (p : Reading α) (post : Nat → α → Prop) : Prop :=
  match p s with
  | .ok a s' => s.Before s' ∧ post s'.nextId a
  | .error e s' => s.Before s' ∧ e.OfParsing

/-- The reading makes what `post` says from every place on at which the next number is `n`. -/
def Makes {α : Type} (n : Nat) (p : Reading α) (post : Nat → α → Prop) : Prop :=
  ∀ s : Cursor, s.nextId = n → (∀ t ∈ s.rest, t.Sound) → MakesAt s p post

namespace Makes

variable {α β : Type} {n : Nat} {p : Reading α} {post mid : Nat → α → Prop}

theorem conseq {post' : Nat → α → Prop} (h : Makes n p post)
    (hpost : ∀ n' a, n ≤ n' → post n' a → post' n' a) : Makes n p post' := by
  rintro s rfl hs
  have h := h s rfl hs
  unfold MakesAt at *
  split
  · rename_i a s' hp
    rw [hp] at h
    exact ⟨h.1, hpost _ _ h.1.nextId h.2⟩
  · rename_i e s' hp
    rwa [hp] at h

/-- A step that leaves the number as it is and does not go back. -/
theorem of_step {s s' : Cursor} {a : α} (hp : p s = .ok a s') (hn : s'.nextId = s.nextId)
    (hs : s.Before s') (h : post s.nextId a) : MakesAt s p post := by
  unfold MakesAt
  rw [hp]
  exact ⟨hs, hn.symm ▸ h⟩

theorem of_halt {s : Cursor} {e : Halt} (hp : p s = .error e s) (he : e.OfParsing) :
    MakesAt s p post := by
  unfold MakesAt
  rw [hp]
  exact ⟨.refl s, he⟩

/-- The place after one that takes tokens. -/
theorem before_of_suffix {s : Cursor} {rest : List Token} (h : rest <:+ s.rest) :
    s.Before { s with rest } :=
  ⟨Nat.le_refl _, h, fun _ => .inl⟩

/-- The place after one that records a fault. -/
theorem before_record (s : Cursor) {d : Diagnostic} (h : d.stage = .parsing) :
    s.Before (s.record d) := by
  refine ⟨Nat.le_refl _, List.suffix_refl _, ?_⟩
  intro d' hd
  rcases List.mem_append.1 hd with hd | hd
  · exact .inl hd
  · exact .inr (List.mem_singleton.1 hd ▸ h)

protected theorem pure {a : α} (h : post n a) : Makes n (pure a) post := by
  rintro s rfl -
  exact of_step rfl rfl (.refl s) h

theorem outOfRounds : Makes n (throw .outOfRounds : Reading α) post :=
  fun _ _ _ => of_halt rfl fun _ h => by cases h

theorem bindAt {s : Cursor} {f : α → Reading β} {post : Nat → β → Prop} (h : MakesAt s p mid)
    (hs : ∀ t ∈ s.rest, t.Sound)
    (hnext : ∀ n' a, s.nextId ≤ n' → mid n' a → Makes n' (f a) post) :
    MakesAt s (p >>= f) post := by
  unfold MakesAt at h
  split at h
  · rename_i a s₁ hp
    obtain ⟨hbefore, hmid⟩ := h
    have h' := hnext _ a hbefore.nextId hmid s₁ rfl fun t ht => hs t (hbefore.rest.mem ht)
    have hbind : (p >>= f) s = f a s₁ := by simp only [Bind.bind, EStateM.bind, hp]
    unfold MakesAt at *
    rw [hbind]
    split
    · rename_i b s₂ hf
      rw [hf] at h'
      exact ⟨hbefore.trans h'.1, h'.2⟩
    · rename_i e s₂ hf
      rw [hf] at h'
      exact ⟨hbefore.trans h'.1, h'.2⟩
  · rename_i e s₁ hp
    have hbind : (p >>= f) s = .error e s₁ := by simp only [Bind.bind, EStateM.bind, hp]
    unfold MakesAt
    rwa [hbind]

protected theorem bind {f : α → Reading β} {post : Nat → β → Prop} (h : Makes n p mid)
    (hnext : ∀ n' a, n ≤ n' → mid n' a → Makes n' (f a) post) : Makes n (p >>= f) post := by
  rintro s rfl hs
  exact bindAt (h s rfl hs) hs hnext

theorem map {f : α → β} {post : Nat → β → Prop} (h : Makes n p fun n' a => post n' (f a)) :
    Makes n (f <$> p) post := by
  rw [map_eq_pure_bind]
  exact h.bind fun _ _ _ hpost => .pure hpost

/-! ### Elementary steps -/

protected theorem peek? : Makes n peek? fun n' _ => n' = n := by
  rintro s rfl -
  exact of_step rfl rfl (.refl s) rfl

/-- The token at a place is taken, and what follows depends on it. -/
theorem advance_bind {s : Cursor} {t : Token} {rest : List Token} {f : Token → Reading β}
    {post : Nat → β → Prop} (hr : s.rest = t :: rest) (hs : ∀ t ∈ s.rest, t.Sound)
    (h : Makes s.nextId (f t) post) : MakesAt s (advance >>= f) post := by
  have hadvance : MakesAt s advance fun n' t' => n' = s.nextId ∧ t' = t := by
    exact of_step rfl rfl (before_of_suffix (List.tail_suffix _)) ⟨rfl, by simp [Cursor.next, hr]⟩
  refine bindAt hadvance hs fun n' t' _ hmid => ?_
  obtain ⟨rfl, rfl⟩ := hmid
  exact h

protected theorem takeIf (accepts : Kind → Bool) :
    Makes n (takeIf accepts) fun n' t? => n' = n ∧ ∀ t, t? = some t → t.Sound ∧ accepts t.kind := by
  rintro s rfl hs
  cases hr : s.rest with
  | nil =>
    have hp : Parser.takeIf accepts s = .ok none s := by simp only [Parser.takeIf, hr]
    exact of_step hp rfl (.refl s) ⟨rfl, by simp⟩
  | cons t rest =>
    by_cases ha : accepts t.kind = true
    · have hp : Parser.takeIf accepts s = .ok (some t) { s with rest } := by
        simp only [Parser.takeIf, hr, if_pos ha]
      refine of_step hp rfl (before_of_suffix (hr ▸ List.suffix_cons t rest)) ⟨rfl, ?_⟩
      rintro _ ⟨⟩
      exact ⟨hs t (by simp [hr]), ha⟩
    · have hp : Parser.takeIf accepts s = .ok none s := by
        simp only [Parser.takeIf, hr]
        exact if_neg ha
      exact of_step hp rfl (.refl s) ⟨rfl, by simp⟩

protected theorem accept (k : Kind) :
    Makes n (accept k) fun n' t? => n' = n ∧ ∀ t, t? = some t → t.Sound ∧ t.kind = k :=
  (Makes.takeIf _).conseq fun _ _ _ h => ⟨h.1, fun t ht => by simpa using h.2 t ht⟩

protected theorem fail {what : Expectation} : Makes n (fail what : Reading α) post :=
  fun _ _ _ => of_halt rfl fun _ h => by cases h; rfl

protected theorem expect (k : Kind) (what : Expectation) :
    Makes n (expect k what) fun n' t => n' = n ∧ t.Sound ∧ t.kind = k := by
  refine (Makes.accept k).bind fun n' t? _ h => ?_
  obtain ⟨rfl, h⟩ := h
  cases t? with
  | none => exact .fail
  | some t => exact .pure ⟨rfl, h t rfl⟩

/-- A name that is expected. -/
theorem expect_name (what : Expectation) :
    Makes n (Parser.expect .identifier what) fun n' t => n' = n ∧ t.IsName :=
  (Makes.expect _ what).conseq fun _ _ _ h => ⟨h.1, h.2.1.1 h.2.2⟩

protected theorem report (token : Token) (fault : GrammarFault) :
    Makes n (report token fault) fun n' _ => n' = n := by
  rintro s rfl -
  exact of_step rfl rfl (before_record s rfl) rfl

protected theorem node (make : Nat → Expr) :
    Makes n (node make) fun n' e => n' = n + 1 ∧ e = make n := by
  rintro s rfl -
  exact ⟨⟨Nat.le_succ _, List.suffix_refl _, fun _ => .inl⟩, rfl, rfl⟩

protected theorem checkLimit (limit : Limit) (what : Listing) (count : Nat) :
    Makes n (checkLimit limit what count) fun n' _ => n' = n := by
  rintro s rfl -
  by_cases hl : limit.maxArguments ≤ count ∧ limit.strict
  · exact of_step (if_pos hl) rfl (before_record s rfl) rfl
  · exact of_step (if_neg hl) rfl (.refl s) rfl

/-- A step that makes nothing and gives nothing that matters. -/
theorem skip {f : α → Reading β} {post : Nat → β → Prop} {inner : α → Prop}
    (h : Makes n p fun n' a => n' = n ∧ inner a) (hnext : ∀ a, inner a → Makes n (f a) post) :
    Makes n (p >>= f) post :=
  h.bind fun _ a _ hmid => hmid.1 ▸ hnext a hmid.2

protected theorem recovering (h : Makes n p post) :
    Makes n (recovering p) fun n' a? => ∀ a, a? = some a → post n' a := by
  rintro s rfl hs
  have h := h s rfl hs
  unfold MakesAt Parser.recovering at *
  cases hp : p s with
  | ok a s' =>
    rw [hp] at h
    exact ⟨h.1, by rintro _ ⟨⟩; exact h.2⟩
  | error e s' =>
    rw [hp] at h
    cases e with
    | fault d =>
      have hrecord := h.1.trans (before_record s' (h.2 d rfl))
      exact ⟨hrecord.trans (before_of_suffix (afterBoundary_suffix _)), by simp⟩
    | outOfRounds => exact ⟨h.1, fun _ h => by cases h⟩

/-! ### Repetition -/

protected theorem unlessNext {k : Kind} (h : Makes n p post) :
    Makes n (unlessNext k p) fun n' a? => (a? = none ∧ n' = n) ∨ ∃ a, a? = some a ∧ post n' a := by
  refine Makes.peek?.bind fun n' t? _ hn => ?_
  subst hn
  split
  · exact .pure (.inl ⟨rfl, rfl⟩)
  · exact map (h.conseq fun _ a _ hpost => .inr ⟨a, rfl, hpost⟩)

section

variable {entry : Reading α} {good : Nat → Nat → α → Prop} {each : Nat → Nat → List α → Prop}

/-- One thing after another: `each` is said of all, and `good` of each one. -/
protected theorem upTo (closes : Kind → Bool) (hentry : ∀ n, Makes n entry (good n))
    (hnil : ∀ n, each n n [])
    (hcons : ∀ {n n₁ n' a as}, n ≤ n₁ → n₁ ≤ n' → good n n₁ a → each n₁ n' as → each n n' (a :: as))
    (rounds : Nat) (n : Nat) : Makes n (upTo closes entry rounds) (each n) := by
  induction rounds generalizing n with
  | zero => exact .outOfRounds
  | succ rounds ih =>
    refine Makes.peek?.bind fun n' t? _ hn => ?_
    subst hn
    split
    · exact .pure (hnil _)
    · refine (hentry _).bind fun n₁ a hle ha => ?_
      refine (ih n₁).bind fun n₂ as hle' has => ?_
      exact .pure (hcons hle hle' ha has)

protected theorem listed (limit : Limit) (what : Listing) (hentry : ∀ n, Makes n entry (good n))
    (hnil : ∀ n, each n n [])
    (hcons : ∀ {n n₁ n' a as}, n ≤ n₁ → n₁ ≤ n' → good n n₁ a → each n₁ n' as → each n n' (a :: as))
    (rounds : Nat) (count n : Nat) :
    Makes n (listed limit what entry count rounds) (each n) := by
  induction rounds generalizing n count with
  | zero => exact .outOfRounds
  | succ rounds ih =>
    refine (Makes.checkLimit limit what count).bind fun n' _ _ hn => ?_
    subst hn
    refine (hentry _).bind fun n₁ a hle ha => ?_
    refine (Makes.accept _).skip fun t? _ => ?_
    split
    · refine (ih (count + 1) n₁).bind fun n₂ as hle' has => ?_
      exact .pure (hcons hle hle' ha has)
    · exact .pure (hcons hle (Nat.le_refl _) ha (hnil n₁))

protected theorem listedOrNone (limit : Limit) (what : Listing) (hentry : ∀ n, Makes n entry (good n))
    (hnil : ∀ n, each n n [])
    (hcons : ∀ {n n₁ n' a as}, n ≤ n₁ → n₁ ≤ n' → good n n₁ a → each n₁ n' as → each n n' (a :: as))
    (rounds n : Nat) : Makes n (listedOrNone limit what entry rounds) (each n) := by
  refine (Makes.unlessNext (Makes.listed limit what hentry hnil hcons rounds 0 n)).bind
    fun n' as? _ h => ?_
  rcases h with ⟨rfl, rfl⟩ | ⟨as, rfl, h⟩
  · exact .pure (hnil _)
  · exact .pure h

end

end Makes

end Parser

end Lox
