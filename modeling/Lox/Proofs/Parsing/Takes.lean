import Lox.Proofs.Grammar.Rules
import Lox.Proofs.Parsing.Parallel

/-!
What a reading takes. `Takes` says that a reading succeeds wherever these tokens stand before those
others and nothing has been wrong: it takes them, leaves the others, finds nothing wrong, and gives
what `post` says. There is one rule for each elementary step and for each way of reading one thing
after another.
-/

namespace Lox

namespace Parser

/-- The reading takes the tokens `ts` where `rest` follows, and gives what `post` says. -/
def Takes {α : Type} (p : Reading α) (ts rest : List Token) (post : α → Prop) : Prop :=
  ∀ s : Cursor, s.rest = ts ++ rest → s.faults = [] →
    ∃ a s', p s = .ok a s' ∧ s'.rest = rest ∧ s'.faults = [] ∧ post a

/-- The next token is of this kind. -/
def Next (k : Kind) (rest : List Token) : Prop :=
  rest.head?.map Token.kind = some k

theorem next_cons {t : Token} {k : Kind} (ht : t.kind = k) (rest : List Token) :
    Next k (t :: rest) :=
  congrArg some ht

theorem Next.kind_eq {k : Kind} {rest : List Token} (h : Next k rest) {t : Token}
    (ht : t ∈ rest.head?) : t.kind = k := by
  rw [Next, Option.mem_def.1 ht] at h
  exact Option.some.inj h

namespace Takes

variable {α β : Type} {p : Reading α} {next : α → Reading β} {ts us rest : List Token} {t : Token}
  {post post' : α → Prop} {last : β → Prop}

theorem conseq (h : Takes p ts rest post) (hpost : ∀ a, post a → post' a) :
    Takes p ts rest post' := by
  intro s hs hfaults
  obtain ⟨a, s', hp, hrest, hfaults', ha⟩ := h s hs hfaults
  exact ⟨a, s', hp, hrest, hfaults', hpost a ha⟩

/-- A reading takes only one list of tokens. -/
theorem unique {ts' rest' : List Token} (h : Takes p ts rest post) (h' : Takes p ts' rest' post')
    (hts : ts ++ rest = ts' ++ rest') : ts = ts' ∧ rest = rest' := by
  let s : Cursor := ⟨ts ++ rest, ⟨.eof, "", 1⟩, 0, []⟩
  obtain ⟨a, s₁, hp, hs₁, -⟩ := h s rfl rfl
  obtain ⟨a', s₂, hp', hs₂, -⟩ := h' s hts rfl
  obtain ⟨-, rfl⟩ := EStateM.Result.ok.inj (hp.symm.trans hp')
  obtain rfl : rest = rest' := hs₁.symm.trans hs₂
  exact ⟨List.append_cancel_right hts, rfl⟩

protected theorem pure {a : α} (h : post a) : Takes (pure a) [] rest post :=
  fun s hs hfaults => ⟨a, s, rfl, hs, hfaults, h⟩

protected theorem bind (h : Takes p ts (us ++ rest) post)
    (hnext : ∀ a, post a → Takes (next a) us rest last) : Takes (p >>= next) (ts ++ us) rest last := by
  intro s hs hfaults
  obtain ⟨a, s₁, hp, hs₁, hfaults₁, ha⟩ := h s (by rw [hs, List.append_assoc]) hfaults
  obtain ⟨b, s₂, hb, hs₂⟩ := hnext a ha s₁ hs₁ hfaults₁
  exact ⟨b, s₂, by rw [reading_bind_ok hp, hb], hs₂⟩

/-- What is made of what a reading gives. -/
protected theorem bind_pure {f : α → β} (h : Takes p ts rest post)
    (hf : ∀ a, post a → last (f a)) : Takes (p >>= fun a => pure (f a)) ts rest last := by
  rw [← List.append_nil ts]
  exact Takes.bind h fun a ha => .pure (hf a ha)

protected theorem map {f : α → β} (h : Takes p ts rest post) (hf : ∀ a, post a → last (f a)) :
    Takes (f <$> p) ts rest last := by
  rw [map_eq_pure_bind]
  exact h.bind_pure hf

/-! ### Elementary steps -/

/-- The next token decides what is read. -/
theorem peek_bind {next : Option Token → Reading β}
    (h : Takes (next (ts ++ rest).head?) ts rest last) : Takes (peek? >>= next) ts rest last := by
  intro s hs hfaults
  have hpeek : (peek? >>= next) s = next s.rest.head? s := rfl
  rw [hpeek, hs]
  exact h s hs hfaults

theorem advance_bind {next : Token → Reading β} (h : Takes (next t) us rest last) :
    Takes (advance >>= next) (t :: us) rest last := by
  intro s hs hfaults
  have hadvance : advance s = .ok t { s with rest := us ++ rest } := by
    simp [advance, Cursor.next, hs]
  rw [reading_bind_ok hadvance]
  exact h _ rfl hfaults

theorem takeIf_bind_some {accepts : Kind → Bool} {next : Option Token → Reading β}
    (ht : accepts t.kind = true) (h : Takes (next (some t)) us rest last) :
    Takes (takeIf accepts >>= next) (t :: us) rest last := by
  intro s hs hfaults
  have htake : takeIf accepts s = .ok (some t) { s with rest := us ++ rest } := by
    simp [takeIf, hs, ht]
  rw [reading_bind_ok htake]
  exact h _ rfl hfaults

theorem takeIf_bind_none {accepts : Kind → Bool} {next : Option Token → Reading β}
    (hhead : ∀ t ∈ (us ++ rest).head?, accepts t.kind = false)
    (h : Takes (next none) us rest last) : Takes (takeIf accepts >>= next) us rest last := by
  intro s hs hfaults
  have htake : takeIf accepts s = .ok none s := by
    unfold takeIf
    cases hr : s.rest with
    | nil => rfl
    | cons t rest' =>
      have ht : accepts t.kind = false := hhead t (by rw [← hs, hr, List.head?_cons]; rfl)
      simp [ht]
  rw [reading_bind_ok htake]
  exact h s hs hfaults

theorem accept_bind_some {k : Kind} {next : Option Token → Reading β} (ht : t.kind = k)
    (h : Takes (next (some t)) us rest last) : Takes (accept k >>= next) (t :: us) rest last :=
  takeIf_bind_some (decide_eq_true ht) h

theorem accept_bind_none {k : Kind} {next : Option Token → Reading β}
    (hhead : ∀ t ∈ (us ++ rest).head?, t.kind ≠ k) (h : Takes (next none) us rest last) :
    Takes (accept k >>= next) us rest last :=
  takeIf_bind_none (fun t ht => decide_eq_false (hhead t ht)) h

theorem accept_ite_some {k : Kind} {p q : Reading β} (ht : t.kind = k)
    (h : Takes p us rest last) :
    Takes (accept k >>= fun t? => if t?.isSome = true then p else q) (t :: us) rest last :=
  accept_bind_some ht h

theorem accept_ite_none {k : Kind} {p q : Reading β}
    (hhead : ∀ t ∈ (us ++ rest).head?, t.kind ≠ k) (h : Takes q us rest last) :
    Takes (accept k >>= fun t? => if t?.isSome = true then p else q) us rest last :=
  accept_bind_none hhead h

protected theorem expect {k : Kind} {what : Expectation} (ht : t.kind = k) :
    Takes (expect k what) [t] rest (· = t) :=
  accept_bind_some ht (.pure rfl)

theorem expect_bind {k : Kind} {what : Expectation} {next : Token → Reading β} (ht : t.kind = k)
    (h : Takes (next t) us rest last) : Takes (expect k what >>= next) (t :: us) rest last :=
  Takes.bind (Takes.expect ht) fun _ ht' => ht' ▸ h

theorem node_bind {make : Nat → Expr} {next : Expr → Reading β}
    (h : ∀ id, Takes (next (make id)) ts rest last) : Takes (node make >>= next) ts rest last :=
  fun s hs hfaults => h s.nextId { s with nextId := s.nextId + 1 } hs hfaults

protected theorem node {make : Nat → Expr} {post : Expr → Prop} (h : ∀ id, post (make id)) :
    Takes (node make) [] rest post :=
  fun s hs hfaults => ⟨make s.nextId, _, rfl, hs, hfaults, h s.nextId⟩

/-- An expression that is made of what a reading gives. -/
theorem bind_node {make : α → Nat → Expr} {last : Expr → Prop} (h : Takes p ts rest post)
    (hmake : ∀ a id, post a → last (make a id)) :
    Takes (p >>= fun a => node (make a)) ts rest last := by
  rw [← List.append_nil ts]
  exact Takes.bind h fun a ha => .node fun id => hmake a id ha

/-- A list that is not too long is none that has to be recorded. -/
theorem checkLimit_bind {limit : Limit} {what : Listing} {count : Nat} {next : Unit → Reading β}
    (hcount : limit.Allows (count + 1)) (h : Takes (next ()) ts rest last) :
    Takes (checkLimit limit what count >>= next) ts rest last := by
  intro s hs hfaults
  have hcheck : checkLimit limit what count s = .ok () s :=
    if_neg fun hlimit => Nat.not_lt.2 hlimit.1 (hcount hlimit.2)
  rw [reading_bind_ok hcheck]
  exact h s hs hfaults

protected theorem recovering (h : Takes p ts rest post) :
    Takes (recovering p) ts rest fun a? => ∃ a, a? = some a ∧ post a := by
  intro s hs hfaults
  obtain ⟨a, s', hp, hrest, hfaults', ha⟩ := h s hs hfaults
  exact ⟨some a, s', by simp only [Parser.recovering, hp], hrest, hfaults', a, rfl, ha⟩

/-! ### Repetition -/

theorem unlessNext_none {k : Kind} (hrest : Next k rest) :
    Takes (unlessNext k p) [] rest (· = none) := by
  refine peek_bind ?_
  obtain ⟨t, ht, hk⟩ := Option.map_eq_some_iff.1 hrest
  have hany : (rest.head?.any fun t : Token => t.kind = k) = true := by
    simp [ht, hk]
  rw [List.nil_append, if_pos hany]
  exact .pure rfl

theorem unlessNext_some {k : Kind} (hhead : ∀ t ∈ (ts ++ rest).head?, t.kind ≠ k)
    (h : Takes p ts rest post) :
    Takes (unlessNext k p) ts rest fun a? => ∃ a, a? = some a ∧ post a := by
  refine peek_bind ?_
  have hany : ¬ ((ts ++ rest).head?.any fun t : Token => t.kind = k) = true := by
    cases hr : (ts ++ rest).head? with
    | none => simp
    | some t => simpa using hhead t hr
  rw [if_neg hany]
  exact h.map fun a ha => ⟨a, rfl, ha⟩

section

variable {closes : Kind → Bool} {rounds : Nat} {posts : List α → Prop}

theorem upTo_nil (hrest : ∀ t ∈ rest.head?, closes t.kind = true) :
    Takes (upTo closes p (rounds + 1)) [] rest (· = []) := by
  refine peek_bind ?_
  have hall : (rest.head?.all fun t : Token => closes t.kind) = true := by
    cases hr : rest.head? with
    | none => rfl
    | some t => exact hrest t hr
  rw [List.nil_append, if_pos hall]
  exact .pure rfl

theorem upTo_cons (hts : ∃ t ∈ ts.head?, closes t.kind = false)
    (h : Takes p ts (us ++ rest) post) (hmore : Takes (upTo closes p rounds) us rest posts) :
    Takes (upTo closes p (rounds + 1)) (ts ++ us) rest
      fun as => ∃ a as', as = a :: as' ∧ post a ∧ posts as' := by
  refine peek_bind ?_
  have hall : ¬ ((ts ++ us ++ rest).head?.all fun t : Token => closes t.kind) = true := by
    obtain ⟨t, ht, hcloses⟩ := hts
    cases ts with
    | nil => cases ht
    | cons t' ts =>
      cases ht
      simpa using hcloses
  rw [if_neg hall]
  exact h.bind fun a ha => hmore.bind_pure fun as has => ⟨a, as, rfl, ha, has⟩

variable {limit : Limit} {what : Listing} {count : Nat}

theorem listed_one (hcount : limit.Allows (count + 1)) (hrest : Next .rightParen rest)
    (h : Takes p ts rest post) :
    Takes (listed limit what p count (rounds + 1)) ts rest fun as => ∃ a, as = [a] ∧ post a := by
  refine checkLimit_bind hcount ?_
  rw [← List.append_nil ts]
  refine Takes.bind h fun a ha => accept_ite_none (fun t ht hcomma => ?_) (.pure ⟨a, rfl, ha⟩)
  rw [hrest.kind_eq ht] at hcomma
  cases hcomma

theorem listed_more {comma : Token} (hcount : limit.Allows (count + 1)) (hcomma : comma.kind = .comma)
    (h : Takes p ts (comma :: (us ++ rest)) post)
    (hmore : Takes (listed limit what p (count + 1) rounds) us rest posts) :
    Takes (listed limit what p count (rounds + 1)) (ts ++ comma :: us) rest
      fun as => ∃ a as', as = a :: as' ∧ post a ∧ posts as' := by
  refine checkLimit_bind hcount ?_
  refine Takes.bind h fun a ha => accept_ite_some hcomma ?_
  exact hmore.bind_pure fun as has => ⟨a, as, rfl, ha, has⟩

theorem listedOrNone_none (hrest : Next .rightParen rest) :
    Takes (listedOrNone limit what p rounds) [] rest (· = []) :=
  (unlessNext_none hrest).bind_pure fun _ h => h ▸ rfl

theorem listedOrNone_some (hhead : ∀ t ∈ (ts ++ rest).head?, t.kind ≠ .rightParen)
    (h : Takes (listed limit what p 0 rounds) ts rest posts) :
    Takes (listedOrNone limit what p rounds) ts rest posts :=
  (unlessNext_some hhead h).bind_pure fun _ ⟨_, h, has⟩ => h ▸ has

end

end Takes

end Parser

end Lox
