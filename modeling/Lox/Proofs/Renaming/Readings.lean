import Lox.Program.Cursor
import Lox.Proofs.Parsing.Parallel
import Lox.Proofs.Renaming.Names

/-!
Readings of tokens of which some identifiers have the new name. `Rereads` says of two readings that
whenever the first one succeeds and nothing is wrong, there are tokens with the new name in some places
from which the second one makes what it should. Which places these are depends on what is made of the
tokens: an occurrence is renamed because of a number that it is given later, so that the rule
`bind_late` leaves a choice open until all has been read.
-/

namespace Lox

namespace Renaming

open Lox.Parser

section

variable (R : Renaming)

/-- The second token is the first one, unless that is the old name and the second one the new name. -/
def Respelled (t t' : Token) : Prop :=
  t' = t ∨ t.kind = .identifier ∧ t.lexeme = R.old ∧ t' = { t with lexeme := R.new }

variable {α β : Type}

/-- From tokens that may have the new name the second reading makes something that is related to what
the first one has made, and stops where the first one stops, whatever follows. -/
def Reread (r : α → β → Prop) (p' : Reading β) (s : Cursor) (a : α) (s₁ : Cursor) : Prop :=
  ∃ ts us b, s.rest = ts ++ s₁.rest ∧ List.Forall₂ R.Respelled ts us ∧ r a b
    ∧ ∀ rest, rest.map Token.kind = s₁.rest.map Token.kind →
      p' { s with rest := us ++ rest } = .ok b { s₁ with rest }

/-- Where the first reading succeeds and nothing is wrong, the second one does with other tokens. -/
def Rereads (r : α → β → Prop) (p : Reading α) (p' : Reading β) : Prop :=
  ∀ s a s₁, p s = .ok a s₁ → s₁.faults = [] → s.faults = [] ∧ R.Reread r p' s a s₁

end

section

variable {R : Renaming} {t : Token}

theorem Respelled.refl (t : Token) : R.Respelled t t := .inl rfl

theorem respelled_token (h : t.kind = .identifier) (marked : Bool) :
    R.Respelled t (R.token marked t) := by
  unfold token name
  split
  · rename_i hm
    exact .inr ⟨h, hm.2, rfl⟩
  · exact .refl t

theorem Respelled.kind {t' : Token} (h : R.Respelled t t') : t'.kind = t.kind := by
  rcases h with rfl | ⟨-, -, rfl⟩ <;> rfl

theorem map_kind_of_respelled {ts us : List Token} (h : List.Forall₂ R.Respelled ts us) :
    us.map Token.kind = ts.map Token.kind := by
  induction h with
  | nil => rfl
  | cons ht _ ih => rw [List.map_cons, List.map_cons, ht.kind, ih]

end

namespace Rereads

variable {R : Renaming} {α β γ δ : Type} {r : α → β → Prop} {r' : γ → δ → Prop} {p : Reading α}
  {p' : Reading β} {next : α → Reading γ} {next' : β → Reading δ}

theorem imp {q : α → β → Prop} (h : R.Rereads r p p') (hq : ∀ a b, r a b → q a b) :
    R.Rereads q p p' := by
  intro s a s₁ hp hf
  obtain ⟨hs, ts, us, b, hrest, hts, hr, hp'⟩ := h s a s₁ hp hf
  exact ⟨hs, ts, us, b, hrest, hts, hq a b hr, hp'⟩

/-! ### Rules for all readings -/

/-- A step that takes no token, and does the same whatever the tokens are. -/
theorem of_still (h : ∀ s a s₁, p s = .ok a s₁ → s₁.faults = [] →
    s.faults = [] ∧ s₁.rest = s.rest ∧ ∃ b, r a b
      ∧ ∀ rest, rest.map Token.kind = s.rest.map Token.kind →
        p' { s with rest } = .ok b { s₁ with rest }) : R.Rereads r p p' := by
  intro s a s₁ hp hf
  obtain ⟨hs, hrest, b, hr, hp'⟩ := h s a s₁ hp hf
  refine ⟨hs, [], [], b, hrest.symm, .nil, hr, fun rest hkinds => ?_⟩
  exact hp' rest (hrest ▸ hkinds)

protected theorem pure {a : α} {b : β} (h : r a b) : R.Rereads r (pure a) (pure b) :=
  of_still fun s a' s₁ hp hf => by
    cases hp
    exact ⟨hf, rfl, b, h, fun rest _ => rfl⟩

protected theorem fail (what : Expectation) : R.Rereads r (Parser.fail what) p' :=
  fun _ _ _ hp => by cases hp

theorem outOfRounds : R.Rereads r (throw .outOfRounds) p' :=
  fun _ _ _ hp => by cases hp

section

variable {P : α → Prop} {f : α → β}

/-- One reading after another. What the first one makes of the tokens with the new name may depend on a
choice that is only made when the second one has come to its end. -/
theorem bind_choice {ξ : Type} {f : ξ → α → β} (choose : α → γ → ξ)
    (h : ∀ x, R.Rereads (fun a b => P a ∧ b = f x a) p p')
    (hnext : ∀ x a,
      R.Rereads (fun c d => x = choose a c → P a → r' c d) (next a) (next' (f x a))) :
    R.Rereads r' (p >>= next) (p' >>= next') := by
  intro s c s₂ hp hf
  cases hs : p s with
  | error e s₁ =>
    rw [reading_bind_error hs] at hp
    cases hp
  | ok a s₁ =>
    rw [reading_bind_ok hs] at hp
    obtain ⟨hf₁, ts₂, us₂, d, hrest₂, hts₂, hr, hnext'⟩ := hnext (choose a c) a s₁ c s₂ hp hf
    obtain ⟨hf₀, ts₁, us₁, b, hrest₁, hts₁, ⟨hP, rfl⟩, hp'⟩ := h (choose a c) s a s₁ hs hf₁
    refine ⟨hf₀, ts₁ ++ ts₂, us₁ ++ us₂, d, ?_, List.rel_append hts₁ hts₂, hr rfl hP,
      fun rest hk => ?_⟩
    · rw [hrest₁, hrest₂, List.append_assoc]
    · have hkinds : (us₂ ++ rest).map Token.kind = s₁.rest.map Token.kind := by
        rw [hrest₂, List.map_append, List.map_append, map_kind_of_respelled hts₂, hk]
      rw [List.append_assoc, reading_bind_ok (hp' (us₂ ++ rest) hkinds)]
      exact hnext' rest hk

theorem bind_late {ξ : Type} {f : ξ → α → β} (choose : α → γ → ξ)
    (h : ∀ x, R.Rereads (fun a b => b = f x a) p p')
    (hnext : ∀ x a, R.Rereads (fun c d => x = choose a c → r' c d) (next a) (next' (f x a))) :
    R.Rereads r' (p >>= next) (p' >>= next') :=
  bind_choice (P := fun _ => True) choose (fun x => (h x).imp fun _ _ hb => ⟨trivial, hb⟩)
    fun x a => (hnext x a).imp fun _ _ hr hx _ => hr hx

/-- One reading after another, where the first one makes something with a property. -/
theorem bind_of (h : R.Rereads (fun a b => P a ∧ b = f a) p p')
    (hnext : ∀ a, R.Rereads (fun c d => P a → r' c d) (next a) (next' (f a))) :
    R.Rereads r' (p >>= next) (p' >>= next') :=
  bind_choice (f := fun _ => f) (fun _ _ => ()) (fun _ => h)
    fun _ a => (hnext a).imp fun _ _ hr _ => hr

protected theorem bind (h : R.Rereads (fun a b => b = f a) p p')
    (hnext : ∀ a, R.Rereads r' (next a) (next' (f a))) :
    R.Rereads r' (p >>= next) (p' >>= next') :=
  bind_late (f := fun _ => f) (fun _ _ => ()) (fun _ => h)
    fun _ a => (hnext a).imp fun _ _ hr _ => hr

theorem map {k : α → γ} {k' : β → δ} (h : R.Rereads (fun a b => b = f a) p p')
    (hk : ∀ a, r' (k a) (k' (f a))) : R.Rereads r' (k <$> p) (k' <$> p') := by
  rw [map_eq_pure_bind, map_eq_pure_bind]
  exact h.bind fun a => .pure (hk a)

theorem some_map (h : R.Rereads (fun a b => b = f a) p p') :
    R.Rereads (fun a b => b = a.map f) (some <$> p) (some <$> p') :=
  h.map fun _ => rfl

end

/-! ### Elementary steps -/

/-- A choice by the kind of the token that stands here. -/
theorem peek_ite {g : Option Token → Bool} {q : Reading α} {q' : Reading β}
    (hg : ∀ t? t?', t?'.map Token.kind = t?.map Token.kind → g t?' = g t?)
    (hp : R.Rereads r p p') (hq : R.Rereads r q q') :
    R.Rereads r (peek? >>= fun t? => if g t? = true then p else q)
      (peek? >>= fun t? => if g t? = true then p' else q') := by
  intro s a s₁ h hf
  have hhead {ts us rest : List Token} (hrest : s.rest = ts ++ s₁.rest)
      (hts : List.Forall₂ R.Respelled ts us) (hk : rest.map Token.kind = s₁.rest.map Token.kind) :
      g (us ++ rest).head? = g s.rest.head? := by
    refine hg _ _ ?_
    rw [← List.head?_map, ← List.head?_map, hrest, List.map_append, List.map_append,
      map_kind_of_respelled hts, hk]
  rw [reading_bind_ok (show peek? s = .ok s.rest.head? s from rfl)] at h
  by_cases ht : g s.rest.head? = true
  · rw [if_pos ht] at h
    obtain ⟨hs, ts, us, b, hrest, hts, hr, hp'⟩ := hp s a s₁ h hf
    refine ⟨hs, ts, us, b, hrest, hts, hr, fun rest hk => ?_⟩
    rw [reading_bind_ok (show peek? _ = .ok (us ++ rest).head? _ from rfl),
      if_pos ((hhead hrest hts hk).trans ht)]
    exact hp' rest hk
  · rw [if_neg ht] at h
    obtain ⟨hs, ts, us, b, hrest, hts, hr, hq'⟩ := hq s a s₁ h hf
    refine ⟨hs, ts, us, b, hrest, hts, hr, fun rest hk => ?_⟩
    rw [reading_bind_ok (show peek? _ = .ok (us ++ rest).head? _ from rfl),
      if_neg fun h => ht ((hhead hrest hts hk).symm.trans h)]
    exact hq' rest hk

/-- A token is taken, which may have the new name afterwards. -/
protected theorem takeIf {accepts : Kind → Bool} {f : Token → Token}
    (hf : ∀ t, accepts t.kind = true → R.Respelled t (f t)) :
    R.Rereads (fun a b => b = a.map f) (takeIf accepts) (takeIf accepts) := by
  rintro ⟨rest, stop, nextId, faults⟩ t? s₁ hp hfaults
  have hnone (hr : ∀ t ∈ rest.head?, ¬ accepts t.kind = true) (rest' : List Token)
      (hk : rest'.map Token.kind = rest.map Token.kind) :
      takeIf accepts ⟨rest', stop, nextId, faults⟩ = .ok none ⟨rest', stop, nextId, faults⟩ := by
    cases rest' with
    | nil => rfl
    | cons t' rest' =>
      cases rest with
      | nil => cases hk
      | cons t rest =>
        have hkind : t'.kind = t.kind := (List.cons.inj hk).1
        exact if_neg (hkind ▸ hr t rfl)
  by_cases ht : ∃ t ∈ rest.head?, accepts t.kind = true
  · obtain ⟨t, ht, hkind⟩ := ht
    cases rest with
    | nil => cases ht
    | cons t rest =>
      cases ht
      have htake (t' : Token) (rest' : List Token) (hk : accepts t'.kind = true) :
          takeIf accepts ⟨t' :: rest', stop, nextId, faults⟩
            = .ok (some t') ⟨rest', stop, nextId, faults⟩ := if_pos hk
      cases hp.symm.trans (htake t rest hkind)
      have hsame := hf t hkind
      refine ⟨hfaults, [t], [f t], some (f t), rfl, .cons hsame .nil, rfl, fun rest' _ => ?_⟩
      exact htake (f t) rest' (hsame.kind ▸ hkind)
  · have hr : ∀ t ∈ rest.head?, ¬ accepts t.kind = true := fun t hm hk => ht ⟨t, hm, hk⟩
    cases hp.symm.trans (hnone hr rest rfl)
    exact ⟨hfaults, [], [], none, rfl, .nil, rfl, hnone hr⟩

protected theorem accept (k : Kind) : R.Rereads (fun a b => b = a) (accept k) (accept k) :=
  (Rereads.takeIf (f := id) fun t _ => .refl t).imp fun a _ h => by rw [h, Option.map_id_apply]

/-- A choice by a token. -/
theorem accept_ite {k : Kind} {q : Reading α} {q' : Reading β} (hp : R.Rereads r p p')
    (hq : R.Rereads r q q') :
    R.Rereads r (accept k >>= fun t? => if t?.isSome = true then p else q)
      (accept k >>= fun t? => if t?.isSome = true then p' else q') := by
  refine (Rereads.accept k).bind (f := id) fun t? => ?_
  dsimp only [id]
  split
  · exact hp
  · exact hq

/-- A token must be there, which may have the new name afterwards. -/
theorem expect_map {k : Kind} {what : Expectation} {f : Token → Token}
    (hf : ∀ t, t.kind = k → R.Respelled t (f t)) :
    R.Rereads (fun a b => b = f a) (expect k what) (expect k what) := by
  have htake : R.Rereads (fun a b => b = a.map f) (accept k) (accept k) :=
    .takeIf fun t ht => hf t (of_decide_eq_true ht)
  refine htake.bind fun t? => ?_
  cases t? with
  | none => exact .fail what
  | some t => exact .pure rfl

protected theorem expect (k : Kind) (what : Expectation) :
    R.Rereads (fun a b => b = a) (expect k what) (expect k what) :=
  expect_map (f := id) fun t _ => .refl t

/-- A name must be there, which has the new name afterwards if it is marked. -/
theorem expect_name (marked : Bool) (what : Expectation) :
    R.Rereads (fun a b => b = R.token marked a) (expect .identifier what)
      (expect .identifier what) :=
  expect_map fun _ ht => respelled_token ht marked

/-- What is reported is a fault. -/
theorem report_pure {token : Token} {fault : GrammarFault} {a : α} :
    R.Rereads r (report token fault >>= fun _ => pure a) p' := by
  intro s a' s₁ hp hf
  cases hp
  simp [Cursor.record] at hf

/-- An expression gets the same number. -/
protected theorem node {make make' : Nat → Expr} {r : Expr → Expr → Prop}
    (h : ∀ n, r (make n) (make' n)) : R.Rereads r (node make) (node make') :=
  of_still fun s a s₁ hp hf => by
    cases hp
    exact ⟨hf, rfl, make' s.nextId, h _, fun rest _ => rfl⟩

protected theorem checkLimit (limit : Limit) (what : Listing) (count : Nat) :
    R.Rereads (fun _ _ => True) (checkLimit limit what count) (checkLimit limit what count) := by
  refine of_still fun s a s₁ hp hf => ?_
  unfold Parser.checkLimit at hp ⊢
  by_cases hl : limit.maxArguments ≤ count ∧ limit.strict
  · rw [if_pos hl] at hp
    cases hp
    simp [Cursor.record] at hf
  · rw [if_neg hl] at hp
    cases hp
    exact ⟨hf, rfl, (), trivial, fun rest _ => if_neg hl⟩

/-- What halts at a fault is not read without one. -/
protected theorem recovering {f : α → β} (h : R.Rereads (fun a b => b = f a) p p') :
    R.Rereads (fun a b => a.isSome = true ∧ b = a.map f) (recovering p) (recovering p') := by
  intro s a? s₁ hp hf
  unfold Parser.recovering at hp ⊢
  cases hs : p s with
  | ok a s' =>
    rw [hs] at hp
    cases hp
    obtain ⟨hs₀, ts, us, b, hrest, hts, rfl, hp'⟩ := h s a s₁ hs hf
    refine ⟨hs₀, ts, us, some (f a), hrest, hts, ⟨rfl, rfl⟩, fun rest hk => ?_⟩
    dsimp only
    rw [hp' rest hk]
  | error e s' =>
    rw [hs] at hp
    cases e with
    | outOfRounds => cases hp
    | fault d =>
      cases hp
      simp [Cursor.record, Cursor.toBoundary] at hf

/-! ### Repetition -/

section

variable {f : α → β}

protected theorem unlessNext (k : Kind) (h : R.Rereads (fun a b => b = f a) p p') :
    R.Rereads (fun a b => b = a.map f) (unlessNext k p) (unlessNext k p') := by
  refine peek_ite (g := fun t? => t?.any (·.kind = k)) (fun t? t?' ht => ?_) (.pure ?_) h.some_map
  · cases t? <;> cases t?' <;> simp_all
  · rfl

/-- One thing after another, where the new names in each may depend on how many there are before
it. -/
protected theorem upTo {P : α → Prop} {f : Nat → α → β} (closes : Kind → Bool)
    (h : ∀ i, R.Rereads (fun a b => P a ∧ b = f i a) p p') (rounds i : Nat) :
    R.Rereads (fun as bs => (∀ a ∈ as, P a) ∧ bs = as.mapIdx fun j => f (i + j))
      (upTo closes p rounds) (upTo closes p' rounds) := by
  induction rounds generalizing i with
  | zero => exact .outOfRounds
  | succ rounds ih =>
    refine peek_ite (g := fun t? => t?.all (closes ·.kind)) (fun t? t?' ht => ?_) ?_ ?_
    · cases t? <;> cases t?' <;> simp_all
    · exact .pure ⟨List.forall_mem_nil _, rfl⟩
    · refine (h i).bind_of fun a => (ih (i + 1)).bind_of fun as => .pure fun has ha => ?_
      refine ⟨List.forall_mem_cons.2 ⟨ha, has⟩, ?_⟩
      simp only [List.mapIdx_cons, Nat.add_zero, Nat.add_assoc, Nat.add_comm 1]

protected theorem listed (limit : Limit) (what : Listing)
    (h : R.Rereads (fun a b => b = f a) p p') (count rounds : Nat) :
    R.Rereads (fun as bs => bs = as.map f) (listed limit what p count rounds)
      (listed limit what p' count rounds) := by
  induction rounds generalizing count with
  | zero => exact .outOfRounds
  | succ rounds ih =>
    refine ((Rereads.checkLimit limit what count).imp fun _ _ _ => rfl).bind (f := id) fun _ => ?_
    refine h.bind fun a => accept_ite ?_ (.pure rfl)
    exact (ih (count + 1)).bind fun as => .pure rfl

protected theorem listedOrNone (limit : Limit) (what : Listing)
    (h : R.Rereads (fun a b => b = f a) p p') (rounds : Nat) :
    R.Rereads (fun as bs => bs = as.map f) (listedOrNone limit what p rounds)
      (listedOrNone limit what p' rounds) := by
  refine (Rereads.unlessNext .rightParen (Rereads.listed limit what h 0 rounds)).bind
    fun as? => .pure ?_
  cases as? <;> rfl

end

end Rereads

end Renaming

end Lox
