import Lox.Program.Parser
import Lox.Proofs.Parsing.Parallel
import Lox.Proofs.Tree.Listings

/-!
Reading with a strict and with a lenient limit. `Tolerates` says of two readings that the second one
does what the first one does, but for the faults that say that a list has more than `max` entries: it
records none of them. How many of these the first one records is told by a weight of what has been
read so far, provided that it records no other faults.
-/

namespace Lox

/-- The lists of which this diagnostic says that one has more than `max` entries. -/
def Diagnostic.listing? (max : Nat) : Diagnostic → Option Listing
  | .grammar _ (.overLimit limit what) => if limit = max then some what else none
  | _ => none

theorem Diagnostic.listing?_eq_some_iff {max : Nat} {what : Listing} {d : Diagnostic} :
    d.listing? max = some what ↔ ∃ t, d = .grammar t (.overLimit max what) := by
  constructor
  · intro h
    unfold Diagnostic.listing? at h
    split at h
    · rename_i t limit what'
      split at h
      · rename_i hlimit
        cases h
        exact ⟨t, by rw [hlimit]⟩
      · cases h
    · cases h
  · rintro ⟨t, rfl⟩
    exact if_pos rfl

namespace Parser

variable {α β : Type}

/-- The diagnostic does not say that a list has more than `max` entries. -/
abbrev IsOther (max : Nat) (d : Diagnostic) : Prop :=
  d.listing? max = none

/-- The place without the faults of lists that are too long. -/
def Cursor.lenient (max : Nat) (s : Cursor) : Cursor :=
  { s with faults := s.faults.filter (IsOther max ·) }

theorem lenient_record {max : Nat} {d : Diagnostic} (h : IsOther max d) (s : Cursor) :
    (s.record d).lenient max = (s.lenient max).record d := by
  rw [Cursor.lenient, Cursor.record, List.filter_append, List.filter_cons_of_pos (by simpa using h)]
  rfl

theorem lenient_record_limit {max : Nat} {d : Diagnostic} (h : ¬ IsOther max d) (s : Cursor) :
    (s.record d).lenient max = s.lenient max := by
  rw [Cursor.lenient, Cursor.record, List.filter_append, List.filter_cons_of_neg (by simpa using h),
    List.filter_nil, List.append_nil]
  rfl

/-- The end of a reading without the faults of lists that are too long. -/
def lenientEnd (max : Nat) : EStateM.Result Halt Cursor α → EStateM.Result Halt Cursor α
  | .ok a s => .ok a (s.lenient max)
  | .error e s => .error e (s.lenient max)

variable (max : Nat) (what : Listing)

/-- The second reading leaves out the faults of lists that are too long. If the first one records no
others, then those about `what` make up the difference between the weights. -/
structure Tolerates (before : Nat) (after : α → Nat) (p p' : Reading α) : Prop where
  lenient : ∀ s : Cursor, p' (s.lenient max) = lenientEnd max (p s)
  thrown : ∀ {s d s'}, p s = .error (.fault d) s' → IsOther max d
  halted : ∀ {s e s'}, p s = .error e s' → s.faults <+: s'.faults
  weight : ∀ {s a s'}, p s = .ok a s' → ∃ new, s'.faults = s.faults ++ new
    ∧ ((∀ d ∈ new, ¬ IsOther max d) →
      before + new.countP (·.listing? max = some what) = after a)

/-- What the first reading adds to the weight is what is too long in the lists of what it reads. -/
abbrev Adds (lists : α → List (Listing × Nat)) (p p' : Reading α) : Prop :=
  ∀ before, Tolerates max what before (fun a => before + excess max what (lists a)) p p'

namespace Tolerates

variable {max : Nat} {what : Listing} {before : Nat} {after mid : α → Nat} {after' : β → Nat}
  {p p' : Reading α} {next next' : α → Reading β}

/-- A step that always succeeds. -/
theorem of_ok (hstep : ∀ s, ∃ a s' new, p s = .ok a s' ∧ s'.faults = s.faults ++ new
    ∧ ((∀ d ∈ new, ¬ IsOther max d) → before + new.countP (·.listing? max = some what) = after a)
    ∧ p' (s.lenient max) = .ok a (s'.lenient max)) :
    Tolerates max what before after p p' where
  lenient s := by
    obtain ⟨a, s', new, hp, -, -, hp'⟩ := hstep s
    rw [hp, hp']
    rfl
  thrown {s d s'} hs := by
    obtain ⟨a, s₁, new, hp, -⟩ := hstep s
    cases hp.symm.trans hs
  halted {s e s'} hs := by
    obtain ⟨a, s₁, new, hp, -⟩ := hstep s
    cases hp.symm.trans hs
  weight {s a s'} hs := by
    obtain ⟨a₁, s₁, new, hp, hnew, hweight, -⟩ := hstep s
    cases hp.symm.trans hs
    exact ⟨new, hnew, hweight⟩

protected theorem pure {a : α} (h : before = after a) :
    Tolerates max what before after (pure a) (pure a) :=
  of_ok fun s => ⟨a, s, [], rfl, by simp, fun _ => by simpa using h, rfl⟩

protected theorem outOfRounds :
    Tolerates max what before after (throw .outOfRounds) (throw .outOfRounds) where
  lenient _ := rfl
  thrown hs := by cases hs
  halted hs := by
    cases hs
    exact List.prefix_refl _
  weight hs := by cases hs

protected theorem fail (expectation : Expectation) :
    Tolerates max what before after (fail expectation) (fail expectation) where
  lenient _ := rfl
  thrown hs := by
    cases hs
    rfl
  halted hs := by
    cases hs
    exact List.prefix_refl _
  weight hs := by cases hs

protected theorem bind (hp : Tolerates max what before mid p p')
    (hnext : ∀ a, Tolerates max what (mid a) after' (next a) (next' a)) :
    Tolerates max what before after' (p >>= next) (p' >>= next') where
  lenient s := by
    have hstep := hp.lenient s
    cases hr : p s with
    | ok a s₁ =>
      rw [hr] at hstep
      rw [reading_bind_ok hr, reading_bind_ok hstep]
      exact (hnext a).lenient s₁
    | error e s₁ =>
      rw [hr] at hstep
      rw [reading_bind_error hr, reading_bind_error hstep]
      rfl
  thrown {s d s'} hs := by
    cases hr : p s with
    | ok a s₁ =>
      rw [reading_bind_ok hr] at hs
      exact (hnext a).thrown hs
    | error e s₁ =>
      rw [reading_bind_error hr] at hs
      cases hs
      exact hp.thrown hr
  halted {s e s'} hs := by
    cases hr : p s with
    | ok a s₁ =>
      rw [reading_bind_ok hr] at hs
      obtain ⟨new, hnew, -⟩ := hp.weight hr
      exact (hnew ▸ List.prefix_append _ _ : s.faults <+: s₁.faults).trans ((hnext a).halted hs)
    | error e s₁ =>
      rw [reading_bind_error hr] at hs
      cases hs
      exact hp.halted hr
  weight {s b s'} hs := by
    cases hr : p s with
    | ok a s₁ =>
      rw [reading_bind_ok hr] at hs
      obtain ⟨new, hnew, hweight⟩ := hp.weight hr
      obtain ⟨new', hnew', hweight'⟩ := (hnext a).weight hs
      refine ⟨new ++ new', by rw [hnew', hnew, List.append_assoc], fun hall => ?_⟩
      rw [List.forall_mem_append] at hall
      rw [List.countP_append, ← Nat.add_assoc, hweight hall.1, hweight' hall.2]
    | error e s₁ =>
      rw [reading_bind_error hr] at hs
      cases hs

theorem map {f : α → β} (hp : Tolerates max what before after p p')
    (hf : ∀ a, after a = after' (f a)) :
    Tolerates max what before after' (f <$> p) (f <$> p') := by
  rw [map_eq_pure_bind, map_eq_pure_bind]
  exact hp.bind fun a => .pure (hf a)

/-! ### Elementary steps -/

protected theorem peek? : Tolerates max what before (fun _ => before) peek? peek? :=
  of_ok fun s => ⟨_, s, [], rfl, by simp, fun _ => by simp, rfl⟩

protected theorem takeIf (accepts : Kind → Bool) :
    Tolerates max what before (fun _ => before) (takeIf accepts) (takeIf accepts) := by
  refine of_ok fun ⟨rest, stop, nextId, faults⟩ => ?_
  cases rest with
  | nil => exact ⟨_, _, [], rfl, by simp, fun _ => by simp, rfl⟩
  | cons t rest =>
    by_cases ht : accepts t.kind = true
    · exact ⟨_, _, [], if_pos ht, by simp, fun _ => by simp, if_pos ht⟩
    · exact ⟨_, _, [], if_neg ht, by simp, fun _ => by simp, if_neg ht⟩

protected theorem accept (k : Kind) :
    Tolerates max what before (fun _ => before) (accept k) (accept k) :=
  .takeIf _

protected theorem expect (k : Kind) (expectation : Expectation) :
    Tolerates max what before (fun _ => before) (expect k expectation) (expect k expectation) := by
  refine (Tolerates.accept k).bind fun t? => ?_
  cases t? with
  | none => exact .fail _
  | some t => exact .pure rfl

protected theorem node {make : Nat → Expr} {after : Expr → Nat}
    (h : ∀ n, before = after (make n)) :
    Tolerates max what before after (node make) (node make) :=
  of_ok fun s => ⟨_, _, [], rfl, by simp, fun _ => by simpa using h s.nextId, rfl⟩

/-- A fault is recorded of which nothing is said about lists. -/
protected theorem report {after : Unit → Nat} (t : Token) {fault : GrammarFault}
    (hfault : IsOther max (.grammar t fault)) :
    Tolerates max what before after (report t fault) (report t fault) := by
  refine of_ok fun s => ⟨(), _, [.grammar t fault], rfl, rfl, fun h => ?_, ?_⟩
  · exact absurd hfault (h _ (List.mem_singleton_self _))
  · rw [lenient_record hfault]
    rfl

/-- One entry more than `count` is beyond the limit, or not. -/
protected theorem checkLimit {m : Nat} {listing : Listing} {count : Nat} :
    Tolerates max what before
      (fun _ => before + if listing = what then (count + 1 - max) - (count - max) else 0)
      (checkLimit ⟨max, true⟩ listing count) (checkLimit ⟨m, false⟩ listing count) := by
  refine of_ok fun s => ?_
  have hlenient : checkLimit ⟨m, false⟩ listing count (s.lenient max) = .ok () (s.lenient max) :=
    if_neg (by simp)
  by_cases hcount : max ≤ count
  · let d : Diagnostic := .grammar s.next (.overLimit max listing)
    have hd : d.listing? max = some listing := if_pos rfl
    refine ⟨(), s.record d, [d], if_pos ⟨hcount, rfl⟩, rfl, fun _ => ?_, ?_⟩
    · rw [List.countP_singleton, hd]
      by_cases hlisting : listing = what
      · simp only [hlisting, decide_true, ↓reduceIte]
        omega
      · simp [hlisting]
    · rw [hlenient, lenient_record_limit (by rw [IsOther, hd]; simp)]
  · refine ⟨(), s, [], if_neg fun h => hcount h.1, by simp, fun _ => ?_, hlenient⟩
    simp only [List.countP_nil]
    split <;> omega

/-! ### Alternatives and repetition -/

theorem ite {c : Prop} [Decidable c] {q q' : Reading α} (hp : Tolerates max what before after p p')
    (hq : Tolerates max what before after q q') :
    Tolerates max what before after (if c then p else q) (if c then p' else q') := by
  split
  · exact hp
  · exact hq

theorem accept_ite {k : Kind} {q q' : Reading α} (hp : Tolerates max what before after p p')
    (hq : Tolerates max what before after q q') :
    Tolerates max what before after
      (accept k >>= fun t? => if t?.isSome = true then p else q)
      (accept k >>= fun t? => if t?.isSome = true then p' else q') :=
  (Tolerates.accept k).bind fun _ => .ite hp hq

/-- What cannot be read is a fault that is not about a list. -/
protected theorem recovering {after' : Option α → Nat} (hp : Tolerates max what before after p p')
    (hsome : ∀ a, after a = after' (some a)) :
    Tolerates max what before after' (recovering p) (recovering p') where
  lenient s := by
    have hstep := hp.lenient s
    unfold Parser.recovering
    cases hr : p s with
    | ok a s₁ =>
      rw [hr] at hstep
      rw [hstep]
      rfl
    | error e s₁ =>
      rw [hr] at hstep
      rw [hstep]
      cases e with
      | outOfRounds => rfl
      | fault d =>
        show EStateM.Result.ok none ((s₁.lenient max).record d).toBoundary = _
        rw [← lenient_record (hp.thrown hr)]
        rfl
  thrown {s d s'} hs := by
    unfold Parser.recovering at hs
    split at hs <;> cases hs
  halted {s e s'} hs := by
    unfold Parser.recovering at hs
    split at hs
    · cases hs
    · cases hs
    · rename_i hr
      cases hs
      exact hp.halted hr
  weight {s a? s'} hs := by
    unfold Parser.recovering at hs
    split at hs
    · rename_i a s₁ hr
      cases hs
      obtain ⟨new, hnew, hweight⟩ := hp.weight hr
      exact ⟨new, hnew, fun hall => (hweight hall).trans (hsome a)⟩
    · rename_i d s₁ hr
      cases hs
      obtain ⟨new, hnew⟩ := hp.halted hr
      refine ⟨new ++ [d], ?_, fun hall => ?_⟩
      · rw [← List.append_assoc, hnew]
        rfl
      · exact absurd (hp.thrown hr) (hall d (by simp))
    · cases hs

/-! ### Repetition -/

protected theorem unlessNext {k : Kind} {after' : Option α → Nat}
    (hp : Tolerates max what before after p p') (hnone : before = after' none)
    (hsome : ∀ a, after a = after' (some a)) :
    Tolerates max what before after' (unlessNext k p) (unlessNext k p') :=
  Tolerates.peek?.bind fun _ => .ite (.pure hnone) (hp.map hsome)

section

variable {lists : α → List (Listing × Nat)}

protected theorem upTo {closes : Kind → Bool} (hp : Adds max what lists p p') (rounds : Nat) :
    Adds max what (List.flatMap lists) (upTo closes p rounds) (upTo closes p' rounds) := by
  intro before
  induction rounds generalizing before with
  | zero => exact .outOfRounds
  | succ rounds ih =>
    refine Tolerates.peek?.bind fun t? => .ite (.pure (by simp)) ?_
    refine (hp before).bind fun a => (ih _).bind fun as => .pure ?_
    rw [List.flatMap_cons, excess_append, Nat.add_assoc]

/-- Of the entries after `count` others, those that are beyond the limit are counted. -/
protected theorem listed {m : Nat} {listing : Listing} (hp : Adds max what lists p p')
    (rounds before count : Nat) :
    Tolerates max what before
      (fun as => before + excess max what (as.flatMap lists)
        + if listing = what then (count + as.length - max) - (count - max) else 0)
      (listed ⟨max, true⟩ listing p count rounds) (listed ⟨m, false⟩ listing p' count rounds) := by
  induction rounds generalizing before count with
  | zero => exact .outOfRounds
  | succ rounds ih =>
    refine Tolerates.checkLimit.bind fun _ => (hp _).bind fun a => accept_ite ?_ (.pure ?_)
    · refine (ih _ _).bind fun as => .pure ?_
      simp only [List.flatMap_cons, excess_append, List.length_cons]
      split <;> omega
    · simp only [List.flatMap_cons, List.flatMap_nil, List.append_nil, List.length_singleton]
      omega

protected theorem listedOrNone {m : Nat} {listing : Listing} (hp : Adds max what lists p p')
    (rounds : Nat) :
    Adds max what (fun as => as.flatMap lists ++ [(listing, as.length)])
      (listedOrNone ⟨max, true⟩ listing p rounds) (listedOrNone ⟨m, false⟩ listing p' rounds) := by
  intro before
  have hentries : Tolerates max what before
      (fun as? => before
        + excess max what ((as?.getD []).flatMap lists ++ [(listing, (as?.getD []).length)]))
      (unlessNext .rightParen (listed ⟨max, true⟩ listing p 0 rounds))
      (unlessNext .rightParen (listed ⟨m, false⟩ listing p' 0 rounds)) :=
    .unlessNext (.listed hp rounds before 0) (by simp) fun as => by simp [Nat.add_assoc]
  exact hentries.bind fun as? => .pure rfl

end

end Tolerates

end Parser

end Lox
