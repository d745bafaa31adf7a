import Lox.Proofs.Indexed.Buffers
import Lox.Proofs.Parsing.Relabeled

/-!
Steps in a buffer that do what a reading does. `Follows` says that from every buffer in bounds the
steps end as the reading does from the cursor of that buffer, at a buffer that shows the cursor at
which the reading ends, unless the reading runs out of rounds. The steps may be given more fuel than
the reading is given rounds, so that they do not depend on how many these are. One rule for each way
in which readings are put together carries this through the grammar.
-/

namespace Lox.Indexed

open Lox.Parser (Cursor Halt Reading afterBoundary startsStatement reading_bind_ok
  reading_bind_error)
open Scanning

variable {α β : Type}

/-- The steps have ended as the reading has, at a buffer that the first one leads to. -/
inductive SameEnd (b : Buffer) :
    EStateM.Result Halt Cursor α → Option (Except Diagnostic α × Buffer) → Prop
  | ok {a : α} {b' : Buffer} (h : b.Leads b') : SameEnd b (.ok a b'.cursor) (some (.ok a, b'))
  | fault {d : Diagnostic} {b' : Buffer} (h : b.Leads b') :
    SameEnd b (.error (.fault d) b'.cursor) (some (.error d, b'))
  | outOfRounds {s : Cursor} {out : Option (Except Diagnostic α × Buffer)} :
    SameEnd b (.error .outOfRounds s) out

/-- From this buffer the steps do what the reading does. -/
def FollowsAt (b : Buffer) (p : Reading α) (q : Scanning α) : Prop :=
  SameEnd b (p b.cursor) (q b)

/-- The steps do what the reading does. -/
def Follows (p : Reading α) (q : Scanning α) : Prop :=
  ∀ b : Buffer, b.InBounds → FollowsAt b p q

variable {b b' : Buffer} {p : Reading α} {q : Scanning α} {next : α → Reading β}
  {next' : α → Scanning β}

theorem SameEnd.of_leads {result : EStateM.Result Halt Cursor α}
    {out : Option (Except Diagnostic α × Buffer)} (h : b.Leads b') (hend : SameEnd b' result out) :
    SameEnd b result out := by
  cases hend with
  | ok hleads => exact .ok (h.trans hleads)
  | fault hleads => exact .fault (h.trans hleads)
  | outOfRounds => exact .outOfRounds

/-! ### One step after another -/

namespace FollowsAt

theorem bind (h : FollowsAt b p q)
    (hnext : ∀ a b', b.Leads b' → FollowsAt b' (next a) (next' a)) :
    FollowsAt b (p >>= next) (q >>= next') := by
  unfold FollowsAt at h ⊢
  generalize hp : p b.cursor = result at h
  generalize hq : q b = out at h
  cases h with
  | ok hleads =>
    rw [reading_bind_ok hp, scanning_bind_ok hq]
    exact (hnext _ _ hleads).of_leads hleads
  | fault hleads =>
    rw [reading_bind_error hp, scanning_bind_error hq]
    exact .fault hleads
  | outOfRounds =>
    rw [reading_bind_error hp]
    exact .outOfRounds

/-- A look that the reading does not take. -/
theorem look {p : Reading β} {a : α} (hlook : Looks q b a)
    (h : ∀ b', b.Still b' → FollowsAt b' p (next' a)) : FollowsAt b p (q >>= next') := by
  obtain ⟨b', hq, hstill⟩ := hlook
  have h := h b' hstill
  unfold FollowsAt at h ⊢
  rw [scanning_bind_ok hq, ← hstill.cursor]
  exact h.of_leads hstill.toLeads

protected theorem pure (hb : b.InBounds) (a : α) : FollowsAt b (pure a) (pure a) :=
  .ok hb.leads_refl

protected theorem fail (hb : b.InBounds) (what : Expectation) :
    FollowsAt b (Parser.fail what : Reading α) (fail what) := by
  refine (Looks.peek hb).elim fun b' h => ?_
  unfold FollowsAt
  rw [fail, scanning_bind_ok h.1]
  have hend : SameEnd b (α := α)
      (.error (.fault (.grammar b.cursor.next (.expected what))) b'.cursor)
      (some (.error (.grammar b.cursor.next (.expected what)), b')) := .fault h.2.toLeads
  rw [h.2.cursor] at hend
  exact hend

end FollowsAt

namespace Follows

protected theorem bind (h : Follows p q) (hnext : ∀ a, Follows (next a) (next' a)) :
    Follows (p >>= next) (q >>= next') := fun b hb =>
  (h b hb).bind fun a b' hleads => hnext a b' (hleads.inBounds hb)

protected theorem pure (a : α) : Follows (pure a) (pure a) := fun _ hb =>
  .pure hb a

theorem map {k : α → β} (h : Follows p q) : Follows (k <$> p) (k <$> q) := by
  rw [map_eq_pure_bind, map_eq_pure_bind]
  exact h.bind fun a => .pure (k a)

protected theorem outOfRounds : Follows (throw .outOfRounds) q := fun _ _ =>
  .outOfRounds

protected theorem fail (what : Expectation) : Follows (Parser.fail what : Reading α) (fail what) :=
  fun _ hb => .fail hb what

protected theorem node (make : Nat → Expr) : Follows (Parser.node make) (node make) := by
  intro b hb
  let b' : Buffer := { b with nextId := b.nextId + 1 }
  have hleads : b.Leads b' := ⟨rfl, Nat.le_refl _, hb.le, Nat.le_max_left _ _⟩
  exact .ok hleads

protected theorem record {t : Token} {fault : GrammarFault} :
    Follows (Parser.report t fault) (record (.grammar t fault)) := by
  intro b hb
  let b' : Buffer := { b with faults := b.faults ++ [.grammar t fault] }
  have hleads : b.Leads b' := ⟨rfl, Nat.le_refl _, hb.le, Nat.le_max_left _ _⟩
  exact .ok hleads

protected theorem checkLimit (limit : Limit) (what : Listing) (count : Nat) :
    Follows (Parser.checkLimit limit what count) (checkLimit limit what count) := by
  intro b hb
  obtain ⟨b', hpeek, hstill⟩ := Looks.peek hb
  unfold FollowsAt Parser.checkLimit checkLimit
  by_cases hcount : limit.maxArguments ≤ count
  · rw [if_pos hcount]
    by_cases hstrict : limit.strict = true
    · rw [if_pos ⟨hcount, hstrict⟩, if_pos hstrict, scanning_bind_ok hpeek]
      let d : Diagnostic := .grammar b.cursor.next (.overLimit limit.maxArguments what)
      let b'' : Buffer := { b' with faults := b'.faults ++ [d] }
      have hleads : b'.Leads b'' :=
        ⟨rfl, Nat.le_refl _, (hstill.inBounds hb).le, Nat.le_max_left _ _⟩
      have hcursor : b''.cursor = b.cursor.record d := congrArg (Cursor.record · d) hstill.cursor
      rw [← hcursor]
      exact .ok (hstill.toLeads.trans hleads)
    · rw [if_neg fun h => hstrict h.2, if_neg hstrict, scanning_bind_ok hpeek, ← hstill.cursor]
      exact .ok hstill.toLeads
  · rw [if_neg hcount, if_neg fun h => hcount h.1]
    exact .ok hb.leads_refl

end Follows

/-! ### Tokens that are taken -/

/-- The step takes the next token if its kind is accepted, and says whether it has done so. -/
def Takes (q : Scanning Bool) (accepts : Kind → Bool) : Prop :=
  ∀ b : Buffer, b.InBounds →
    (b.cursor.rest.head?.any (accepts ·.kind) = false → Looks q b false)
      ∧ ∀ t rest, b.cursor.rest = t :: rest → accepts t.kind = true →
        ∃ b', q b = some (.ok true, b') ∧ b.Passes t rest b'

theorem Takes.accept (k : Kind) : Takes (accept k) (· = k) := by
  intro b hb
  obtain ⟨b', hcheck, hstill⟩ := Looks.check hb k
  have hb' := hstill.inBounds hb
  refine ⟨fun hhead => ?_, fun t rest hrest ht => ?_⟩
  · rw [hhead] at hcheck
    exact ⟨b', scanning_bind_ok hcheck, hstill⟩
  · have ht : decide (t.kind = k) = true := ht
    rw [hrest, List.head?_cons, Option.any_some, ht] at hcheck
    obtain ⟨b'', hadvance, hpasses⟩ := advance_passes hb' (hstill.cursor ▸ hrest)
    refine ⟨b'', ?_, hstill.passes hpasses⟩
    exact (scanning_bind_ok hcheck).trans (scanning_bind_ok hadvance)

theorem Takes.or {q q' : Scanning Bool} {accepts accepts' : Kind → Bool} (h : Takes q accepts)
    (h' : Takes q' accepts') : Takes (q <||> q') fun k => accepts k || accepts' k := by
  intro b hb
  obtain ⟨hpass, htake⟩ := h b hb
  refine ⟨fun hhead => ?_, fun t rest hrest ht => ?_⟩
  · have hboth : b.cursor.rest.head?.any (accepts ·.kind) = false
        ∧ b.cursor.rest.head?.any (accepts' ·.kind) = false := by
      cases hr : b.cursor.rest.head? with
      | none => exact ⟨rfl, rfl⟩
      | some t => simpa [hr] using hhead
    refine (hpass hboth.1).bind fun b' hstill => ?_
    exact (h' b' (hstill.inBounds hb)).1 (hstill.cursor ▸ hboth.2)
  · by_cases ha : accepts t.kind = true
    · obtain ⟨b', hq, hpasses⟩ := htake t rest hrest ha
      exact ⟨b', scanning_bind_ok hq, hpasses⟩
    · have ha' : accepts' t.kind = true := by simpa [ha] using ht
      obtain ⟨b', hq, hstill⟩ := hpass (by simpa [hrest] using ha)
      obtain ⟨b'', hq', hpasses⟩ :=
        (h' b' (hstill.inBounds hb)).2 t rest (hstill.cursor ▸ hrest) ha'
      exact ⟨b'', (scanning_bind_ok hq).trans hq', hstill.passes hpasses⟩

theorem takeIf_taken {accepts : Kind → Bool} {next : Option Token → Reading α} {s : Cursor}
    {t : Token} {rest : List Token} (hrest : s.rest = t :: rest) (ht : accepts t.kind = true) :
    (Parser.takeIf accepts >>= next) s = next (some t) { s with rest } := by
  refine reading_bind_ok ?_
  unfold Parser.takeIf
  rw [hrest]
  exact if_pos ht

theorem takeIf_left {accepts : Kind → Bool} {next : Option Token → Reading α} {s : Cursor}
    (hhead : s.rest.head?.any (accepts ·.kind) = false) :
    (Parser.takeIf accepts >>= next) s = next none s := by
  refine reading_bind_ok ?_
  unfold Parser.takeIf
  cases hrest : s.rest with
  | nil => rfl
  | cons t rest =>
    rw [hrest] at hhead
    exact if_neg (by simpa using hhead)

/-- A place at the next token: it is accepted, or nothing there is. -/
theorem Buffer.cases_head (accepts : Kind → Bool) (b : Buffer) :
    b.cursor.rest.head?.any (accepts ·.kind) = false
      ∨ ∃ t rest, b.cursor.rest = t :: rest ∧ accepts t.kind = true := by
  cases hrest : b.cursor.rest with
  | nil => exact .inl rfl
  | cons t rest =>
    cases ha : accepts t.kind with
    | false => exact .inl ha
    | true => exact .inr ⟨t, rest, rfl, ha⟩

namespace Follows

section

variable {accepts : Kind → Bool} {test : Scanning Bool} {next : Option Token → Reading α}
  {q q' : Scanning α}

/-- The token that has been taken is behind the place when the steps go on. -/
theorem takes_bind (htest : Takes test accepts)
    (hsome : ∀ t b, accepts t.kind = true → b.InBounds → b.Behind t → FollowsAt b (next (some t)) q)
    (hnone : Follows (next none) q') :
    Follows (Parser.takeIf accepts >>= next) (test >>= fun taken => if taken = true then q else q') := by
  intro b hb
  unfold FollowsAt
  rcases b.cases_head accepts with hhead | ⟨t, rest, hrest, ht⟩
  · obtain ⟨b', hq, hstill⟩ := (htest b hb).1 hhead
    rw [takeIf_left hhead, scanning_bind_ok hq, ← hstill.cursor]
    exact (hnone b' (hstill.inBounds hb)).of_leads hstill.toLeads
  · obtain ⟨b', hq, hpasses⟩ := (htest b hb).2 t rest hrest ht
    rw [takeIf_taken hrest ht, scanning_bind_ok hq, ← hpasses.cursor]
    exact (hsome t b' ht (hpasses.inBounds hb) hpasses.behind).of_leads hpasses.toLeads

/-- The token that has been taken is looked at. -/
theorem takes_previous {next' : Token → Scanning α} (htest : Takes test accepts)
    (hsome : ∀ t, accepts t.kind = true → Follows (next (some t)) (next' t))
    (hnone : Follows (next none) q') :
    Follows (Parser.takeIf accepts >>= next)
      (test >>= fun taken => if taken = true then previous >>= next' else q') :=
  takes_bind htest (fun t _ ht hb hbehind => .look (.previous hb hbehind) fun b' hstill =>
    hsome t ht b' (hstill.inBounds hb)) hnone

/-- The token is taken after it has been looked at. -/
theorem looks_advance {next' : Token → Scanning α}
    (htest : ∀ b : Buffer, b.InBounds →
      Looks test b (b.cursor.rest.head?.any (accepts ·.kind)))
    (hsome : ∀ t, accepts t.kind = true → Follows (next (some t)) (next' t))
    (hnone : Follows (next none) q') :
    Follows (Parser.takeIf accepts >>= next)
      (test >>= fun found => if found = true then advance >>= next' else q') := by
  intro b hb
  obtain ⟨b', hq, hstill⟩ := htest b hb
  have hb' := hstill.inBounds hb
  unfold FollowsAt
  rw [scanning_bind_ok hq]
  rcases b.cases_head accepts with hhead | ⟨t, rest, hrest, ht⟩
  · rw [takeIf_left hhead, hhead, ← hstill.cursor]
    exact (hnone b' hb').of_leads hstill.toLeads
  · obtain ⟨b'', hadvance, hpasses⟩ := advance_passes hb' (hstill.cursor ▸ hrest)
    rw [takeIf_taken hrest ht, hrest, List.head?_cons, Option.any_some, if_pos ht,
      scanning_bind_ok hadvance, ← hstill.cursor, ← hpasses.cursor]
    exact (hsome t ht b'' (hpasses.inBounds hb')).of_leads (hstill.toLeads.trans hpasses.toLeads)

theorem accept_ite {k : Kind} {p p' : Reading α} (h : Follows p q) (h' : Follows p' q') :
    Follows (Parser.accept k >>= fun t? => if t?.isSome = true then p else p')
      (accept k >>= fun taken => if taken = true then q else q') :=
  takes_bind (.accept k) (fun _ b _ hb _ => h b hb) h'

end

protected theorem expect (k : Kind) (what : Expectation) :
    Follows (Parser.expect k what) (expect k what) := by
  have h : Follows (Parser.expect k what)
      (check k >>= fun found => if found = true then advance >>= pure else fail what) :=
    looks_advance (fun b hb => .check hb k) (fun t _ => .pure t) (.fail what)
  rwa [bind_pure] at h

end Follows

/-! ### Statement boundaries -/

/-- After a token that has been skipped, tokens are taken up to the next boundary. -/
theorem untilBoundary_spec {t : Token} {rest : List Token} {fuel : Nat} (hb : b.InBounds)
    (hbehind : b.Behind t) (hrest : b.cursor.rest = rest) (hfuel : rest.length < fuel) :
    ∃ b', untilBoundary fuel b = some (.ok (), b') ∧ b.Leads b'
      ∧ b'.cursor = { b.cursor with rest := afterBoundary (t :: rest) } := by
  obtain ⟨fuel, rfl⟩ := Nat.exists_eq_add_one.2 (Nat.lt_of_le_of_lt (Nat.zero_le _) hfuel)
  induction rest generalizing b t fuel with
  | nil =>
    obtain ⟨b', hend, hstill⟩ := Looks.isAtEnd hb
    rw [hrest] at hend
    unfold untilBoundary
    rw [scanning_bind_ok hend]
    refine ⟨b', rfl, hstill.toLeads, ?_⟩
    have hafter : afterBoundary [t] = [] := by simp [afterBoundary]
    rw [hstill.cursor, hafter, ← hrest]
  | cons u rest ih =>
    obtain ⟨b₁, hend, h₁⟩ := Looks.isAtEnd hb
    obtain ⟨b₂, hprevious, h₂⟩ := Looks.previous (h₁.inBounds hb) (h₁.behind hbehind)
    have h₁₂ := h₁.trans h₂
    obtain ⟨b₃, hpeek, h₃⟩ := Looks.peek (h₁₂.inBounds hb)
    have h₁₃ := h₁₂.trans h₃
    rw [hrest] at hend
    rw [Cursor.next, h₁₂.cursor, hrest, List.headD_cons] at hpeek
    unfold untilBoundary
    rw [scanning_bind_ok hend, List.isEmpty_cons, if_neg Bool.false_ne_true,
      scanning_bind_ok hprevious]
    by_cases hsemicolon : t.kind = .semicolon
    · rw [if_pos hsemicolon]
      refine ⟨b₂, rfl, h₁₂.toLeads, ?_⟩
      rw [h₁₂.cursor, afterBoundary, if_pos (.inl hsemicolon), ← hrest]
    · rw [if_neg hsemicolon, scanning_bind_ok hpeek]
      by_cases hstarts : startsStatement u.kind = true
      · rw [if_pos hstarts]
        refine ⟨b₃, rfl, h₁₃.toLeads, ?_⟩
        rw [h₁₃.cursor, afterBoundary, if_pos (.inr hstarts), ← hrest]
      · rw [if_neg hstarts]
        obtain ⟨b₄, hadvance, hpasses⟩ :=
          advance_passes (h₁₃.inBounds hb) ((congrArg Cursor.rest h₁₃.cursor).trans hrest)
        have hpasses := h₁₃.passes hpasses
        rw [List.length_cons] at hfuel
        obtain ⟨fuel, rfl⟩ := Nat.exists_eq_add_one.2 (show 0 < fuel by omega)
        obtain ⟨b', huntil, hleads, hcursor⟩ := ih (hpasses.inBounds hb) hpasses.behind
          (congrArg Cursor.rest hpasses.cursor) fuel (by omega)
        refine ⟨b', (scanning_bind_ok hadvance).trans huntil, hpasses.toLeads.trans hleads, ?_⟩
        have hafter : afterBoundary (t :: u :: rest) = afterBoundary (u :: rest) :=
          if_neg (not_or.2 ⟨hsemicolon, hstarts⟩)
        rw [hcursor, hpasses.cursor, hafter]

theorem synchronize_spec (hb : b.InBounds) :
    ∃ b', synchronize b = some (.ok (), b') ∧ b.Leads b' ∧ b'.cursor = b.cursor.toBoundary := by
  cases hrest : b.cursor.rest with
  | nil =>
    obtain ⟨b₁, hend, h₁⟩ := Looks.isAtEnd hb
    have hb₁ := h₁.inBounds hb
    have hplace : b₁.current - 1 ≤ b₁.stop := Nat.le_trans (Nat.sub_le _ 1) hb₁.le
    obtain ⟨b₂, hprevious, h₂⟩ := Looks.tokenAt hb₁ hplace
      (List.getElem?_eq_getElem (Nat.lt_of_le_of_lt hplace hb₁.lt))
    have h₁₂ := h₁.trans h₂
    obtain ⟨b₃, hend', h₃⟩ := Looks.isAtEnd (h₁₂.inBounds hb)
    have h₁₃ := h₁₂.trans h₃
    rw [hrest] at hend
    rw [h₁₂.cursor, hrest] at hend'
    have hadvance : advance b = some (.ok _, b₂) :=
      (scanning_bind_ok hend).trans hprevious
    obtain ⟨fuel, hfuel⟩ :=
      Nat.exists_eq_add_one.2 (Nat.lt_of_le_of_lt (Nat.zero_le _) (h₁₂.inBounds hb).lt)
    have huntil : untilBoundary b₂.tokens.length b₂ = some (.ok (), b₃) := by
      rw [hfuel]
      exact scanning_bind_ok hend'
    refine ⟨b₃, (scanning_bind_ok hadvance).trans huntil, h₁₃.toLeads, ?_⟩
    rw [h₁₃.cursor, Cursor.toBoundary, hrest, afterBoundary, ← hrest]
  | cons t rest =>
    obtain ⟨b₁, hadvance, hpasses⟩ := advance_passes hb hrest
    have hb₁ := hpasses.inBounds hb
    have hrest₁ : b₁.cursor.rest = rest := congrArg Cursor.rest hpasses.cursor
    have hfuel : rest.length < b₁.tokens.length := by
      have hlength := hb₁.length_rest
      have hlt := hb₁.lt
      rw [hrest₁] at hlength
      omega
    obtain ⟨b₂, huntil, hleads, hcursor⟩ := untilBoundary_spec hb₁ hpasses.behind hrest₁ hfuel
    refine ⟨b₂, (scanning_bind_ok hadvance).trans huntil, hpasses.toLeads.trans hleads, ?_⟩
    rw [hcursor, hpasses.cursor, Cursor.toBoundary, hrest]

protected theorem Follows.recovering (h : Follows p q) :
    Follows (Parser.recovering p) (recovering q) := by
  intro b hb
  have hend : SameEnd b (p b.cursor) (q.run b) := h b hb
  unfold FollowsAt Parser.recovering recovering
  generalize hp : p b.cursor = result at hend ⊢
  generalize hq : q.run b = out at hend
  cases hend with
  | ok hleads =>
    rw [state_bind hq]
    exact .ok hleads
  | @fault d b' hleads =>
    let b₁ : Buffer := { b' with faults := b'.faults ++ [d] }
    have hleads' : b.Leads b₁ :=
      ⟨hleads.tokens, hleads.forward, hleads.le, hleads.reach⟩
    obtain ⟨b₂, hsynchronize, hleads₂, hcursor⟩ := synchronize_spec (hleads'.inBounds hb)
    have hsynchronize : synchronize.run b₁ = some (.ok (), b₂) := hsynchronize
    have hrecord : (record d).run b' = some (.ok (), b₁) := rfl
    rw [state_bind hq]
    dsimp only
    rw [state_bind hrecord, state_bind hsynchronize]
    have hboundary : (b'.cursor.record d).toBoundary = b₂.cursor := hcursor.symm
    rw [hboundary]
    exact .ok (hleads'.trans hleads₂)
  | outOfRounds => exact .outOfRounds

namespace Follows

/-! ### Repetition -/

/-- The reading looks at the next token where the steps do. -/
theorem peek?_ite {closes : Option Token → Bool} {test : Scanning Bool} {p p' : Reading α}
    {q q' : Scanning α}
    (htest : ∀ b : Buffer, b.InBounds → Looks test b (closes b.cursor.rest.head?))
    (h : Follows p q) (h' : Follows p' q') :
    Follows (Parser.peek? >>= fun t? => if closes t? = true then p else p')
      (test >>= fun found => if found = true then q else q') := by
  intro b hb
  show FollowsAt b (if closes b.cursor.rest.head? = true then p else p') _
  refine .look (htest b hb) fun b' hstill => ?_
  have hb' := hstill.inBounds hb
  split
  · exact h b' hb'
  · exact h' b' hb'

theorem unlessNext_bind {k : Kind} {next : Option α → Reading β} {next' : Option α → Scanning β}
    (h : Follows p q) (hnext : ∀ a?, Follows (next a?) (next' a?)) :
    Follows (Parser.unlessNext k p >>= next)
      (check k >>= fun found =>
        if found = true then pure none >>= next' else (some <$> q) >>= next') := by
  have hmodel : Parser.unlessNext k p >>= next = Parser.peek? >>= fun t? =>
      if t?.any (·.kind = k) = true then pure none >>= next else (some <$> p) >>= next := by
    rw [Parser.unlessNext, bind_assoc]
    refine congrArg _ (funext fun t? => ?_)
    split <;> rfl
  rw [hmodel]
  exact peek?_ite (fun b hb => .check hb k) ((Follows.pure none).bind hnext) (h.map.bind hnext)

theorem listedOrNone_bind {limit : Limit} {what : Listing} {rounds : Nat} {q : Scanning (List α)}
    {next : List α → Reading β} {next' : List α → Scanning β}
    (h : Follows (Parser.listed limit what p 0 rounds) q)
    (hnext : ∀ as, Follows (next as) (next' as)) :
    Follows (Parser.listedOrNone limit what p rounds >>= next)
      (check .rightParen >>= fun found =>
        if found = true then pure [] >>= next' else q >>= next') := by
  have hmodel : Parser.listedOrNone limit what p rounds >>= next = Parser.peek? >>= fun t? =>
      if t?.any (·.kind = .rightParen) = true then pure [] >>= next
      else Parser.listed limit what p 0 rounds >>= next := by
    rw [Parser.listedOrNone, Parser.unlessNext, bind_assoc, bind_assoc]
    refine congrArg _ (funext fun t? => ?_)
    split
    · rfl
    · rw [bind_map_left]
      rfl
  rw [hmodel]
  exact peek?_ite (fun b hb => .check hb .rightParen) ((Follows.pure []).bind hnext) (h.bind hnext)

protected theorem listed {limit : Limit} {what : Listing} (h : Follows p q) {rounds fuel : Nat}
    (hfuel : rounds ≤ fuel) (count : Nat) :
    Follows (Parser.listed limit what p count rounds) (listed limit what q count fuel) := by
  induction rounds generalizing count fuel with
  | zero => exact .outOfRounds
  | succ rounds ih =>
    obtain ⟨fuel, rfl⟩ := Nat.exists_eq_add_one.2 (Nat.lt_of_lt_of_le (Nat.succ_pos rounds) hfuel)
    have hmore := ih (Nat.le_of_succ_le_succ hfuel) (count + 1)
    refine (Follows.checkLimit limit what count).bind fun _ => h.bind fun first => ?_
    exact accept_ite (hmore.bind fun rest => .pure (first :: rest)) (.pure [first])

protected theorem upTo {closes : Kind → Bool} {closing : Scanning Bool}
    (hclosing : ∀ b : Buffer, b.InBounds →
      Looks closing b (b.cursor.rest.head?.all (closes ·.kind)))
    (h : Follows p q) {rounds fuel : Nat} (hfuel : rounds ≤ fuel) :
    Follows (Parser.upTo closes p rounds) (upTo closing q fuel) := by
  induction rounds generalizing fuel with
  | zero => exact .outOfRounds
  | succ rounds ih =>
    obtain ⟨fuel, rfl⟩ := Nat.exists_eq_add_one.2 (Nat.lt_of_lt_of_le (Nat.succ_pos rounds) hfuel)
    have hmore := ih (Nat.le_of_succ_le_succ hfuel)
    exact peek?_ite hclosing (.pure [])
      (h.bind fun first => hmore.bind fun rest => .pure (first :: rest))

end Follows

end Lox.Indexed
