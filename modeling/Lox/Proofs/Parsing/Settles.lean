import Lox.Proofs.Parsing.Relabeled

/-!
Readings that come to an end. `Settles n k` says of a reading that, where at most `n` tokens are left,
it does not run out of rounds, and that it takes at least `k` tokens if it succeeds. Between two
tokens that are taken a reading goes down at most four levels, so that four rounds for each token are
enough (`Settles.expressions`, `Settles.statements`). A declaration takes a token also where it cannot
be read, unless the list has ended (`Advances`).
-/

namespace Lox

namespace Parser

variable {α β : Type}

/-- From this place on the reading comes to an end, takes at least `k` tokens if it succeeds, and does
not go back if it fails. -/
def SettlesAt (k : Nat) (p : Reading α) (s : Cursor) : Prop :=
  match p s with
  | .ok _ s' => s'.rest.length + k ≤ s.rest.length
  | .error (.fault _) s' => s'.rest.length ≤ s.rest.length
  | .error .outOfRounds _ => False

/-- The reading comes to an end where at most `n` tokens are left. -/
def Settles (n k : Nat) (p : Reading α) : Prop :=
  ∀ s : Cursor, s.rest.length ≤ n → SettlesAt k p s

/-- The reading comes to an end, and takes a token if there is one. -/
def Advances (n : Nat) (p : Reading α) : Prop :=
  ∀ s : Cursor, s.rest ≠ [] → s.rest.length ≤ n → SettlesAt 1 p s

theorem SettlesAt.mono {k k' : Nat} {p : Reading α} {s : Cursor} (h : SettlesAt k p s)
    (hk : k' ≤ k) : SettlesAt k' p s := by
  unfold SettlesAt at *
  split at h
  · omega
  · exact h
  · exact h

/-- What comes to an end does not run out of rounds. -/
theorem SettlesAt.ne_outOfRounds {k : Nat} {p : Reading α} {s : Cursor} (h : SettlesAt k p s)
    (s' : Cursor) : p s ≠ .error .outOfRounds s' := by
  intro hp
  unfold SettlesAt at h
  rwa [hp] at h

namespace Settles

variable {n j k : Nat} {p q : Reading α} {next : α → Reading β}

theorem mono {n' k' : Nat} (h : Settles n k p) (hn : n' ≤ n) (hk : k' ≤ k) : Settles n' k' p :=
  fun s hs => (h s (Nat.le_trans hs hn)).mono hk

theorem advances (h : Settles n 1 p) : Advances n p :=
  fun s _ hs => h s hs

theorem of_ok {s s' : Cursor} {a : α} (hp : p s = .ok a s')
    (hs : s'.rest.length + k ≤ s.rest.length) : SettlesAt k p s := by
  unfold SettlesAt
  rwa [hp]

theorem bindAt {s : Cursor} (h : SettlesAt k p s)
    (hnext : ∀ a s', s'.rest.length + k ≤ s.rest.length → SettlesAt j (next a) s') :
    SettlesAt (k + j) (p >>= next) s := by
  unfold SettlesAt at h ⊢
  cases hp : p s with
  | error e s₁ =>
    rw [reading_bind_error hp]
    rw [hp] at h
    cases e <;> exact h
  | ok a s₁ =>
    rw [reading_bind_ok hp]
    rw [hp] at h
    have hafter := hnext a s₁ h
    unfold SettlesAt at hafter
    split at hafter
    · omega
    · omega
    · exact hafter

protected theorem bind (h : Settles n k p) (hnext : ∀ a, Settles (n - k) j (next a)) :
    Settles n (k + j) (p >>= next) :=
  fun s hs => bindAt (h s hs) fun a s' hs' => hnext a s' (by omega)

/-- One reading after another, of which only the first one is known to take something. -/
theorem bind_left (h : Settles n k p) (hnext : ∀ a, Settles (n - k) 0 (next a)) :
    Settles n k (p >>= next) :=
  h.bind hnext

/-- One reading after another, of which the first one may take nothing. -/
theorem bind_right (h : Settles n 0 p) (hnext : ∀ a, Settles n k (next a)) :
    Settles n k (p >>= next) :=
  (h.bind hnext).mono (Nat.le_refl n) (Nat.le_add_left k 0)

protected theorem pure (a : α) : Settles n 0 (pure a) :=
  fun _ _ => of_ok rfl (Nat.le_refl _)

protected theorem map {f : α → β} (h : Settles n k p) : Settles n k (f <$> p) := by
  rw [map_eq_pure_bind]
  exact h.bind_left fun a => .pure (f a)

/-! ### Elementary steps -/

protected theorem fail (what : Expectation) : Settles n k (fail what : Reading α) :=
  fun s _ => Nat.le_refl s.rest.length

protected theorem report (token : Token) (fault : GrammarFault) :
    Settles n 0 (report token fault) :=
  fun _ _ => of_ok rfl (Nat.le_refl _)

protected theorem node (make : Nat → Expr) : Settles n 0 (node make) :=
  fun _ _ => of_ok rfl (Nat.le_refl _)

protected theorem checkLimit (limit : Limit) (what : Listing) (count : Nat) :
    Settles n 0 (checkLimit limit what count) := by
  intro s _
  by_cases hl : limit.maxArguments ≤ count ∧ limit.strict
  · exact of_ok (if_pos hl) (Nat.le_refl _)
  · exact of_ok (if_neg hl) (Nat.le_refl _)

/-- A token may be taken, and then there was one. -/
theorem takeIf_bind {accepts : Kind → Bool} {next : Option Token → Reading β}
    (hsome : ∀ t m, m + 1 ≤ n → Settles m (k - 1) (next (some t))) (hnone : Settles n k (next none)) :
    Settles n k (takeIf accepts >>= next) := by
  rintro ⟨rest, stop, nextId, faults⟩ hs
  have hskip (h : takeIf accepts ⟨rest, stop, nextId, faults⟩
      = .ok none ⟨rest, stop, nextId, faults⟩) :
      SettlesAt k (takeIf accepts >>= next) ⟨rest, stop, nextId, faults⟩ := by
    unfold SettlesAt
    rw [reading_bind_ok h]
    exact hnone _ hs
  cases rest with
  | nil => exact hskip rfl
  | cons t rest =>
    by_cases ha : accepts t.kind = true
    · have htake : takeIf accepts ⟨t :: rest, stop, nextId, faults⟩
          = .ok (some t) ⟨rest, stop, nextId, faults⟩ := if_pos ha
      have htaken : rest.length + 1 ≤ n := hs
      obtain ⟨m, rfl⟩ := Nat.exists_eq_add_one.2 (Nat.lt_of_lt_of_le (Nat.succ_pos _) htaken)
      have hafter :=
        hsome t m (Nat.le_refl _) ⟨rest, stop, nextId, faults⟩ (Nat.le_of_succ_le_succ htaken)
      unfold SettlesAt at hafter ⊢
      rw [reading_bind_ok htake]
      dsimp only [List.length_cons] at hafter ⊢
      split at hafter
      · omega
      · exact Nat.le_succ_of_le hafter
      · exact hafter
    · exact hskip (if_neg ha)

theorem accept_ite {kind : Kind} {p q : Reading β} (hp : ∀ m, m + 1 ≤ n → Settles m (k - 1) p)
    (hq : Settles n k q) :
    Settles n k (accept kind >>= fun t? => if t?.isSome = true then p else q) :=
  takeIf_bind (fun _ => hp) hq

protected theorem expect (kind : Kind) (what : Expectation) : Settles n 1 (expect kind what) :=
  takeIf_bind (fun t _ _ => .pure t) (.fail what)

/-- A declaration that cannot be read takes a token nevertheless. -/
protected theorem recovering (h : Settles n 1 p) : Advances n (recovering p) := by
  intro s hne hs
  have h := h s hs
  unfold SettlesAt at h ⊢
  unfold Parser.recovering
  cases hp : p s with
  | ok a s' =>
    rw [hp] at h
    exact h
  | error e s' =>
    rw [hp] at h
    cases e with
    | outOfRounds => exact h
    | fault d =>
      have h : s'.rest.length ≤ s.rest.length := h
      show (afterBoundary s'.rest).length + 1 ≤ s.rest.length
      cases hr : s'.rest with
      | nil => exact List.length_pos_iff.2 hne
      | cons t rest =>
        rw [hr] at h
        exact Nat.lt_of_lt_of_le (length_afterBoundary_lt t rest) h

/-! ### Repetition -/

protected theorem unlessNext (kind : Kind) (h : Settles n 0 p) :
    Settles n 0 (unlessNext kind p) := by
  intro s hs
  show SettlesAt 0 (if s.rest.head?.any (·.kind = kind) = true then pure none else some <$> p) s
  split
  · exact Settles.pure none s hs
  · exact h.map s hs

protected theorem upTo (closes : Kind → Bool) (h : Advances n p) {rounds : Nat}
    (hrounds : n < rounds) : Settles n 0 (upTo closes p rounds) := by
  induction rounds generalizing n with
  | zero => exact absurd hrounds (Nat.not_lt_zero n)
  | succ rounds ih =>
    intro s hs
    show SettlesAt 0 (if s.rest.head?.all (closes ·.kind) = true then pure []
      else p >>= fun first => upTo closes p rounds >>= fun rest => pure (first :: rest)) s
    split
    · exact Settles.pure [] s hs
    · rename_i hall
      have hne : s.rest ≠ [] := fun hnil => hall (by simp [hnil])
      refine (bindAt (j := 0) (h s hne hs) fun first s' hs' => ?_).mono (Nat.zero_le 1)
      have hmore : Settles (n - 1) 0 (upTo closes p rounds) :=
        ih (fun s₁ hne₁ hs₁ => h s₁ hne₁ (by omega)) (by omega)
      exact hmore.bind_left (fun rest => .pure (first :: rest)) s' (by omega)

protected theorem listed (limit : Limit) (what : Listing) (h : Settles n 1 p) {rounds : Nat}
    (hrounds : n < rounds) (count : Nat) : Settles n 1 (listed limit what p count rounds) := by
  induction rounds generalizing n count with
  | zero => exact absurd hrounds (Nat.not_lt_zero n)
  | succ rounds ih =>
    refine (Settles.checkLimit limit what count).bind_right fun _ => h.bind_left fun first => ?_
    refine accept_ite (fun m hm => ?_) (.pure [first])
    have hshorter : Settles m 1 p := h.mono (by omega) (Nat.le_refl 1)
    have hmore := ih hshorter (by omega) (count + 1)
    exact (hmore.bind_left fun rest => .pure (first :: rest)).mono (Nat.le_refl m) (Nat.zero_le 1)

protected theorem listedOrNone (limit : Limit) (what : Listing) (h : Settles n 1 p) {rounds : Nat}
    (hrounds : n < rounds) : Settles n 0 (listedOrNone limit what p rounds) := by
  have hlisted := (Settles.listed limit what h hrounds 0).mono (Nat.le_refl n) (Nat.zero_le 1)
  exact (Settles.unlessNext .rightParen hlisted).bind_left fun entries? => .pure (entries?.getD [])

/-! ### Expressions -/

section

variable {expression : Reading Expr} {rounds : Nat}

protected theorem operations (level : Level) (h : Settles n 1 expression) (hrounds : n < rounds)
    (left : Expr) : Settles n 0 (operations level expression left rounds) := by
  induction rounds generalizing n left with
  | zero => exact absurd hrounds (Nat.not_lt_zero n)
  | succ rounds ih =>
    refine takeIf_bind (fun operator m hm => ?_) (.pure left)
    have hm : Settles m 0 expression := h.mono (by omega) (Nat.zero_le 1)
    refine hm.bind_right fun right => (Settles.node _).bind_right fun joined => ?_
    exact ih (h.mono (by omega) (Nat.le_refl 1)) (by omega) joined

protected theorem operation (h : Settles n 1 expression) (hrounds : n < rounds)
    (tightness : List Level) : Settles n 1 (operation expression rounds tightness) := by
  induction tightness with
  | nil => exact h
  | cons level tighter ih =>
    exact ih.bind_left fun left =>
      (Settles.operations level ih hrounds left).mono (Nat.sub_le n 1) (Nat.le_refl 0)

protected theorem accesses (limit : Limit) (h : ∀ m, m + 1 ≤ n → Settles m 1 expression)
    (hrounds : n < rounds) (left : Expr) :
    Settles n 0 (accesses limit expression left rounds) := by
  induction rounds generalizing n left with
  | zero => exact absurd hrounds (Nat.not_lt_zero n)
  | succ rounds ih =>
    have hmore {m : Nat} (hm : m + 1 ≤ n) (left : Expr) :
        Settles m 0 (accesses limit expression left rounds) :=
      ih (fun m' hm' => h m' (by omega)) (by omega) left
    refine accept_ite (fun m hm => ?_) (accept_ite (fun m hm => ?_) (.pure left))
    · refine (Settles.listedOrNone limit .arguments (h m hm) (by omega)).bind_right fun args => ?_
      refine ((Settles.expect _ _).mono (Nat.le_refl m) (Nat.zero_le 1)).bind_right fun paren => ?_
      exact (Settles.node _).bind_right fun call => hmore hm call
    · refine ((Settles.expect _ _).mono (Nat.le_refl m) (Nat.zero_le 1)).bind_right fun name => ?_
      exact (Settles.node _).bind_right fun property => hmore hm property

protected theorem primary (h : ∀ m, m + 1 ≤ n → Settles m 1 expression) :
    Settles n 1 (primary expression) := by
  rw [primary_eq]
  refine takeIf_bind (fun t m hm => ?_) (.fail _)
  have hexpect (kind : Kind) (what : Expectation) : Settles m 0 (expect kind what) :=
    (Settles.expect kind what).mono (Nat.le_refl m) (Nat.zero_le 1)
  show Settles m 0 (primaryFrom expression t)
  unfold primaryFrom
  split
  case h_7 => exact (hexpect _ _).bind_right fun _ => (hexpect _ _).bind_right fun _ => .node _
  case h_9 =>
    have hinner : Settles m 0 expression := (h m hm).mono (Nat.le_refl m) (Nat.zero_le 1)
    exact hinner.bind_right fun _ => (hexpect _ _).bind_right fun _ => .node _
  case h_10 => exact .fail _
  all_goals exact .node _

protected theorem assignTo (target : Expr) (equals : Token) (value : Expr) :
    Settles n 0 (assignTo target equals value) := by
  cases target with
  | var _ name => exact Settles.node (.assign · name value)
  | get _ object name => exact Settles.node (.set · object name value)
  | _ => exact (Settles.report equals _).bind_right fun _ => .pure _

end

/-- Four rounds for each token, and up to four more, are enough for an expression. -/
theorem expressions (limit : Limit) (rounds n : Nat) :
    (4 * n + 4 ≤ rounds → Settles n 1 (expression limit rounds))
      ∧ (4 * n + 3 ≤ rounds → Settles n 1 (unary limit rounds))
      ∧ (4 * n + 2 ≤ rounds → Settles n 1 (call limit rounds)) := by
  induction rounds generalizing n with
  | zero => exact ⟨by omega, by omega, by omega⟩
  | succ rounds ih =>
    refine ⟨fun hrounds => ?_, fun hrounds => ?_, fun hrounds => ?_⟩
    · have hunary := (ih n).2.1 (by omega)
      refine (Settles.operation hunary (by omega) levels).bind_left fun target => ?_
      refine takeIf_bind (fun equals m hm => ?_) (.pure target)
      have hvalue := ((ih m).1 (by omega)).mono (Nat.le_refl m) (Nat.zero_le 1)
      exact hvalue.bind_right fun value => .assignTo target equals value
    · refine takeIf_bind (fun operator m hm => ?_) ((ih n).2.2 (by omega))
      have hright := ((ih m).2.1 (by omega)).mono (Nat.le_refl m) (Nat.zero_le 1)
      exact hright.bind_right fun right => .node _
    · have hexpression (m : Nat) (hm : m + 1 ≤ n) : Settles m 1 (expression limit rounds) :=
        (ih m).1 (by omega)
      refine (Settles.primary hexpression).bind_left fun left => ?_
      exact (Settles.accesses limit hexpression (by omega) left).mono (Nat.sub_le n 1)
        (Nat.le_refl 0)

/-! ### Statements -/

section

variable {limit : Limit} {rounds : Nat} {expression : Reading Expr} {statement : Reading Stmt}

/-- A token must be there, and what follows may take more. -/
theorem expect_bind {kind : Kind} {what : Expectation} {next : Token → Reading β}
    (hnext : ∀ t, Settles n 0 (next t)) : Settles n 1 (expect kind what >>= next) :=
  (Settles.expect kind what).bind_left fun t => (hnext t).mono (Nat.sub_le n 1) (Nat.le_refl 0)

theorem expect_skip {kind : Kind} {what : Expectation} {next : Token → Reading β}
    (hnext : ∀ t, Settles n 0 (next t)) : Settles n 0 (expect kind what >>= next) :=
  (expect_bind hnext).mono (Nat.le_refl n) (Nat.zero_le 1)

protected theorem block {declaration : Reading (Option Stmt)} (h : Advances n declaration)
    (hrounds : n < rounds) : Settles n 0 (block declaration rounds) :=
  (Settles.upTo _ h hrounds).bind_right fun _ => expect_skip fun _ => .pure _

protected theorem routine {block : Reading (List Stmt)} (h : Settles n 0 block)
    (hrounds : n < rounds) (kind : RoutineKind) : Settles n 1 (routine limit block rounds kind) := by
  refine expect_bind fun name => expect_skip fun _ => ?_
  refine (Settles.listedOrNone limit _ (.expect _ _) hrounds).bind_right fun params => ?_
  exact expect_skip fun _ => expect_skip fun _ => h.bind_right fun body => .pure _

protected theorem classDecl {method : Reading Routine} (h : Settles n 1 method)
    (hrounds : n < rounds) : Settles n 1 (classDecl method rounds) := by
  have hbody (name : Token) (superclass : Option Expr) :
      Settles n 0 (do
        let _ ← expect .leftBrace .classBodyStart
        let methods ← upTo (· = .rightBrace) method rounds
        let _ ← expect .rightBrace .classBodyEnd
        return Stmt.classDecl name superclass methods) :=
    expect_skip fun _ => (Settles.upTo _ h.advances hrounds).bind_right fun _ =>
      expect_skip fun _ => .pure _
  refine expect_bind fun name => accept_ite (fun m hm => ?_) (hbody name none)
  refine expect_skip fun ancestor => (Settles.node _).map.bind_right fun superclass => ?_
  exact (hbody name superclass).mono (by omega) (Nat.le_refl 0)

protected theorem varDecl (h : Settles n 1 expression) : Settles n 1 (varDecl expression) := by
  have hend (name : Token) (initializer : Option Expr) :
      Settles n 0 (do
        let _ ← expect .semicolon .variableEnd
        return Stmt.varDecl name initializer) := expect_skip fun _ => .pure _
  refine expect_bind fun name => accept_ite (fun m hm => ?_) (hend name none)
  have hvalue : Settles m 0 expression := h.mono (by omega) (Nat.zero_le 1)
  exact hvalue.map.bind_right fun initializer =>
    (hend name initializer).mono (by omega) (Nat.le_refl 0)

protected theorem expressionStatement (h : Settles n 1 expression) :
    Settles n 1 (expressionStatement expression) :=
  h.bind_left fun _ => expect_skip fun _ => .pure _

protected theorem condition (start : Expectation) (h : Settles n 1 expression) :
    Settles n 1 (condition start expression) :=
  expect_bind fun _ => (h.mono (Nat.le_refl n) (Nat.zero_le 1)).bind_right fun _ =>
    expect_skip fun _ => .pure _

protected theorem ifStatement (h : Settles n 1 expression) (hstatement : Settles n 1 statement) :
    Settles n 0 (ifStatement expression statement) := by
  have hbranch : Settles n 0 statement := hstatement.mono (Nat.le_refl n) (Nat.zero_le 1)
  refine ((Settles.condition _ h).mono (Nat.le_refl n) (Nat.zero_le 1)).bind_right fun _ => ?_
  refine hbranch.bind_right fun thenBranch => accept_ite (fun m hm => ?_) (.pure _)
  exact (hbranch.mono (by omega) (Nat.le_refl 0)).bind_right fun _ => .pure _

protected theorem whileStatement (h : Settles n 1 expression) (hstatement : Settles n 0 statement) :
    Settles n 0 (whileStatement expression statement) :=
  ((Settles.condition _ h).mono (Nat.le_refl n) (Nat.zero_le 1)).bind_right fun _ =>
    hstatement.bind_right fun _ => .pure _

protected theorem returnStatement (keyword : Token) (h : Settles n 0 expression) :
    Settles n 0 (returnStatement keyword expression) :=
  (Settles.unlessNext _ h).bind_right fun _ => expect_skip fun _ => .pure _

protected theorem forInitializer (h : Settles n 1 expression) :
    Settles n 0 (forInitializer expression) := by
  refine accept_ite (fun m hm => .pure none) (accept_ite (fun m hm => ?_) ?_)
  · have hshorter : Settles m 1 expression := h.mono (by omega) (Nat.le_refl 1)
    exact ((Settles.varDecl hshorter).mono (Nat.le_refl m) (Nat.zero_le 1)).map
  · exact ((Settles.expressionStatement h).mono (Nat.le_refl n) (Nat.zero_le 1)).map

protected theorem forStatement (h : Settles n 1 expression) (hstatement : Settles n 0 statement) :
    Settles n 0 (forStatement expression statement) := by
  have hclause : Settles n 0 expression := h.mono (Nat.le_refl n) (Nat.zero_le 1)
  refine expect_skip fun _ => (Settles.forInitializer h).bind_right fun initializer => ?_
  refine (Settles.unlessNext _ hclause).bind_right fun condition => expect_skip fun _ => ?_
  refine (Settles.unlessNext _ hclause).bind_right fun increment => expect_skip fun _ => ?_
  refine hstatement.bind_right fun body => ?_
  cases condition with
  | none => exact (Settles.node _).bind_right fun _ => .pure _
  | some e => exact (Settles.pure e).bind_right fun _ => .pure _

end

/-- Four rounds for each token, and up to six more, are enough for a statement or a declaration. -/
theorem statements (limit : Limit) (rounds n : Nat) :
    (4 * n + 6 ≤ rounds → Advances n (declaration limit rounds))
      ∧ (4 * n + 5 ≤ rounds → Settles n 1 (statement limit rounds)) := by
  induction rounds generalizing n with
  | zero => exact ⟨by omega, by omega⟩
  | succ rounds ih =>
    have hwithin {m : Nat} (hm : m + 1 ≤ n) (hrounds : 4 * n + 4 ≤ rounds) :
        Settles m 0 (block (declaration limit rounds) rounds) ∧ Settles m 1 (expression limit rounds)
          ∧ Settles m 0 (statement limit rounds) :=
      ⟨.block ((ih m).1 (by omega)) (by omega), (expressions limit rounds m).1 (by omega),
        ((ih m).2 (by omega)).mono (Nat.le_refl m) (Nat.zero_le 1)⟩
    refine ⟨fun hrounds => Settles.recovering ?_, fun hrounds => ?_⟩
    · refine accept_ite (fun m hm => ?_) (accept_ite (fun m hm => ?_) (accept_ite (fun m hm => ?_)
        ((ih n).2 (by omega))))
      · have hmethod : Settles m 1
            (routine limit (block (declaration limit rounds) rounds) rounds .method) :=
          .routine (hwithin hm (by omega)).1 (by omega) .method
        exact (Settles.classDecl hmethod (by omega)).mono (Nat.le_refl m) (Nat.zero_le 1)
      · exact ((Settles.routine (hwithin hm (by omega)).1 (by omega) .function).mono
          (Nat.le_refl m) (Nat.zero_le 1)).map
      · exact (Settles.varDecl (hwithin hm (by omega)).2.1).mono (Nat.le_refl m) (Nat.zero_le 1)
    · refine accept_ite (fun m hm => ?_) (accept_ite (fun m hm => ?_) (accept_ite (fun m hm => ?_)
        (takeIf_bind (fun keyword m hm => ?_) (accept_ite (fun m hm => ?_) ?_))))
      · obtain ⟨-, hexpression, hstatement⟩ := hwithin hm (by omega)
        exact .forStatement hexpression hstatement
      · exact .ifStatement (hwithin hm (by omega)).2.1 ((ih m).2 (by omega))
      · obtain ⟨-, hexpression, hstatement⟩ := hwithin hm (by omega)
        exact .whileStatement hexpression hstatement
      · have hexpression := (hwithin hm (by omega)).2.1
        exact .returnStatement keyword (hexpression.mono (Nat.le_refl m) (Nat.zero_le 1))
      · exact (hwithin hm (by omega)).1.map
      · exact .expressionStatement ((expressions limit rounds n).1 (by omega))

/-! ### Whole programs -/

protected theorem program (limit : Limit) {rounds : Nat} (hrounds : 4 * n + 6 ≤ rounds) :
    Settles n 0 (program limit rounds) :=
  (Settles.upTo _ ((statements limit rounds n).1 hrounds) (by omega)).bind_left fun _ => .pure _

protected theorem loneExpression (limit : Limit) {rounds : Nat} (hrounds : 4 * n + 6 ≤ rounds) :
    Settles n 0 (loneExpression limit rounds) := by
  have hexpression := ((expressions limit rounds n).1 (by omega)).mono (Nat.le_refl n)
    (Nat.zero_le 1)
  refine hexpression.bind_left fun e => ?_
  refine Settles.bind_left (fun s _ => of_ok rfl (Nat.le_refl _) : Settles n 0 peek?) fun t? => ?_
  cases t? with
  | none => exact .pure e
  | some t => exact (Settles.report t _).bind_left fun _ => .pure e

end Settles

end Parser

end Lox
