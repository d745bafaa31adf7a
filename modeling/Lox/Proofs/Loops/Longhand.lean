import Lox.Proofs.Parsing.Accepts

/-!
The tokens of a `for` and those of the `while` that it stands for. `Clauses.Shorthand` says that
tokens are `for (INIT COND; INCR) BODY` with these clauses, and `Clauses.Longhand` that they are
`{ INIT while (COND) { BODY INCR; } }`: `COND` is `true` if it is missing, the outer braces are there
if `INIT` is, and the inner ones if `INCR` is. Both are ways to write the same tree
(`Clauses.Written.longhand`). Tokens that begin with a `for` are one in no other way
(`Clauses.IsFor.unique`).
-/

namespace Lox

open Lox.Parser Lox.Grammar

/-- The tokens of the parts of a `for`: those of its first clause, with the semicolon that ends it,
those of its condition, of its increment and of its body. -/
@[ext] structure Clauses where
  initializer : Option (List Token)
  condition : Option (List Token)
  increment : Option (List Token)
  body : List Token

/-- No `else` follows. -/
def NoElse (rest : List Token) : Prop :=
  ∀ t ∈ rest.head?, t.kind ≠ .kwElse

theorem noElse_nil : NoElse [] :=
  fun t ht => absurd ht (Option.not_mem_none t)

theorem noElse_cons {t : Token} {k : Kind} (ht : t.kind = k) (hk : k ≠ .kwElse) (rest : List Token) :
    NoElse (t :: rest) :=
  Takes.head_ne_of_kind ht hk rest

theorem noElse_declarations {limit : Limit} {body : List Stmt} {ts rest : List Token}
    (h : (Part.declarations body).Written limit ts) (hrest : NoElse rest) : NoElse (ts ++ rest) := by
  rcases h.leads with rfl | hts
  · exact hrest
  · exact (hts.append rest).head_ne rfl

namespace Clauses

/-! ### Shorthand and longhand -/

/-- `for (INIT COND; INCR) BODY`, with a semicolon for an `INIT` that is missing. -/
inductive Shorthand (c : Clauses) : List Token → Prop where
  | mk {keyword left blank semicolon right : Token} :
    keyword.kind = .kwFor → left.kind = .leftParen → blank.kind = .semicolon →
      semicolon.kind = .semicolon → right.kind = .rightParen →
      Shorthand c (keyword :: left :: (c.initializer.getD [blank] ++ (c.condition.getD [] ++
        semicolon :: (c.increment.getD [] ++ right :: c.body))))

theorem Shorthand.exists_cons {c : Clauses} {short : List Token} (h : c.Shorthand short) :
    ∃ keyword us, short = keyword :: us ∧ keyword.kind = .kwFor := by
  obtain ⟨hkeyword, -⟩ := h
  exact ⟨_, _, rfl, hkeyword⟩

/-- `{ BODY INCR; }`, or `BODY`. -/
inductive Round (c : Clauses) : List Token → Prop where
  | plain : c.increment = none → Round c c.body
  | counting {left semicolon right : Token} {increment : List Token} :
    c.increment = some increment → left.kind = .leftBrace → semicolon.kind = .semicolon →
      right.kind = .rightBrace → Round c (left :: (c.body ++ (increment ++ [semicolon, right])))

/-- `COND`, or `true`. -/
inductive Guard (c : Clauses) : List Token → Prop where
  | always {t : Token} : c.condition = none → t.kind = .kwTrue → Guard c [t]
  | given {condition : List Token} : c.condition = some condition → Guard c condition

/-- `while (COND) { BODY INCR; }`. -/
inductive Loop (c : Clauses) : List Token → Prop where
  | mk {keyword left right : Token} {guard round : List Token} :
    keyword.kind = .kwWhile → left.kind = .leftParen → Guard c guard → right.kind = .rightParen →
      Round c round → Loop c (keyword :: left :: (guard ++ right :: round))

/-- `{ INIT while (COND) { BODY INCR; } }`, or the loop alone. -/
inductive Longhand (c : Clauses) : List Token → Prop where
  | bare {loop : List Token} : c.initializer = none → Loop c loop → Longhand c loop
  | starting {left right : Token} {initializer loop : List Token} :
    c.initializer = some initializer → left.kind = .leftBrace → Loop c loop →
      right.kind = .rightBrace → Longhand c (left :: (initializer ++ (loop ++ [right])))

/-! ### The trees of the clauses -/

/-- An expression that may be missing, and its tokens. -/
abbrev WrittenOption (limit : Limit) : Option Expr → Option (List Token) → Prop :=
  Option.Rel fun e ts => (Phrase.expression e).Written limit ts

/-- A first clause that may be missing, and its tokens. -/
abbrev WrittenFirst (limit : Limit) : Option Stmt → Option (List Token) → Prop :=
  Option.Rel fun s ts => Initializer limit (some s) ts

/-- The clauses are ways to write these trees, each one that is there; `isOpen` says that the body
takes an `else` that follows it. -/
structure Written (limit : Limit) (c : Clauses) (initializer : Option Stmt)
    (condition increment : Option Expr) (isOpen : Bool) (body : Stmt) : Prop where
  initializer : WrittenFirst limit initializer c.initializer
  condition : WrittenOption limit condition c.condition
  increment : WrittenOption limit increment c.increment
  body : (Part.statement isOpen body).Written limit c.body

/-- `short` is a `for` with these clauses, and in `after`, which follows it, there is no `else` for its
body. -/
structure IsFor (limit : Limit) (c : Clauses) (short after : List Token) : Prop where
  shorthand : c.Shorthand short
  written : ∃ s? condition? increment? o s, c.Written limit s? condition? increment? o s
    ∧ (o = true → NoElse after)

section

variable {limit : Limit} {e? e'? : Option Expr} {s? s'? : Option Stmt}
  {ts? ts'? : Option (List Token)} {ts : List Token}

theorem WrittenOption.optional (h : WrittenOption limit e? ts?) :
    Optional limit e? (ts?.getD []) := by
  cases h with
  | none => exact .none
  | some h => exact .some h

theorem exists_writtenOption (h : Optional limit e? ts) :
    ∃ ts?, WrittenOption limit e? ts? ∧ ts = ts?.getD [] := by
  cases h with
  | none => exact ⟨none, .none, rfl⟩
  | some h => exact ⟨some ts, .some h, rfl⟩

/-- An expression that is there has tokens. -/
theorem WrittenOption.eq_of_getD (h : WrittenOption limit e? ts?) (h' : WrittenOption limit e'? ts'?)
    (hts : ts?.getD [] = ts'?.getD []) : ts? = ts'? := by
  have hne {e : Expr} {us : List Token} (he : (Phrase.expression e).Written limit us) : us ≠ [] :=
    List.ne_nil_of_length_pos (begins_expression he).length_pos
  cases h with
  | none =>
    cases h' with
    | none => rfl
    | some h' => exact absurd hts.symm (hne h')
  | some h =>
    cases h' with
    | none => exact absurd hts (hne h)
    | some h' => exact congrArg some hts

theorem WrittenFirst.initializer (h : WrittenFirst limit s? ts?) {blank : Token}
    (hblank : blank.kind = .semicolon) : Initializer limit s? (ts?.getD [blank]) := by
  cases h with
  | none => exact .none hblank
  | some h => exact h

theorem exists_writtenFirst (h : Initializer limit s? ts) {semicolon : Token}
    (hsemicolon : semicolon.kind = .semicolon) :
    ∃ ts? blank, WrittenFirst limit s? ts? ∧ blank.kind = .semicolon ∧ ts = ts?.getD [blank] := by
  cases s? with
  | none =>
    cases h with
    | @none blank hblank => exact ⟨none, blank, .none, hblank, rfl⟩
  | some s => exact ⟨some ts, semicolon, .some h, hsemicolon, rfl⟩

theorem head_ne_of_initializer {s : Stmt} (h : Initializer limit (some s) ts) :
    ∀ t ∈ ts.head?, t.kind ≠ .semicolon := by
  cases h with
  | declaring hvar => exact Takes.head_ne_of_kind hvar (by decide) _
  | evaluating h => exact ((begins_expression h).append _).head_ne rfl

/-- A first clause that is there does not begin with a semicolon. -/
theorem WrittenFirst.eq_of_getD (h : WrittenFirst limit s? ts?) (h' : WrittenFirst limit s'? ts'?)
    {blank blank' : Token} (hblank : blank.kind = .semicolon) (hblank' : blank'.kind = .semicolon)
    (hts : ts?.getD [blank] = ts'?.getD [blank']) : ts? = ts'? := by
  cases h with
  | none =>
    cases h' with
    | none => rfl
    | some h' =>
      obtain rfl : [blank] = _ := hts
      exact absurd hblank (head_ne_of_initializer h' _ rfl)
  | some h =>
    cases h' with
    | none =>
      obtain rfl : _ = [blank'] := hts
      exact absurd hblank' (head_ne_of_initializer h _ rfl)
    | some h' => exact congrArg some hts

/-- What is made by the rule for a `for` has clauses. -/
theorem exists_shorthand {condition? increment? : Option Expr} {o : Bool} {s : Stmt}
    {keyword left semicolon right : Token} {ts us vs ws : List Token}
    (hkeyword : keyword.kind = .kwFor) (hleft : left.kind = .leftParen)
    (hinit : Initializer limit s? ts) (hcondition : Optional limit condition? us)
    (hsemicolon : semicolon.kind = .semicolon) (hincrement : Optional limit increment? vs)
    (hright : right.kind = .rightParen) (hbody : (Part.statement o s).Written limit ws) :
    ∃ c : Clauses, c.Written limit s? condition? increment? o s
      ∧ c.Shorthand (keyword :: left :: (ts ++ (us ++ semicolon :: (vs ++ right :: ws)))) := by
  obtain ⟨ts?, blank, hfirst, hblank, rfl⟩ := exists_writtenFirst hinit hsemicolon
  obtain ⟨us?, hguard, rfl⟩ := exists_writtenOption hcondition
  obtain ⟨vs?, hlast, rfl⟩ := exists_writtenOption hincrement
  exact ⟨⟨ts?, us?, vs?, ws⟩, ⟨hfirst, hguard, hlast, hbody⟩,
    .mk hkeyword hleft hblank hsemicolon hright⟩

end

section

variable {limit : Limit} {c : Clauses} {s? : Option Stmt} {condition? increment? : Option Expr}
  {o : Bool} {s : Stmt} {ts : List Token}

/-! ### The longhand has the same tree -/

theorem Written.guard (h : c.Written limit s? condition? increment? o s) (hguard : c.Guard ts)
    (id : Nat) :
    (Phrase.expression (condition?.getD (.literal id (.boolean true)))).Written limit ts := by
  obtain ⟨-, hcondition, -, -⟩ := h
  cases hguard with
  | always hnone ht =>
    rw [hnone] at hcondition
    cases hcondition
    have htrue : literal? .kwTrue = some (.boolean true) := rfl
    exact .loosest (.operation_of_call (.literal id (ht ▸ htrue)) (Nat.zero_le _))
  | given hsome =>
    rw [hsome] at hcondition
    cases hcondition with
    | some he => exact he

theorem Written.loop (h : c.Written limit s? condition? increment? o s) (hloop : c.Loop ts)
    (id : Nat) :
    ∃ o', (o' = true → o = true)
      ∧ (Part.statement o' (forLoop none (condition?.getD (.literal id (.boolean true))) increment?
        s)).Written limit ts := by
  obtain ⟨hkeyword, hleft, hguard, hright, hround⟩ := hloop
  have hguard := h.guard hguard id
  obtain ⟨-, -, hincrement, hbody⟩ := h
  cases hround with
  | plain hnone =>
    rw [hnone] at hincrement
    cases hincrement
    exact ⟨o, fun ho => ho, .whileLoop hkeyword hleft hguard hright hbody⟩
  | @counting opening semicolon closing increment hsome hopening hsemicolon hclosing =>
    rw [hsome] at hincrement
    cases hincrement with
    | @some e _ he =>
      have hround : (Part.declarations [s, .expression e]).Written limit
          (c.body ++ ((increment ++ [semicolon]) ++ [])) :=
        .declarations (.statement hbody)
          (.declarations (.statement (.expression he hsemicolon)) .noDeclarations)
      have hblock : (Part.statement false (.block [s, .expression e])).Written limit
          (opening :: (c.body ++ (increment ++ [semicolon, closing]))) := by
        simpa using Part.Written.block hopening hround hclosing
      exact ⟨false, nofun, .whileLoop hkeyword hleft hguard hright hblock⟩

/-- What is written as a `for` with these clauses is also written as its longhand, which takes no
`else` if the `for` takes none. -/
theorem Written.longhand (h : c.Written limit s? condition? increment? o s) (hlong : c.Longhand ts)
    (id : Nat) :
    ∃ o', (o' = true → o = true)
      ∧ (Part.statement o' (forLoop s? (condition?.getD (.literal id (.boolean true))) increment?
        s)).Written limit ts := by
  cases hlong with
  | bare hnone hloop =>
    have hinit := h.initializer
    rw [hnone] at hinit
    cases hinit
    exact h.loop hloop id
  | @starting opening closing initializer loop hsome hopening hloop hclosing =>
    obtain ⟨o', -, hwhile⟩ := h.loop hloop id
    have hinit := h.initializer
    rw [hsome] at hinit
    cases hinit with
    | @some first _ hfirst =>
      have hdeclared : (Part.declaration first).Written limit initializer := by
        cases hfirst with
        | declaring hvar hvariable => exact .varDecl hvar hvariable
        | evaluating he hsemicolon => exact .statement (.expression he hsemicolon)
      have hbody : (Part.declarations [first, forLoop none
          (condition?.getD (.literal id (.boolean true))) increment? s]).Written limit
          (initializer ++ (loop ++ [])) :=
        .declarations hdeclared (.declarations (.statement hwhile) .noDeclarations)
      have hblock := Part.Written.block hopening hbody hclosing
      rw [List.append_nil, List.append_assoc] at hblock
      exact ⟨false, nofun, hblock⟩

/-! ### No other clauses -/

/-- What a reading that is given enough rounds takes is one list of tokens. -/
theorem takes_unique {α : Type} {p : Nat → Reading α} {ts ts' rest rest' : List Token}
    {post post' : α → Prop}
    (h : ∀ rounds, 4 * ts.length + 3 ≤ rounds → Takes (p rounds) ts rest post)
    (h' : ∀ rounds, 4 * ts'.length + 3 ≤ rounds → Takes (p rounds) ts' rest' post')
    (hts : ts ++ rest = ts' ++ rest') : ts = ts' ∧ rest = rest' :=
  (h (4 * (ts.length + ts'.length) + 3) (by omega)).unique (h' _ (by omega)) hts

section

variable {ts' rest rest' : List Token}

theorem initializer_unique {s'? : Option Stmt} (h : Initializer limit s? ts)
    (h' : Initializer limit s'? ts') (hts : ts ++ rest = ts' ++ rest') : ts = ts' ∧ rest = rest' := by
  have htakes {s? : Option Stmt} {ts rest : List Token} (h : Initializer limit s? ts) (rounds : Nat)
      (hrounds : 4 * ts.length + 3 ≤ rounds) : Takes (forInitializer (expression limit rounds)) ts rest
        fun s'? => s'?.map (Stmt.relabel (.numbers fun _ => 0))
          = s?.map (Stmt.relabel (.numbers fun _ => 0)) :=
    Takes.forInitializer h (Nat.le_of_add_right_le hrounds)
  exact takes_unique (htakes h) (htakes h') hts

theorem optional_unique {e? e'? : Option Expr} {k : Kind} (hk : k = .semicolon ∨ k = .rightParen)
    (h : Optional limit e? ts) (h' : Optional limit e'? ts') (hrest : Next k rest)
    (hrest' : Next k rest') (hts : ts ++ rest = ts' ++ rest') : ts = ts' ∧ rest = rest' :=
  takes_unique (fun _ hrounds => Takes.option h hrounds hk hrest)
    (fun _ hrounds => Takes.option h' hrounds hk hrest') hts

theorem statement_unique {o' : Bool} {s' : Stmt} (h : (Part.statement o s).Written limit ts)
    (h' : (Part.statement o' s').Written limit ts')
    (ho : o = true → NoElse rest) (ho' : o' = true → NoElse rest') (hts : ts ++ rest = ts' ++ rest') :
    ts = ts' ∧ rest = rest' := by
  have hread : PartReads limit (.statement o s) ts := Takes.parts h
  have hread' : PartReads limit (.statement o' s') ts' := Takes.parts h'
  exact takes_unique (fun _ hrounds => hread (Nat.le_of_add_right_le hrounds) ho)
    (fun _ hrounds => hread' (Nat.le_of_add_right_le hrounds) ho') hts

end

/-- Tokens that begin with a `for` have no other clauses. -/
theorem IsFor.unique {c c' : Clauses} {short short' after after' : List Token}
    (h : c.IsFor limit short after) (h' : c'.IsFor limit short' after')
    (htokens : short ++ after = short' ++ after') : c = c' ∧ after = after' := by
  obtain ⟨⟨-, -, hblank, hsemicolon, hright⟩, s?, condition?, increment?, o, s, hc, helse⟩ := h
  obtain ⟨⟨-, -, hblank', hsemicolon', hright'⟩, s'?, condition'?, increment'?, o', s', hc', helse'⟩ :=
    h'
  simp only [List.cons_append, List.append_assoc, List.cons.injEq] at htokens
  -- one part after another, each of which ends where the reading of it ends
  obtain ⟨-, -, htokens⟩ := htokens
  obtain ⟨hfirst, htokens⟩ := initializer_unique (hc.initializer.initializer hblank)
    (hc'.initializer.initializer hblank') htokens
  obtain ⟨hguard, htokens⟩ := optional_unique (.inl rfl) hc.condition.optional
    hc'.condition.optional (next_cons hsemicolon _) (next_cons hsemicolon' _) htokens
  obtain ⟨hlast, htokens⟩ := optional_unique (.inr rfl) hc.increment.optional
    hc'.increment.optional (next_cons hright _) (next_cons hright' _) (List.cons.inj htokens).2
  obtain ⟨hbody, hafter⟩ := statement_unique hc.body hc'.body helse helse' (List.cons.inj htokens).2
  exact ⟨Clauses.ext (hc.initializer.eq_of_getD hc'.initializer hblank hblank' hfirst)
    (hc.condition.eq_of_getD hc'.condition hguard) (hc.increment.eq_of_getD hc'.increment hlast)
    hbody, hafter⟩

end

end Clauses

end Lox
