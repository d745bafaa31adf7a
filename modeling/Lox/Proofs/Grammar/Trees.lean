import Lox.Proofs.Grammar.Derived

/-!
From derivations to trees. The grammar says nothing about which choice an `else` belongs to; where it
leaves this open, the tree is the one that gives it to the nearest choice that can take it. With the
other direction, what the grammar derives is what trees are written as: programs
(`derives_program_iff`) and expressions (`derives_expression_iff`).
-/

namespace Lox

namespace Grammar

open Lox.Parser

variable {limit : Limit} {ts us : List Token} {parts : List (List Token)}

/-! ### Expressions -/

/-- The tokens are an operator of the level and its right operand. -/
def Joint (limit : Limit) (i : Nat) (level : Level) (ts : List Token) : Prop :=
  ∃ operator e us, operator.kind ∈ level.operators ∧ (Phrase.operation (i + 1) e).Written limit us
    ∧ ts = operator :: us

theorem written_joined {i : Nat} {level : Level} (hlevel : levels[i]? = some level) {left : Expr}
    (hleft : (Phrase.operation i left).Written limit ts)
    (hparts : ∀ us ∈ parts, Joint limit i level us) :
    ∃ e, (Phrase.operation i e).Written limit (ts ++ parts.flatten) := by
  induction parts generalizing left ts with
  | nil => exact ⟨left, by simpa using hleft⟩
  | cons part parts ih =>
    rw [List.forall_mem_cons] at hparts
    obtain ⟨⟨operator, e, us, hoperator, hright, rfl⟩, hparts⟩ := hparts
    rw [List.flatten_cons, ← List.append_assoc]
    exact ih (.joined 0 hlevel hleft hoperator hright) hparts

/-- The tokens are what makes a call or a property of what stands before them. -/
def Access (limit : Limit) (ts : List Token) : Prop :=
  (∃ left es us paren, left.kind = .leftParen ∧ (Phrase.arguments es).Written limit us
      ∧ paren.kind = .rightParen ∧ ts = left :: (us ++ [paren]))
    ∨ ∃ dot name, dot.kind = .dot ∧ name.kind = .identifier ∧ ts = [dot, name]

theorem written_accesses {left : Expr} (hleft : (Phrase.call left).Written limit ts)
    (hparts : ∀ us ∈ parts, Access limit us) :
    ∃ e, (Phrase.call e).Written limit (ts ++ parts.flatten) := by
  induction parts generalizing left ts with
  | nil => exact ⟨left, by simpa using hleft⟩
  | cons part parts ih =>
    rw [List.forall_mem_cons] at hparts
    obtain ⟨haccess, hparts⟩ := hparts
    rw [List.flatten_cons, ← List.append_assoc]
    rcases haccess with ⟨open', es, us, paren, hopen, hargs, hparen, rfl⟩ |
      ⟨dot, name, hdot, hname, rfl⟩
    · exact ih (.call 0 hleft hopen hargs hparen) hparts
    · exact ih (.get 0 hleft hdot hname) hparts

theorem written_entries (h : Separated parts ts)
    (hparts : ∀ us ∈ parts, ∃ e, (Phrase.expression e).Written limit us) :
    ∃ es, es.length = parts.length ∧ (Phrase.entries es).Written limit ts := by
  induction h with
  | one ts =>
    obtain ⟨e, he⟩ := hparts ts (List.mem_singleton.2 rfl)
    exact ⟨[e], rfl, .entry he⟩
  | more hcomma _ ih =>
    rw [List.forall_mem_cons] at hparts
    obtain ⟨⟨e, he⟩, hparts⟩ := hparts
    obtain ⟨es, hlength, hes⟩ := ih hparts
    exact ⟨e :: es, by simp [hlength], .entries he hcomma hes⟩

/-! ### The nearest choice -/

/-- What an open statement is together with an `else` and the statement after it. -/
def Part.Absorbs (limit : Limit) (us : List Token) : Part → List Token → Prop
  | .statement true _, ts => ∃ o s, (Part.statement o s).Written limit (ts ++ us)
  | _, _ => True

/-- An open statement takes an `else` that follows it. -/
theorem Part.Written.absorbs {part : Part} (h : part.Written limit ts) {other : Token} {o : Bool}
    {s : Stmt} (hother : other.kind = .kwElse) (hs : (Part.statement o s).Written limit us) :
    part.Absorbs limit (other :: us) ts := by
  induction h with
  | @ifThen o' _ _ _ _ _ _ _ hkeyword hleft hcondition hright h ih =>
    show ∃ o s, (Part.statement o s).Written limit _
    simp only [List.cons_append, List.append_assoc]
    cases o' with
    | false => exact ⟨_, _, .ifElse hkeyword hleft hcondition hright h hother hs⟩
    | true =>
      obtain ⟨o'', s'', h⟩ := ih
      exact ⟨_, _, .ifThen hkeyword hleft hcondition hright h⟩
  | @ifElse o' _ _ _ _ _ _ _ _ _ _ hkeyword hleft hcondition hright h₁ hother' _ _ ih =>
    cases o' with
    | false => trivial
    | true =>
      obtain ⟨o'', s'', h⟩ := ih
      have h := ifElse hkeyword hleft hcondition hright h₁ hother' h
      exact ⟨o'', _, by simpa using h⟩
  | @whileLoop o' _ _ _ _ _ _ _ hkeyword hleft hcondition hright _ ih =>
    cases o' with
    | false => trivial
    | true =>
      obtain ⟨o'', s'', h⟩ := ih
      have h := whileLoop hkeyword hleft hcondition hright h
      exact ⟨o'', _, by simpa using h⟩
  | @forLoop id o' _ _ _ _ _ _ _ _ _ _ _ _ hkeyword hleft hinit hcondition hsemicolon hincrement
      hright _ ih =>
    cases o' with
    | false => trivial
    | true =>
      obtain ⟨o'', s'', h⟩ := ih
      have h := forLoop id hkeyword hleft hinit hcondition hsemicolon hincrement hright h
      exact ⟨o'', _, by simpa using h⟩
  | _ => trivial

/-- A statement with an `else` and another one behind it, after the condition of a choice. -/
theorem written_else {o o' : Bool} {s s' : Stmt} {condition : Expr}
    {keyword left right other : Token} {vs : List Token}
    (hkeyword : keyword.kind = .kwIf) (hleft : left.kind = .leftParen)
    (hcondition : (Phrase.expression condition).Written limit vs)
    (hright : right.kind = .rightParen) (hs : (Part.statement o s).Written limit ts)
    (hother : other.kind = .kwElse) (hs' : (Part.statement o' s').Written limit us) :
    ∃ o s, (Part.statement o s).Written limit
      (keyword :: left :: (vs ++ right :: (ts ++ other :: us))) := by
  cases o with
  | false => exact ⟨_, _, .ifElse hkeyword hleft hcondition hright hs hother hs'⟩
  | true =>
    obtain ⟨o'', s'', h⟩ := hs.absorbs hother hs'
    exact ⟨_, _, .ifThen hkeyword hleft hcondition hright h⟩

/-! ### From derivations to trees -/

/-- What a nonterminal derives is written as this. -/
def Nonterminal.Tree (limit : Limit) : Nonterminal → List Token → Prop
  | .program, ts =>
    ∃ body us stop, (Part.declarations body).Written limit us ∧ stop.kind = .eof ∧ ts = us ++ [stop]
  | .declaration, ts | .classDecl, ts | .funDecl, ts => ∃ s, (Part.declaration s).Written limit ts
  | .function, ts => ∃ r, (Part.routine r).Written limit ts
  | .varDecl, ts => ∃ var s us, var.kind = .kwVar ∧ Variable limit s us ∧ ts = var :: us
  | .statement, ts | .forStmt, ts | .ifStmt, ts | .returnStmt, ts | .whileStmt, ts =>
    ∃ o s, (Part.statement o s).Written limit ts
  | .exprStmt, ts =>
    ∃ e us semicolon, (Phrase.expression e).Written limit us ∧ semicolon.kind = .semicolon
      ∧ ts = us ++ [semicolon]
  | .block, ts =>
    ∃ left body us right, left.kind = .leftBrace ∧ (Part.declarations body).Written limit us
      ∧ right.kind = .rightBrace ∧ ts = left :: (us ++ [right])
  | .parameters, ts => ∃ params, Parameters limit params ts
  | .arguments, ts => ∃ es, (Phrase.arguments es).Written limit ts
  | .expression, ts | .assignment, ts => ∃ e, (Phrase.expression e).Written limit ts
  | .logicOr, ts => ∃ e, (Phrase.operation 0 e).Written limit ts
  | .logicAnd, ts => ∃ e, (Phrase.operation 1 e).Written limit ts
  | .equality, ts => ∃ e, (Phrase.operation 2 e).Written limit ts
  | .comparison, ts => ∃ e, (Phrase.operation 3 e).Written limit ts
  | .term, ts => ∃ e, (Phrase.operation 4 e).Written limit ts
  | .factor, ts => ∃ e, (Phrase.operation 5 e).Written limit ts
  | .unary, ts => ∃ e, (Phrase.operation 6 e).Written limit ts
  | .call, ts | .primary, ts => ∃ e, (Phrase.call e).Written limit ts

section

variable (limit)

theorem tree_operationRule {i : Nat} (hi : i ≤ levels.length) :
    (operationRule i).Tree limit ts ↔ ∃ e, (Phrase.operation i e).Written limit ts := by
  obtain rfl | rfl | rfl | rfl | rfl | rfl | rfl :
      i = 0 ∨ i = 1 ∨ i = 2 ∨ i = 3 ∨ i = 4 ∨ i = 5 ∨ i = 6 := by
    simp only [levels, List.length_cons, List.length_nil] at hi
    omega
  all_goals exact Iff.rfl

/-- The nonterminals stand for trees. -/
abbrev IsTree (n : Nonterminal) (ts : List Token) : Prop :=
  (production n).Holds limit (Nonterminal.Tree limit) ts → n.Tree limit ts

theorem isTree_operationRule {i : Nat} (hi : i < levels.length) (ts : List Token) :
    IsTree limit (operationRule i) ts := by
  intro h
  obtain ⟨level, hlevel⟩ : ∃ level, levels[i]? = some level := ⟨_, List.getElem?_eq_getElem hi⟩
  obtain ⟨operator, hrule, hiff⟩ := production_operationRule hlevel
  rw [hrule] at h
  obtain ⟨us, vs, hleft, ⟨parts, hparts, rfl⟩, rfl⟩ := h
  obtain ⟨left, hleft⟩ := (tree_operationRule limit hi).1 hleft
  refine (tree_operationRule limit (Nat.le_of_lt hi)).2
    (written_joined hlevel (.tighter hi hleft) fun part hpart => ?_)
  obtain ⟨ws, xs, hoperator, hright, rfl⟩ := hparts part hpart
  obtain ⟨t, ht, rfl⟩ := (hiff _ _ _).1 hoperator
  obtain ⟨right, hright⟩ := (tree_operationRule limit hi).1 hright
  exact ⟨t, right, xs, ht, hright, rfl⟩

theorem isTree_unary (ts : List Token) : IsTree limit .unary ts := by
  rintro (⟨us, vs, hsign, ⟨e, he⟩, rfl⟩ | ⟨e, he⟩)
  · obtain ⟨t, ht, rfl⟩ : ∃ t, IsSign t.kind ∧ us = [t] := by
      simpa [Form.Holds, IsSign, or_and_right, exists_or] using hsign
    exact ⟨_, .unary 0 ht he⟩
  · exact ⟨e, .tightest he⟩

theorem isTree_primary (ts : List Token) : IsTree limit .primary ts := by
  rintro (⟨t, value, hk, rfl⟩ | ⟨t, contents, hk, rfl⟩ | ⟨t, hk, rfl⟩ | ⟨t, hk, rfl⟩ |
    ⟨t, hk, rfl⟩ | ⟨t, hk, rfl⟩ | ⟨t, hk, rfl⟩ | hgroup | hsuper)
  · exact ⟨_, .literal 0 (congrArg literal? hk)⟩
  · exact ⟨_, .literal 0 (congrArg literal? hk)⟩
  · exact ⟨_, .literal 0 (congrArg literal? hk)⟩
  · exact ⟨_, .literal 0 (congrArg literal? hk)⟩
  · exact ⟨_, .literal 0 (congrArg literal? hk)⟩
  · exact ⟨_, .this 0 hk⟩
  · exact ⟨_, .var 0 hk⟩
  · obtain ⟨_, _, ⟨left, hleft, rfl⟩, ⟨us, _, ⟨e, he⟩, ⟨right, hright, rfl⟩, rfl⟩, rfl⟩ := hgroup
    exact ⟨_, .grouping 0 hleft he hright⟩
  · obtain ⟨_, _, ⟨keyword, hkeyword, rfl⟩, ⟨_, _, ⟨dot, hdot, rfl⟩, ⟨name, hname, rfl⟩, rfl⟩,
      rfl⟩ := hsuper
    exact ⟨_, .super 0 hkeyword hdot hname⟩

theorem isTree_call (ts : List Token) : IsTree limit .call ts := by
  rintro ⟨us, vs, ⟨e, he⟩, ⟨parts, hparts, rfl⟩, rfl⟩
  refine written_accesses he fun part hpart => ?_
  rcases hparts part hpart with
    ⟨_, _, ⟨left, hleft, rfl⟩, ⟨ws, _, hargs, ⟨paren, hparen, rfl⟩, rfl⟩, rfl⟩ |
    ⟨_, _, ⟨dot, hdot, rfl⟩, ⟨name, hname, rfl⟩, rfl⟩
  · obtain ⟨es, hes⟩ : ∃ es, (Phrase.arguments es).Written limit ws := by
      rcases hargs with hargs | rfl
      · exact hargs
      · exact ⟨[], .noArguments⟩
    exact .inl ⟨left, es, ws, paren, hleft, hes, hparen, rfl⟩
  · exact .inr ⟨dot, name, hdot, hname, rfl⟩

theorem isTree_assignment (ts : List Token) : IsTree limit .assignment ts := by
  rintro (⟨us, _, htarget, ⟨_, _, ⟨name, hname, rfl⟩, ⟨_, vs, ⟨equals, hequals, rfl⟩, ⟨value, hvalue⟩,
    rfl⟩, rfl⟩, rfl⟩ | ⟨e, he⟩)
  · rcases htarget with ⟨ws, _, ⟨object, hobject⟩, ⟨dot, hdot, rfl⟩, rfl⟩ | rfl
    · rw [List.append_assoc]
      exact ⟨_, .set 0 hobject hdot hname hequals hvalue⟩
    · exact ⟨_, .assign 0 hname hequals hvalue⟩
  · exact ⟨e, .loosest he⟩

theorem isTree_arguments (ts : List Token) : IsTree limit .arguments ts := by
  rintro ⟨parts, hparts, hseparated, hcount⟩
  obtain ⟨es, hlength, hes⟩ := written_entries hseparated hparts
  exact ⟨es, .arguments hes (hlength ▸ hcount)⟩

/-- Parts that are one name each are the names of a list. -/
theorem exists_names {parts : List (List Token)}
    (h : ∀ part ∈ parts, ∃ p : Token, p.kind = .identifier ∧ part = [p]) :
    ∃ params : List Token, (∀ p ∈ params, p.kind = .identifier)
      ∧ parts = params.map fun p => [p] := by
  induction parts with
  | nil => exact ⟨[], by simp, rfl⟩
  | cons part parts ih =>
    rw [List.forall_mem_cons] at h
    obtain ⟨⟨p, hp, rfl⟩, h⟩ := h
    obtain ⟨params, hnames, rfl⟩ := ih h
    exact ⟨p :: params, List.forall_mem_cons.2 ⟨hp, hnames⟩, rfl⟩

theorem isTree_parameters (ts : List Token) : IsTree limit .parameters ts := by
  rintro ⟨parts, hparts, hseparated, hcount⟩
  obtain ⟨params, hnames, rfl⟩ := exists_names hparts
  rw [List.length_map] at hcount
  exact ⟨params, .some hnames hseparated hcount⟩

variable {limit}

theorem exists_optional
    (h : (Form.opt (.rule .expression)).Holds limit (Nonterminal.Tree limit) ts) :
    ∃ e?, Optional limit e? ts := by
  rcases h with ⟨e, he⟩ | rfl
  · exact ⟨some e, .some he⟩
  · exact ⟨none, .none⟩

theorem exists_declarations
    (h : (Form.star (.rule .declaration)).Holds limit (Nonterminal.Tree limit) ts) :
    ∃ body, (Part.declarations body).Written limit ts := by
  obtain ⟨parts, hparts, rfl⟩ := h
  induction parts with
  | nil => exact ⟨[], .noDeclarations⟩
  | cons part parts ih =>
    rw [List.forall_mem_cons] at hparts
    obtain ⟨⟨s, hs⟩, hparts⟩ := hparts
    obtain ⟨body, hbody⟩ := ih hparts
    exact ⟨s :: body, .declarations hs hbody⟩

theorem exists_routines
    (h : (Form.star (.rule .function)).Holds limit (Nonterminal.Tree limit) ts) :
    ∃ rs, (Part.routines rs).Written limit ts := by
  obtain ⟨parts, hparts, rfl⟩ := h
  induction parts with
  | nil => exact ⟨[], .noRoutines⟩
  | cons part parts ih =>
    rw [List.forall_mem_cons] at hparts
    obtain ⟨⟨r, hr⟩, hparts⟩ := hparts
    obtain ⟨rs, hrs⟩ := ih hparts
    exact ⟨r :: rs, .routines hr hrs⟩

variable (limit)

theorem isTree_classDecl (ts : List Token) : IsTree limit .classDecl ts := by
  rintro ⟨_, _, ⟨keyword, hkeyword, rfl⟩, ⟨_, _, ⟨name, hname, rfl⟩, ⟨us, _, hancestor,
    ⟨_, _, ⟨left, hleft, rfl⟩, ⟨vs, _, hbody, ⟨right, hright, rfl⟩, rfl⟩, rfl⟩, rfl⟩, rfl⟩, rfl⟩
  obtain ⟨rs, hrs⟩ := exists_routines hbody
  obtain ⟨superclass, hancestor⟩ : ∃ superclass, Ancestor superclass us := by
    rcases hancestor with ⟨_, _, ⟨colon, hcolon, rfl⟩, ⟨ancestor, hancestor, rfl⟩, rfl⟩ | rfl
    · exact ⟨_, .some 0 hcolon hancestor⟩
    · exact ⟨none, .none⟩
  exact ⟨_, .classDecl hkeyword hname hancestor hleft hrs hright⟩

theorem isTree_funDecl (ts : List Token) : IsTree limit .funDecl ts := by
  rintro ⟨_, us, ⟨keyword, hkeyword, rfl⟩, ⟨r, hr⟩, rfl⟩
  exact ⟨_, .funDecl hkeyword hr⟩

theorem isTree_function (ts : List Token) : IsTree limit .function ts := by
  rintro ⟨_, _, ⟨name, hname, rfl⟩, ⟨_, _, ⟨left, hleft, rfl⟩, ⟨us, _, hparams,
    ⟨_, _, ⟨right, hright, rfl⟩, ⟨opening, body, vs, closing, hopening, hbody, hclosing, rfl⟩, rfl⟩,
    rfl⟩, rfl⟩, rfl⟩
  obtain ⟨params, hparams⟩ : ∃ params, Parameters limit params us := by
    rcases hparams with hparams | rfl
    · exact hparams
    · exact ⟨[], .none⟩
  exact ⟨_, .routine hname hleft hparams hright hopening hbody hclosing⟩

theorem isTree_varDecl (ts : List Token) : IsTree limit .varDecl ts := by
  rintro ⟨_, _, ⟨var, hvar, rfl⟩, ⟨_, _, ⟨name, hname, rfl⟩, ⟨us, _, hvalue,
    ⟨semicolon, hsemicolon, rfl⟩, rfl⟩, rfl⟩, rfl⟩
  rcases hvalue with ⟨_, vs, ⟨equals, hequals, rfl⟩, ⟨e, he⟩, rfl⟩ | rfl
  · exact ⟨var, _, _, hvar, .initialized hname hequals he hsemicolon, rfl⟩
  · exact ⟨var, _, _, hvar, .plain hname hsemicolon, rfl⟩

theorem isTree_declaration (ts : List Token) : IsTree limit .declaration ts := by
  rintro (h | h | ⟨var, s, us, hvar, hs, rfl⟩ | ⟨o, s, hs⟩)
  · exact h
  · exact h
  · exact ⟨s, .varDecl hvar hs⟩
  · exact ⟨s, .statement hs⟩

theorem isTree_exprStmt (ts : List Token) : IsTree limit .exprStmt ts := by
  rintro ⟨us, _, ⟨e, he⟩, ⟨semicolon, hsemicolon, rfl⟩, rfl⟩
  exact ⟨e, us, semicolon, he, hsemicolon, rfl⟩

theorem isTree_block (ts : List Token) : IsTree limit .block ts := by
  rintro ⟨_, _, ⟨left, hleft, rfl⟩, ⟨us, _, hbody, ⟨right, hright, rfl⟩, rfl⟩, rfl⟩
  obtain ⟨body, hbody⟩ := exists_declarations hbody
  exact ⟨left, body, us, right, hleft, hbody, hright, rfl⟩

theorem isTree_forStmt (ts : List Token) : IsTree limit .forStmt ts := by
  rintro ⟨_, _, ⟨keyword, hkeyword, rfl⟩, ⟨_, _, ⟨left, hleft, rfl⟩, ⟨us, _, hinit,
    ⟨vs, _, hcondition, ⟨_, _, ⟨semicolon, hsemicolon, rfl⟩, ⟨ws, _, hincrement,
      ⟨_, xs, ⟨right, hright, rfl⟩, ⟨o, s, hs⟩, rfl⟩, rfl⟩, rfl⟩, rfl⟩, rfl⟩, rfl⟩, rfl⟩
  obtain ⟨s?, hinit⟩ : ∃ s?, Initializer limit s? us := by
    rcases hinit with ⟨var, s, us, hvar, hs, rfl⟩ | ⟨e, us, semicolon, he, hsemicolon, rfl⟩ |
      ⟨semicolon, hsemicolon, rfl⟩
    · exact ⟨_, .declaring hvar hs⟩
    · exact ⟨_, .evaluating he hsemicolon⟩
    · exact ⟨_, .none hsemicolon⟩
  obtain ⟨condition?, hcondition⟩ := exists_optional hcondition
  obtain ⟨increment?, hincrement⟩ := exists_optional hincrement
  exact ⟨o, _, .forLoop 0 hkeyword hleft hinit hcondition hsemicolon hincrement hright hs⟩

theorem isTree_ifStmt (ts : List Token) : IsTree limit .ifStmt ts := by
  rintro ⟨_, _, ⟨keyword, hkeyword, rfl⟩, ⟨_, _, ⟨left, hleft, rfl⟩, ⟨us, _, ⟨condition, hcondition⟩,
    ⟨_, _, ⟨right, hright, rfl⟩, ⟨vs, _, ⟨o, s, hs⟩, helse, rfl⟩, rfl⟩, rfl⟩, rfl⟩, rfl⟩
  rcases helse with ⟨_, ws, ⟨other, hother, rfl⟩, ⟨o', s', hs'⟩, rfl⟩ | rfl
  · exact written_else hkeyword hleft hcondition hright hs hother hs'
  · rw [List.append_nil]
    exact ⟨_, _, .ifThen hkeyword hleft hcondition hright hs⟩

theorem isTree_returnStmt (ts : List Token) : IsTree limit .returnStmt ts := by
  rintro ⟨_, _, ⟨keyword, hkeyword, rfl⟩, ⟨us, _, hvalue, ⟨semicolon, hsemicolon, rfl⟩, rfl⟩, rfl⟩
  obtain ⟨value?, hvalue⟩ := exists_optional hvalue
  exact ⟨_, _, .returnValue hkeyword hvalue hsemicolon⟩

theorem isTree_whileStmt (ts : List Token) : IsTree limit .whileStmt ts := by
  rintro ⟨_, _, ⟨keyword, hkeyword, rfl⟩, ⟨_, _, ⟨left, hleft, rfl⟩, ⟨us, _, ⟨condition, hcondition⟩,
    ⟨_, vs, ⟨right, hright, rfl⟩, ⟨o, s, hs⟩, rfl⟩, rfl⟩, rfl⟩, rfl⟩
  exact ⟨o, _, .whileLoop hkeyword hleft hcondition hright hs⟩

theorem isTree_statement (ts : List Token) : IsTree limit .statement ts := by
  rintro (⟨e, us, semicolon, he, hsemicolon, rfl⟩ | h | h | h | h |
    ⟨left, body, us, right, hleft, hbody, hright, rfl⟩)
  · exact ⟨_, _, .expression he hsemicolon⟩
  · exact h
  · exact h
  · exact h
  · exact h
  · exact ⟨_, _, .block hleft hbody hright⟩

theorem isTree_program (ts : List Token) : IsTree limit .program ts := by
  rintro ⟨us, _, hbody, ⟨stop, hstop, rfl⟩, rfl⟩
  obtain ⟨body, hbody⟩ := exists_declarations hbody
  exact ⟨body, us, stop, hbody, hstop, rfl⟩

theorem isTree (n : Nonterminal) (ts : List Token) : IsTree limit n ts := by
  have hoperations {i : Nat} (hi : i < levels.length) := isTree_operationRule limit hi ts
  cases n with
  | program => exact isTree_program limit ts
  | declaration => exact isTree_declaration limit ts
  | classDecl => exact isTree_classDecl limit ts
  | funDecl => exact isTree_funDecl limit ts
  | function => exact isTree_function limit ts
  | varDecl => exact isTree_varDecl limit ts
  | statement => exact isTree_statement limit ts
  | exprStmt => exact isTree_exprStmt limit ts
  | forStmt => exact isTree_forStmt limit ts
  | ifStmt => exact isTree_ifStmt limit ts
  | returnStmt => exact isTree_returnStmt limit ts
  | whileStmt => exact isTree_whileStmt limit ts
  | block => exact isTree_block limit ts
  | parameters => exact isTree_parameters limit ts
  | arguments => exact isTree_arguments limit ts
  | expression => exact id
  | assignment => exact isTree_assignment limit ts
  | logicOr => exact hoperations (i := 0) (by decide)
  | logicAnd => exact hoperations (i := 1) (by decide)
  | equality => exact hoperations (i := 2) (by decide)
  | comparison => exact hoperations (i := 3) (by decide)
  | term => exact hoperations (i := 4) (by decide)
  | factor => exact hoperations (i := 5) (by decide)
  | unary => exact isTree_unary limit ts
  | call => exact isTree_call limit ts
  | primary => exact isTree_primary limit ts

end

/-- A list is derived from the rule for programs if it is a way to write one, with its end. -/
theorem derives_program_iff {stop : Token} (hstop : stop.kind = .eof) :
    Derives limit (.rule .program) (ts ++ [stop])
      ↔ ∃ body, (Part.declarations body).Written limit ts := by
  constructor
  · intro h
    obtain ⟨body, us, stop', hbody, -, heq⟩ := h.holds (isTree limit)
    obtain ⟨rfl, -⟩ := List.append_inj' heq rfl
    exact ⟨body, hbody⟩
  · rintro ⟨body, hbody⟩
    exact .rule (.seq hbody.derived (.word hstop))

/-- A list is derived from the rule for expressions if it is a way to write one. -/
theorem derives_expression_iff :
    Derives limit (.rule .expression) ts ↔ ∃ e, (Phrase.expression e).Written limit ts :=
  ⟨fun h => h.holds (isTree limit), fun ⟨_, h⟩ => h.derived⟩

end Grammar

end Lox
