import Lox.Proofs.Grammar.Disciplined

/-!
Disciplined trees are written as their leaves: tokens that stand for the leaves of such a tree are a
way to write it, if lists may be of any length.
-/

namespace Lox

namespace Grammar

open Lox.Parser

/-! ### Expressions -/

theorem exists_binary_level {k : Kind} (h : IsBinary k) :
    ∃ i level, levels[i]? = some level ∧ level.make = .binary ∧ binding k = i + 2 := by
  obtain ⟨hlow, hhigh⟩ := h
  obtain hk | hk | hk | hk : binding k = 4 ∨ binding k = 5 ∨ binding k = 6 ∨ binding k = 7 := by
    omega
  · exact ⟨2, _, rfl, rfl, hk⟩
  · exact ⟨3, _, rfl, rfl, hk⟩
  · exact ⟨4, _, rfl, rfl, hk⟩
  · exact ⟨5, _, rfl, rfl, hk⟩

theorem exists_logical_level {k : Kind} (h : IsLogical k) :
    ∃ i level, levels[i]? = some level ∧ level.make = .logical ∧ binding k = i + 2 := by
  rcases h with rfl | rfl
  · exact ⟨0, _, rfl, rfl, rfl⟩
  · exact ⟨1, _, rfl, rfl, rfl⟩

variable {limit : Limit} {ts : List Token}

/-- The tokens are a way to write the expression wherever it is tight enough to stand. -/
structure WhereTight (limit : Limit) (e : Expr) (ts : List Token) : Prop where
  call : tightness e = 9 → (Phrase.call e).Written limit ts
  operation : ∀ i, i ≤ levels.length → i + 2 ≤ tightness e → (Phrase.operation i e).Written limit ts
  expression : (Phrase.expression e).Written limit ts

theorem WhereTight.of_call {e : Expr} (h : (Phrase.call e).Written limit ts) :
    WhereTight limit e ts where
  call _ := h
  operation _ hi _ := h.operation_of_call hi
  expression := .loosest (h.operation_of_call (Nat.zero_le _))

theorem WhereTight.of_operation {e : Expr} {i : Nat} (h : (Phrase.operation i e).Written limit ts)
    (hi : i ≤ levels.length) (he : tightness e = i + 2) : WhereTight limit e ts where
  call := h.call_of_operation
  operation j _ hj := h.of_operation (by omega) hi
  expression := .loosest (h.of_operation (Nat.zero_le _) hi)

theorem WhereTight.of_assignment {e : Expr} (h : (Phrase.expression e).Written limit ts)
    (he : tightness e = 1) : WhereTight limit e ts where
  call h9 := by omega
  operation i _ hi := by omega
  expression := h

/-- Two operands with an operator of the level between. -/
theorem WhereTight.joined {i : Nat} {level : Level} (hlevel : levels[i]? = some level) (id : Nat)
    {left right : Expr} {operator : Token} {us : List Token} (hoperator : binding operator.kind = i + 2)
    (hl : WhereTight limit left ts) (hleft : binding operator.kind ≤ tightness left)
    (hr : WhereTight limit right us) (hright : binding operator.kind < tightness right) :
    WhereTight limit (level.make id left operator right) (ts ++ operator :: us) := by
  have hi := lt_of_level hlevel
  refine .of_operation (i := i) (.joined id hlevel ?_ ((mem_operators_iff hlevel).2 hoperator) ?_)
    (Nat.le_of_lt hi) ((tightness_make hlevel ..).trans hoperator)
  · exact hl.operation i (Nat.le_of_lt hi) (hoperator ▸ hleft)
  · exact hr.operation (i + 1) hi (by omega)

mutual

/-- Tokens that stand for the leaves of a disciplined expression are a way to write it. -/
theorem whereTight_of_fit : ∀ {e : Expr} {ts : List Token}, e.Disciplined → Fit e.leaves ts →
    WhereTight limit.lenient e ts
  | .literal id value, ts, _, h => by
    simp only [Expr.leaves, fit_cons_iff, fit_nil_iff, Leaf.Fits] at h
    obtain ⟨t, _, ht, rfl, rfl⟩ := h
    exact .of_call (.literal id (literal?_eq_some_iff.2 ht))
  | .var id name, ts, hname, h => by
    simp only [Expr.leaves, fit_cons_iff, fit_nil_iff, Leaf.Fits] at h
    obtain ⟨_, _, rfl, rfl, rfl⟩ := h
    exact .of_call (.var id hname)
  | .this id keyword, ts, hkeyword, h => by
    simp only [Expr.leaves, fit_cons_iff, fit_nil_iff, Leaf.Fits] at h
    obtain ⟨_, _, rfl, rfl, rfl⟩ := h
    exact .of_call (.this id hkeyword)
  | .super id keyword method, ts, ⟨hkeyword, hmethod⟩, h => by
    simp only [Expr.leaves, fit_cons_iff, fit_nil_iff, Leaf.Fits] at h
    obtain ⟨_, _, rfl, ⟨dot, _, hdot, ⟨_, _, rfl, rfl, rfl⟩, rfl⟩, rfl⟩ := h
    exact .of_call (.super id hkeyword hdot hmethod)
  | .grouping id inner, ts, hinner, h => by
    simp only [Expr.leaves, fit_cons_iff, fit_append_iff, fit_nil_iff, Leaf.Fits] at h
    obtain ⟨left, _, hleft, ⟨us, _, h, ⟨right, _, hright, rfl, rfl⟩, rfl⟩, rfl⟩ := h
    exact .of_call (.grouping id hleft (whereTight_of_fit (e := inner) hinner h).expression hright)
  | .unary id operator right, ts, ⟨hsign, htight, hright⟩, h => by
    simp only [Expr.leaves, fit_cons_iff, Leaf.Fits] at h
    obtain ⟨_, us, rfl, h, rfl⟩ := h
    have hoperand := (whereTight_of_fit hright h).operation levels.length (Nat.le_refl _) htight
    exact .of_operation (.unary id hsign hoperand) (Nat.le_refl _) rfl
  | .binary id left operator right, ts, ⟨hbinary, htightl, htightr, hleft, hright⟩, h => by
    simp only [Expr.leaves, fit_append_iff, fit_cons_iff, Leaf.Fits] at h
    obtain ⟨us, _, hl, ⟨_, vs, rfl, hr, rfl⟩, rfl⟩ := h
    obtain ⟨i, level, hlevel, hmake, hbinding⟩ := exists_binary_level hbinary
    rw [← hmake]
    exact .joined hlevel id hbinding (whereTight_of_fit hleft hl) htightl
      (whereTight_of_fit hright hr) htightr
  | .logical id left operator right, ts, ⟨hlogical, htightl, htightr, hleft, hright⟩, h => by
    simp only [Expr.leaves, fit_append_iff, fit_cons_iff, Leaf.Fits] at h
    obtain ⟨us, _, hl, ⟨_, vs, rfl, hr, rfl⟩, rfl⟩ := h
    obtain ⟨i, level, hlevel, hmake, hbinding⟩ := exists_logical_level hlogical
    rw [← hmake]
    exact .joined hlevel id hbinding (whereTight_of_fit hleft hl) htightl
      (whereTight_of_fit hright hr) htightr
  | .assign id name value, ts, ⟨hname, hvalue⟩, h => by
    simp only [Expr.leaves, fit_cons_iff, Leaf.Fits] at h
    obtain ⟨_, _, rfl, ⟨equals, us, hequals, h, rfl⟩, rfl⟩ := h
    exact .of_assignment (.assign id hname hequals (whereTight_of_fit hvalue h).expression) rfl
  | .call id callee paren arguments, ts, ⟨htight, hcallee, harguments, hparen⟩, h => by
    simp only [Expr.leaves, fit_append_iff, fit_cons_iff, fit_nil_iff, Leaf.Fits] at h
    obtain ⟨us, _, hc, ⟨left, _, hleft, ⟨vs, _, ha, ⟨_, _, rfl, rfl, rfl⟩, rfl⟩, rfl⟩, rfl⟩ := h
    have hargs : (Phrase.arguments arguments).Written limit.lenient vs := by
      cases arguments with
      | nil =>
        obtain rfl := fit_nil_iff.1 ha
        exact .noArguments
      | cons e es =>
        exact .arguments (entries_of_fit (List.cons_ne_nil e es) harguments ha) (limit.lenient_allows _)
    exact .of_call (.call id ((whereTight_of_fit hcallee hc).call htight) hleft hargs hparen)
  | .get id object name, ts, ⟨htight, hobject, hname⟩, h => by
    simp only [Expr.leaves, fit_append_iff, fit_cons_iff, fit_nil_iff, Leaf.Fits] at h
    obtain ⟨us, _, ho, ⟨dot, _, hdot, ⟨_, _, rfl, rfl, rfl⟩, rfl⟩, rfl⟩ := h
    exact .of_call (.get id ((whereTight_of_fit hobject ho).call htight) hdot hname)
  | .set id object name value, ts, ⟨htight, hobject, hname, hvalue⟩, h => by
    simp only [Expr.leaves, fit_append_iff, fit_cons_iff, Leaf.Fits] at h
    obtain ⟨us, _, ho, ⟨dot, _, hdot, ⟨_, _, rfl, ⟨equals, vs, hequals, hv, rfl⟩, rfl⟩, rfl⟩, rfl⟩ := h
    exact .of_assignment (.set id ((whereTight_of_fit hobject ho).call htight) hdot hname hequals
      (whereTight_of_fit hvalue hv).expression) rfl

/-- Tokens that stand for disciplined expressions, with commas between, are a way to write these. -/
theorem entries_of_fit : ∀ {es : List Expr} {ts : List Token}, es ≠ [] → Expr.DisciplinedEach es →
    Fit (Leaf.listed (Expr.leavesEach es)) ts → (Phrase.entries es).Written limit.lenient ts
  | [], _, hne, _, _ => absurd rfl hne
  | [e], ts, _, ⟨he, _⟩, h => by
    rw [Expr.leavesEach, Expr.leavesEach, listed_single] at h
    exact .entry (whereTight_of_fit he h).expression
  | e :: e' :: es, ts, _, ⟨he, hes⟩, h => by
    rw [Expr.leavesEach, listed_cons (by simp [Expr.leavesEach])] at h
    simp only [fit_append_iff, fit_cons_iff, Leaf.Fits] at h
    obtain ⟨us, _, h, ⟨comma, vs, hcomma, h', rfl⟩, rfl⟩ := h
    exact .entries (whereTight_of_fit he h).expression hcomma
      (entries_of_fit (List.cons_ne_nil e' es) hes h')

end

theorem optional_of_fit {e? : Option Expr} (he : Expr.DisciplinedOption e?)
    (h : Fit (Expr.leavesOption [] e?) ts) : Optional limit.lenient e? ts := by
  cases e? with
  | none =>
    obtain rfl := fit_nil_iff.1 h
    exact .none
  | some e => exact .some (whereTight_of_fit he h).expression

/-! ### Statements -/

theorem variable_of_fit {name semicolon : Token} {initializer : Option Expr}
    (hname : name.kind = .identifier) (he : Expr.DisciplinedOption initializer)
    (h : Fit (Expr.leavesOption [.word .equal] initializer) ts)
    (hsemicolon : semicolon.kind = .semicolon) :
    Variable limit.lenient (.varDecl name initializer) (name :: (ts ++ [semicolon])) := by
  cases initializer with
  | none =>
    obtain rfl := fit_nil_iff.1 h
    exact .plain hname hsemicolon
  | some e =>
    obtain ⟨equals, us, hequals, hvalue, rfl⟩ := fit_cons_iff.1 h
    exact .initialized hname hequals (whereTight_of_fit he hvalue).expression hsemicolon

theorem ancestor_of_fit {superclass : Option Expr} (he : Expr.IsAncestor superclass)
    (h : Fit (Expr.leavesOption [.word .colon] superclass) ts) : Ancestor superclass ts := by
  cases superclass with
  | none =>
    obtain rfl := fit_nil_iff.1 h
    exact .none
  | some e =>
    obtain ⟨id, name, rfl, hname⟩ := he
    simp only [Expr.leavesOption, Expr.leaves, List.singleton_append, fit_cons_iff, fit_nil_iff,
      Leaf.Fits] at h
    obtain ⟨colon, _, hcolon, ⟨_, _, rfl, rfl, rfl⟩, rfl⟩ := h
    exact .some id hcolon hname

theorem separated_of_fit {p : Token} {params : List Token}
    (h : Fit (Leaf.listed ((p :: params).map fun p => [.kept p])) ts) :
    Separated ((p :: params).map fun p => [p]) ts := by
  induction params generalizing p ts with
  | nil =>
    simp only [List.map_cons, List.map_nil, listed_single, fit_cons_iff, fit_nil_iff, Leaf.Fits] at h
    obtain ⟨_, _, rfl, rfl, rfl⟩ := h
    exact .one _
  | cons q params ih =>
    rw [List.map_cons, listed_cons (by simp)] at h
    simp only [List.singleton_append, fit_cons_iff, Leaf.Fits] at h
    obtain ⟨_, _, rfl, ⟨comma, us, hcomma, h, rfl⟩, rfl⟩ := h
    exact .more hcomma (ih h)

theorem parameters_of_fit {params : List Token} (hnames : ∀ p ∈ params, p.kind = .identifier)
    (h : Fit (Leaf.listed (params.map fun p => [.kept p])) ts) :
    Parameters limit.lenient params ts := by
  cases params with
  | nil =>
    obtain rfl := fit_nil_iff.1 h
    exact .none
  | cons p params => exact .some hnames (separated_of_fit h) (limit.lenient_allows _)

/-- The tokens are a way to write the statement wherever it may stand. -/
structure WhereAllowed (limit : Limit) (s : Stmt) (ts : List Token) : Prop where
  statement : s.declares = false → (Part.statement s.takesElse s).Written limit ts
  declaration : (Part.declaration s).Written limit ts

theorem WhereAllowed.of_statement {s : Stmt} (h : (Part.statement s.takesElse s).Written limit ts) :
    WhereAllowed limit s ts where
  statement _ := h
  declaration := .statement h

theorem WhereAllowed.of_declaration {s : Stmt} (h : (Part.declaration s).Written limit ts)
    (hs : s.declares = true) : WhereAllowed limit s ts where
  statement hnot := Bool.noConfusion (hs.symm.trans hnot)
  declaration := h

mutual

/-- Tokens that stand for the leaves of a disciplined statement are a way to write it. -/
theorem whereAllowed_of_fit : ∀ {s : Stmt} {ts : List Token}, s.Disciplined → Fit s.leaves ts →
    WhereAllowed limit.lenient s ts
  | .expression value, ts, hvalue, h => by
    simp only [Stmt.leaves, fit_append_iff, fit_cons_iff, fit_nil_iff, Leaf.Fits] at h
    obtain ⟨us, _, h, ⟨semicolon, _, hsemicolon, rfl, rfl⟩, rfl⟩ := h
    exact .of_statement
      (.expression (whereTight_of_fit (e := value) hvalue h).expression hsemicolon)
  | .varDecl name initializer, ts, ⟨hname, hinitializer⟩, h => by
    simp only [Stmt.leaves, fit_cons_iff, fit_append_iff, fit_nil_iff, Leaf.Fits] at h
    obtain ⟨var, _, hvar, ⟨_, _, rfl, ⟨us, _, h, ⟨semicolon, _, hsemicolon, rfl, rfl⟩, rfl⟩, rfl⟩,
      rfl⟩ := h
    exact .of_declaration (.varDecl hvar (variable_of_fit hname hinitializer h hsemicolon)) rfl
  | .block body, ts, hbody, h => by
    simp only [Stmt.leaves, fit_cons_iff, fit_append_iff, fit_nil_iff, Leaf.Fits] at h
    obtain ⟨left, _, hleft, ⟨us, _, h, ⟨right, _, hright, rfl, rfl⟩, rfl⟩, rfl⟩ := h
    exact .of_statement (.block hleft (declarations_of_fit hbody h) hright)
  | .ifThen condition thenBranch, ts, ⟨hcondition, hthen, hdeclares⟩, h => by
    simp only [Stmt.leaves, fit_cons_iff, fit_append_iff, Leaf.Fits] at h
    obtain ⟨keyword, _, hkeyword, ⟨left, _, hleft, ⟨us, _, hc, ⟨right, vs, hright, ht, rfl⟩, rfl⟩,
      rfl⟩, rfl⟩ := h
    have hcondition : (Phrase.expression condition).Written limit.lenient us :=
      (whereTight_of_fit hcondition hc).expression
    have hthen := (whereAllowed_of_fit hthen ht).statement hdeclares
    exact .of_statement (.ifThen hkeyword hleft hcondition hright hthen)
  | .ifElse condition thenBranch elseBranch, ts,
      ⟨hcondition, hthen, hdeclares, hcloses, helse, hdeclares'⟩, h => by
    simp only [Stmt.leaves, fit_cons_iff, fit_append_iff, Leaf.Fits] at h
    obtain ⟨keyword, _, hkeyword, ⟨left, _, hleft, ⟨us, _, hc, ⟨right, _, hright, ⟨vs, _, ht,
      ⟨other, ws, hother, he, rfl⟩, rfl⟩, rfl⟩, rfl⟩, rfl⟩, rfl⟩ := h
    have hcondition : (Phrase.expression condition).Written limit.lenient us :=
      (whereTight_of_fit hcondition hc).expression
    have hthen := (whereAllowed_of_fit hthen ht).statement hdeclares
    have helse := (whereAllowed_of_fit helse he).statement hdeclares'
    rw [hcloses] at hthen
    exact .of_statement (.ifElse hkeyword hleft hcondition hright hthen hother helse)
  | .whileLoop condition body, ts, ⟨hcondition, hbody, hdeclares⟩, h => by
    simp only [Stmt.leaves, fit_cons_iff, fit_append_iff, Leaf.Fits] at h
    obtain ⟨keyword, _, hkeyword, ⟨left, _, hleft, ⟨us, _, hc, ⟨right, vs, hright, hb, rfl⟩, rfl⟩,
      rfl⟩, rfl⟩ := h
    have hcondition : (Phrase.expression condition).Written limit.lenient us :=
      (whereTight_of_fit hcondition hc).expression
    have hbody := (whereAllowed_of_fit hbody hb).statement hdeclares
    exact .of_statement (.whileLoop hkeyword hleft hcondition hright hbody)
  | .funDecl routine, ts, hroutine, h => by
    simp only [Stmt.leaves, fit_cons_iff, Leaf.Fits] at h
    obtain ⟨keyword, us, hkeyword, h, rfl⟩ := h
    exact .of_declaration (.funDecl hkeyword (routine_of_fit hroutine h)) rfl
  | .returnValue keyword value, ts, ⟨hkeyword, hvalue⟩, h => by
    simp only [Stmt.leaves, fit_cons_iff, fit_append_iff, fit_nil_iff, Leaf.Fits] at h
    obtain ⟨_, _, rfl, ⟨us, _, h, ⟨semicolon, _, hsemicolon, rfl, rfl⟩, rfl⟩, rfl⟩ := h
    exact .of_statement (.returnValue hkeyword (optional_of_fit hvalue h) hsemicolon)
  | .classDecl name superclass methods, ts, ⟨hname, hancestor, hmethods⟩, h => by
    simp only [Stmt.leaves, fit_cons_iff, fit_append_iff, fit_nil_iff, Leaf.Fits] at h
    obtain ⟨keyword, _, hkeyword, ⟨_, _, rfl, ⟨us, _, hs, ⟨left, _, hleft, ⟨vs, _, hm,
      ⟨right, _, hright, rfl, rfl⟩, rfl⟩, rfl⟩, rfl⟩, rfl⟩, rfl⟩ := h
    have hbody := routines_of_fit hmethods hm
    exact .of_declaration
      (.classDecl hkeyword hname (ancestor_of_fit hancestor hs) hleft hbody hright) rfl

/-- Tokens that stand for the leaves of disciplined statements are a way to write these. -/
theorem declarations_of_fit : ∀ {body : List Stmt} {ts : List Token}, Stmt.DisciplinedEach body →
    Fit (Stmt.leavesEach body) ts → (Part.declarations body).Written limit.lenient ts
  | [], ts, _, h => by
    obtain rfl := fit_nil_iff.1 h
    exact .noDeclarations
  | s :: body, ts, ⟨hs, hbody⟩, h => by
    obtain ⟨us, vs, hfirst, hothers, rfl⟩ := fit_append_iff.1 h
    exact .declarations (whereAllowed_of_fit hs hfirst).declaration
      (declarations_of_fit hbody hothers)

theorem routine_of_fit : ∀ {r : Routine} {ts : List Token}, r.Disciplined → Fit r.leaves ts →
    (Part.routine r).Written limit.lenient ts
  | .mk name params body, ts, ⟨hname, hnames, hbody⟩, h => by
    simp only [Routine.leaves, fit_cons_iff, fit_append_iff, fit_nil_iff, Leaf.Fits] at h
    obtain ⟨_, _, rfl, ⟨left, _, hleft, ⟨us, _, hp, ⟨right, _, hright, ⟨opening, _, hopening,
      ⟨vs, _, hb, ⟨closing, _, hclosing, rfl, rfl⟩, rfl⟩, rfl⟩, rfl⟩, rfl⟩, rfl⟩, rfl⟩ := h
    exact .routine hname hleft (parameters_of_fit hnames hp) hright hopening
      (declarations_of_fit hbody hb) hclosing

theorem routines_of_fit : ∀ {rs : List Routine} {ts : List Token}, Routine.DisciplinedEach rs →
    Fit (Routine.leavesEach rs) ts → (Part.routines rs).Written limit.lenient ts
  | [], ts, _, h => by
    obtain rfl := fit_nil_iff.1 h
    exact .noRoutines
  | r :: rs, ts, ⟨hr, hrs⟩, h => by
    obtain ⟨us, vs, hfirst, hothers, rfl⟩ := fit_append_iff.1 h
    exact .routines (routine_of_fit hr hfirst) (routines_of_fit hrs hothers)

end

end Grammar

end Lox
