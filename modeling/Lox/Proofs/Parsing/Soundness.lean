import Lox.Proofs.Grammar.Derived
import Lox.Proofs.Parsing.Yields

/-!
What is read was written so: the tokens that a reading has taken with nothing wrong are a way to
write the tree it gives, for expressions (`Yields.expressions`) and for declarations and statements
(`Yields.statements`). One lemma for each rule of the grammar, given those that it refers to.
-/

namespace Lox

namespace Parser

open Grammar

namespace Yields

variable {limit : Limit}

/-! ### Expressions -/

/-- A left operand goes on with operators of its level. -/
protected theorem operations {i : Nat} {level : Level} (hlevel : levels[i]? = some level)
    {operand : Reading Expr}
    (h : Yields operand fun e ts _ => (Phrase.operation (i + 1) e).Written limit ts) (left : Expr)
    (rounds : Nat) :
    Yields (operations level operand left rounds) fun e us _ =>
      ∀ ts, (Phrase.operation i left).Written limit ts →
        (Phrase.operation i e).Written limit (ts ++ us) := by
  induction rounds generalizing left with
  | zero => exact .outOfRounds
  | succ rounds ih =>
    refine takeIf_bind (fun operator hoperator => ?_) (.pure fun rest _ ts hleft => ?_)
    · refine h.bind fun right us => node_bind fun id => (ih _).conseq ?_
      intro e vs rest he hright ts hleft
      have hoperator : operator.kind ∈ level.operators := by simpa using hoperator
      simpa using he _ (.joined id hlevel hleft hoperator hright)
    · rwa [List.append_nil]

protected theorem operation {unary : Reading Expr}
    (h : Yields unary fun e ts _ => (Phrase.operation levels.length e).Written limit ts)
    (rounds : Nat) {ls : List Level} {i : Nat} (hi : i ≤ levels.length) (hls : levels.drop i = ls) :
    Yields (operation unary rounds ls) fun e ts _ => (Phrase.operation i e).Written limit ts := by
  induction ls generalizing i with
  | nil =>
    have hi : i = levels.length := Nat.le_antisymm hi (List.drop_eq_nil_iff.1 hls)
    rwa [hi]
  | cons level tighter ih =>
    have hlevel : levels[i]? = some level := by
      rw [← List.head?_drop, hls, List.head?_cons]
    have hlt := lt_of_level hlevel
    have htighter : levels.drop (i + 1) = tighter := by
      rw [← List.drop_drop, hls]
      rfl
    have hoperand := ih hlt htighter
    refine hoperand.bind fun left ts => (Yields.operations hlevel hoperand left rounds).conseq ?_
    intro e us rest he hleft
    exact he ts (.tighter hlt hleft)

/-- What is between the parentheses of a call. -/
theorem arguments {argument : Reading Expr}
    (h : Yields argument fun e ts _ => (Phrase.expression e).Written limit ts) (rounds : Nat) :
    Yields (listedOrNone limit .arguments argument rounds) fun es ts _ =>
      (Phrase.arguments es).Written limit ts := by
  have hlisted : Yields (listedOrNone limit .arguments argument rounds) fun es ts _ =>
      (es = [] ∧ ts = []) ∨ (Phrase.entries es).Written limit ts ∧ limit.Allows es.length :=
    Yields.listedOrNone h .entry .entries rounds
  refine hlisted.conseq fun es ts rest hes => ?_
  rcases hes with ⟨rfl, rfl⟩ | ⟨hes, hcount⟩
  · exact .noArguments
  · exact .arguments hes hcount

protected theorem accesses {argument : Reading Expr}
    (h : Yields argument fun e ts _ => (Phrase.expression e).Written limit ts) (left : Expr)
    (rounds : Nat) :
    Yields (accesses limit argument left rounds) fun e us _ =>
      ∀ ts, (Phrase.call left).Written limit ts → (Phrase.call e).Written limit (ts ++ us) := by
  induction rounds generalizing left with
  | zero => exact .outOfRounds
  | succ rounds ih =>
    refine accept_ite (fun open' hopen => ?_) (accept_ite (fun dot hdot => ?_) ?_)
    · refine (arguments h rounds).bind fun es us => expect_bind fun paren hparen =>
        node_bind fun id => (ih _).conseq ?_
      intro e vs rest he hargs ts hleft
      simpa using he _ (.call id hleft hopen hargs hparen)
    · refine expect_bind fun name hname => node_bind fun id => (ih _).conseq ?_
      intro e us rest he _ ts hleft
      simpa using he _ (.get id hleft hdot hname)
    · refine .pure fun rest _ _ ts hleft => ?_
      rwa [List.append_nil]

/-- A target to which nothing can be assigned is a fault. -/
protected theorem assignTo (limit : Limit) (target value : Expr) {equals : Token}
    (hequals : equals.kind = .equal) :
    Yields (assignTo target equals value) fun e ts _ =>
      ∀ us vs, (Phrase.expression value).Written limit us →
        (Phrase.operation 0 target).Written limit vs →
        (Phrase.expression e).Written limit (vs ++ equals :: (us ++ ts)) := by
  unfold Parser.assignTo
  split
  · refine .node fun id rest us vs hvalue htarget => ?_
    rw [List.append_nil]
    cases htarget.call_of_operation rfl with
    | var _ hname => exact .assign id hname hequals hvalue
  · refine .node fun id rest us vs hvalue htarget => ?_
    rw [List.append_nil]
    cases htarget.call_of_operation rfl with
    | get _ hobject hdot hname => simpa using .set id hobject hdot hname hequals hvalue
  · have hreport : Yields (report equals .invalidAssignmentTarget) fun _ _ _ => False := .report
    exact hreport.bind fun _ ts => .pure fun rest h => h.elim

protected theorem primary {expression : Reading Expr}
    (h : Yields expression fun e ts _ => (Phrase.expression e).Written limit ts) :
    Yields (primary expression) fun e ts _ => (Phrase.call e).Written limit ts := by
  intro s
  have hpeek : ∀ f : Option Token → Reading Expr,
      YieldsAt s (f s.rest.head?) (fun e ts _ => (Phrase.call e).Written limit ts) →
        YieldsAt s (peek? >>= f) fun e ts _ => (Phrase.call e).Written limit ts := fun f h => h
  refine hpeek _ ?_
  cases hr : s.rest with
  | nil => exact Yields.fail s
  | cons t rest =>
    rw [List.head?_cons, Option.map_some]
    have hliteral {value : Literal} (hk : literal? t.kind = some value) :
        YieldsAt s (do let _ ← advance; node (.literal · value))
          fun e ts _ => (Phrase.call e).Written limit ts :=
      advance_bind hr (.node fun id rest => .literal id hk)
    split
    · rename_i hk
      exact hliteral (congrArg literal? (Option.some.inj hk))
    · rename_i hk
      exact hliteral (congrArg literal? (Option.some.inj hk))
    · rename_i hk
      exact hliteral (congrArg literal? (Option.some.inj hk))
    · rename_i hk
      exact hliteral (congrArg literal? (Option.some.inj hk))
    · rename_i hk
      exact hliteral (congrArg literal? (Option.some.inj hk))
    · rename_i hk
      exact advance_bind hr (.node fun id rest => .this id (Option.some.inj hk))
    · rename_i hk
      exact advance_bind hr (expect_bind fun dot hdot => expect_bind fun method hmethod =>
        .node fun id rest => .super id (Option.some.inj hk) hdot hmethod)
    · rename_i hk
      exact advance_bind hr (.node fun id rest => .var id (Option.some.inj hk))
    · rename_i hk
      refine advance_bind hr (h.bind fun inner ts => expect_bind fun right hright =>
        .node fun id rest hinner => ?_)
      exact .grouping id (Option.some.inj hk) hinner hright
    · exact Yields.fail s

/-- What is read as an expression was written so. -/
theorem expressions (limit : Limit) (rounds : Nat) :
    Yields (expression limit rounds) (fun e ts _ => (Phrase.expression e).Written limit ts)
      ∧ Yields (unary limit rounds)
        (fun e ts _ => (Phrase.operation levels.length e).Written limit ts)
      ∧ Yields (call limit rounds) fun e ts _ => (Phrase.call e).Written limit ts := by
  induction rounds with
  | zero => exact ⟨.outOfRounds, .outOfRounds, .outOfRounds⟩
  | succ rounds ih =>
    obtain ⟨hexpression, hunary, hcall⟩ := ih
    refine ⟨?_, ?_, ?_⟩
    · refine (Yields.operation hunary rounds (Nat.zero_le _) rfl).bind fun target ts => ?_
      refine accept_bind (fun equals hequals => ?_) (.pure fun rest _ htarget => ?_)
      · refine hexpression.bind fun value us => (Yields.assignTo limit target value hequals).conseq ?_
        exact fun e vs rest he hvalue htarget => he us ts hvalue htarget
      · rw [List.append_nil]
        exact .loosest htarget
    · refine takeIf_bind (fun operator hoperator => ?_) (hcall.conseq fun e ts rest he _ => ?_)
      · refine hunary.bind fun right ts => .node fun id rest hright => ?_
        rw [List.append_nil]
        exact .unary id (by simpa [IsSign] using hoperator) hright
      · exact .tightest he
    · refine (Yields.primary hexpression).bind fun left ts => ?_
      exact (Yields.accesses hexpression left rounds).conseq fun e us rest he hleft => he ts hleft

/-! ### Statements -/

section

variable {expression : Reading Expr}
  (h : Yields expression fun e ts _ => (Phrase.expression e).Written limit ts)

include h

theorem option (k : Kind) :
    Yields (unlessNext k expression) fun e? ts _ => Optional limit e? ts := by
  refine (Yields.unlessNext h).conseq fun e? ts rest he => ?_
  rcases he with ⟨rfl, rfl⟩ | ⟨e, rfl, he⟩
  · exact .none
  · exact .some he

protected theorem varDecl : Yields (varDecl expression) fun s ts _ => Variable limit s ts := by
  refine expect_bind fun name hname => ?_
  have hrest (e? : Option Expr) : Yields (do
      let _ ← expect .semicolon .variableEnd
      return Stmt.varDecl name e?) fun s ts _ =>
        ∃ semicolon, semicolon.kind = .semicolon ∧ s = .varDecl name e? ∧ ts = [semicolon] :=
    expect_bind fun semicolon hsemicolon => .pure fun _ => ⟨semicolon, hsemicolon, rfl, rfl⟩
  refine accept_ite (fun equals hequals => ?_) ?_
  · have hsome : Yields (some <$> expression) fun e? ts _ =>
        ∃ e, e? = some e ∧ (Phrase.expression e).Written limit ts :=
      Yields.map (h.conseq fun _ _ _ he => ⟨_, rfl, he⟩)
    refine hsome.bind fun e? us => (hrest e?).conseq ?_
    rintro s vs rest ⟨semicolon, hsemicolon, rfl, rfl⟩ ⟨e, rfl, he⟩
    exact .initialized hname hequals he hsemicolon
  · have hnone : Yields (pure none) fun (e? : Option Expr) ts _ => e? = none ∧ ts = [] :=
      .pure fun _ => ⟨rfl, rfl⟩
    refine hnone.bind fun e? us => (hrest e?).conseq ?_
    rintro s vs rest ⟨semicolon, hsemicolon, rfl, rfl⟩ ⟨rfl, rfl⟩ -
    exact .plain hname hsemicolon

/-- What stands as a statement, and the semicolon after it. -/
protected theorem expressionStatement :
    Yields (expressionStatement expression) fun s ts _ =>
      ∃ e us semicolon, (Phrase.expression e).Written limit us ∧ semicolon.kind = .semicolon
        ∧ s = .expression e ∧ ts = us ++ [semicolon] :=
  h.bind fun e us => expect_bind fun semicolon hsemicolon => .pure fun _ he =>
    ⟨e, us, semicolon, he, hsemicolon, rfl, rfl⟩

/-- An expression with parentheses around it. -/
protected theorem condition (start : Expectation) :
    Yields (condition start expression) fun e ts _ =>
      ∃ left us right, left.kind = .leftParen ∧ (Phrase.expression e).Written limit us
        ∧ right.kind = .rightParen ∧ ts = left :: (us ++ [right]) :=
  expect_bind fun left hleft => h.bind fun _ us => expect_bind fun right hright => .pure fun _ he =>
    ⟨left, us, right, hleft, he, hright, rfl⟩

/-- A statement, and whether it takes an `else` that follows it: it has none then. -/
abbrev Complete (limit : Limit) (s : Stmt) (ts rest : List Token) : Prop :=
  ∃ o, (Part.statement o s).Written limit ts
    ∧ (o = true → ∀ t ∈ rest.head?, t.kind ≠ .kwElse)

protected theorem returnStatement {keyword : Token} (hkeyword : keyword.kind = .kwReturn) :
    Yields (returnStatement keyword expression) fun s ts rest =>
      Complete limit s (keyword :: ts) rest := by
  refine (option h _).bind fun value? us => expect_bind fun semicolon hsemicolon => ?_
  refine .pure fun rest hvalue => ?_
  exact ⟨false, .returnValue hkeyword hvalue hsemicolon, by simp⟩

variable {statement : Reading Stmt} (hstatement : Yields statement (Complete limit))

include hstatement

protected theorem ifStatement {keyword : Token} (hkeyword : keyword.kind = .kwIf) :
    Yields (ifStatement expression statement) fun s ts rest =>
      Complete limit s (keyword :: ts) rest := by
  refine (Yields.condition h _).bind fun condition ts => hstatement.bind fun s us => ?_
  refine accept_ite (fun other hother => ?_) (.pure fun rest hhead hs hcondition => ?_)
  · refine (hstatement.conseq fun s' vs rest hs' hs hcondition => ?_).bind_pure
    obtain ⟨left, ts, right, hleft, hcondition, hright, rfl⟩ := hcondition
    obtain ⟨o, hs, hopen⟩ := hs
    obtain ⟨o', hs', hopen'⟩ := hs'
    cases o with
    | true => exact absurd hother (hopen rfl other (by simp))
    | false => exact ⟨o', by simpa using .ifElse hkeyword hleft hcondition hright hs hother hs', hopen'⟩
  · obtain ⟨left, ts, right, hleft, hcondition, hright, rfl⟩ := hcondition
    obtain ⟨o, hs, -⟩ := hs
    exact ⟨true, by simpa using .ifThen hkeyword hleft hcondition hright hs,
      fun _ => by simpa using hhead⟩

protected theorem whileStatement {keyword : Token} (hkeyword : keyword.kind = .kwWhile) :
    Yields (whileStatement expression statement) fun s ts rest =>
      Complete limit s (keyword :: ts) rest := by
  refine (Yields.condition h _).bind fun condition ts => ?_
  refine (hstatement.conseq fun s us rest hs hcondition => ?_).bind_pure
  obtain ⟨left, ts, right, hleft, hcondition, hright, rfl⟩ := hcondition
  obtain ⟨o, hs, hopen⟩ := hs
  exact ⟨o, by simpa using .whileLoop hkeyword hleft hcondition hright hs, hopen⟩

omit hstatement in
protected theorem forInitializer :
    Yields (forInitializer expression) fun s? ts _ => Initializer limit s? ts := by
  refine accept_ite (fun semicolon hsemicolon => .pure fun _ => .none hsemicolon) ?_
  refine accept_ite (fun var hvar => ?_) ?_
  · exact Yields.map ((Yields.varDecl h).conseq fun s ts rest hs _ => .declaring hvar hs)
  · refine Yields.map ((Yields.expressionStatement h).conseq ?_)
    rintro s ts rest ⟨e, us, semicolon, he, hsemicolon, rfl, rfl⟩ - -
    exact .evaluating he hsemicolon

protected theorem forStatement {keyword : Token} (hkeyword : keyword.kind = .kwFor) :
    Yields (forStatement expression statement) fun s ts rest =>
      Complete limit s (keyword :: ts) rest := by
  refine expect_bind fun left hleft => (Yields.forInitializer h).bind fun s? ts => ?_
  refine (option h _).bind fun condition? us => expect_bind fun semicolon hsemicolon => ?_
  refine (option h _).bind fun increment? vs => expect_bind fun right hright => ?_
  refine hstatement.bind fun s ws => ?_
  have hloop (id : Nat) : Yields
      (pure (forLoop s? (condition?.getD (.literal id (.boolean true))) increment? s)) fun st xs rest =>
        Complete limit s ws (xs ++ rest) → Optional limit increment? vs → Optional limit condition? us →
          Initializer limit s? ts → Complete limit st
            (keyword :: left :: (ts ++ (us ++ semicolon :: (vs ++ right :: (ws ++ xs))))) rest := by
    refine .pure fun rest hs hincrement hcondition hinit => ?_
    obtain ⟨o, hs, hopen⟩ := hs
    rw [List.append_nil]
    exact ⟨o, .forLoop id hkeyword hleft hinit hcondition hsemicolon hincrement hright hs, hopen⟩
  cases condition? with
  | some e => exact hloop 0
  | none => exact node_bind hloop

end

/-- Declarations one after the other; each of them could be read. -/
theorem declarations {declaration : Reading (Option Stmt)}
    (h : Yields declaration fun s? ts _ =>
      ∃ s, s? = some s ∧ (Part.declaration s).Written limit ts) (closes : Kind → Bool)
    (rounds : Nat) :
    Yields (upTo closes declaration rounds) fun body ts rest =>
      (Part.declarations body.reduceOption).Written limit ts
        ∧ ∀ t ∈ rest.head?, closes t.kind = true := by
  refine @Yields.upTo _ _ _ (fun (body : List (Option Stmt)) ts =>
    (Part.declarations body.reduceOption).Written limit ts) closes h .noDeclarations ?_ rounds
  rintro s? body ts us ⟨s, rfl, hs⟩ hbody
  exact .declarations hs hbody

protected theorem block {declaration : Reading (Option Stmt)}
    (h : Yields declaration fun s? ts _ =>
      ∃ s, s? = some s ∧ (Part.declaration s).Written limit ts) (rounds : Nat) :
    Yields (block declaration rounds) fun body ts _ =>
      ∃ us right, (Part.declarations body).Written limit us ∧ right.kind = .rightBrace
        ∧ ts = us ++ [right] :=
  (declarations h _ rounds).bind fun _ us => expect_bind fun right hright => .pure fun _ hbody =>
    ⟨us, right, hbody.1, hright, rfl⟩

/-- What is between the parentheses of a function. -/
theorem parameters (limit : Limit) (rounds : Nat) :
    Yields (listedOrNone limit .parameters (expect .identifier .parameterName) rounds)
      fun params ts _ => Parameters limit params ts := by
  have hparameter : Yields (expect .identifier .parameterName) fun p ts _ =>
      p.kind = .identifier ∧ ts = [p] := .expect fun p _ hp => ⟨hp, rfl⟩
  have hlisted : Yields (listedOrNone limit .parameters (expect .identifier .parameterName) rounds)
      fun params ts _ => (params = [] ∧ ts = [])
        ∨ ((∀ p ∈ params, p.kind = .identifier) ∧ Separated (params.map fun p => [p]) ts)
          ∧ limit.Allows params.length := by
    refine Yields.listedOrNone hparameter ?_ ?_ rounds
    · rintro p ts ⟨hp, rfl⟩
      exact ⟨by simpa using hp, .one [p]⟩
    · rintro p params ts us comma ⟨hp, rfl⟩ hcomma ⟨hparams, hus⟩
      exact ⟨List.forall_mem_cons.2 ⟨hp, hparams⟩, .more hcomma hus⟩
  refine hlisted.conseq fun params ts rest hparams => ?_
  rcases hparams with ⟨rfl, rfl⟩ | ⟨⟨hparams, hts⟩, hcount⟩
  · exact .none
  · exact .some hparams hts hcount

protected theorem routine {block : Reading (List Stmt)}
    (h : Yields block fun body ts _ => ∃ us right, (Part.declarations body).Written limit us
      ∧ right.kind = .rightBrace ∧ ts = us ++ [right]) (rounds : Nat) (kind : RoutineKind) :
    Yields (routine limit block rounds kind) fun r ts _ => (Part.routine r).Written limit ts := by
  refine expect_bind fun name hname => expect_bind fun left hleft => ?_
  refine (parameters limit rounds).bind fun params ts => expect_bind fun right hright => ?_
  refine expect_bind fun opening hopening => ?_
  refine (h.conseq fun body us rest hbody hparams => ?_).bind_pure
  obtain ⟨us, closing, hbody, hclosing, rfl⟩ := hbody
  exact .routine hname hleft hparams hright hopening hbody hclosing

protected theorem classDecl {method : Reading Routine}
    (h : Yields method fun r ts _ => (Part.routine r).Written limit ts) (rounds : Nat)
    {keyword : Token} (hkeyword : keyword.kind = .kwClass) :
    Yields (classDecl method rounds) fun s ts _ =>
      (Part.declaration s).Written limit (keyword :: ts) := by
  refine expect_bind fun name hname => ?_
  have hmethods : Yields (upTo (· = .rightBrace) method rounds) fun rs ts _ =>
      (Part.routines rs).Written limit ts :=
    (Yields.upTo h .noRoutines .routines rounds).conseq fun _ _ _ hrs => hrs.1
  have hrest (superclass : Option Expr) : Yields (do
      let _ ← expect .leftBrace .classBodyStart
      let methods ← upTo (· = .rightBrace) method rounds
      let _ ← expect .rightBrace .classBodyEnd
      return Stmt.classDecl name superclass methods) fun s us _ =>
        ∀ ts, Ancestor superclass ts →
          (Part.declaration s).Written limit (keyword :: name :: (ts ++ us)) := by
    refine expect_bind fun left hleft => hmethods.bind fun rs us => expect_bind fun right hright => ?_
    exact .pure fun _ hrs ts hancestor => .classDecl hkeyword hname hancestor hleft hrs hright
  refine accept_ite (fun colon hcolon => expect_bind fun ancestor hancestor => ?_) ?_
  · have hnode : Yields (some <$> node (.var · ancestor)) fun e? ts _ =>
        ts = [] ∧ ∃ id, e? = some (.var id ancestor) :=
      Yields.map (.node fun id _ => ⟨rfl, id, rfl⟩)
    refine hnode.bind fun superclass ts => (hrest superclass).conseq ?_
    rintro s us rest hs ⟨rfl, id, rfl⟩
    exact hs _ (.some id hcolon hancestor)
  · have hnone : Yields (pure none) fun (e? : Option Expr) ts _ => ts = [] ∧ e? = none :=
      .pure fun _ => ⟨rfl, rfl⟩
    refine hnone.bind fun superclass ts => (hrest superclass).conseq ?_
    rintro s us rest hs ⟨rfl, rfl⟩ -
    exact hs _ .none

/-- What is read as a declaration or a statement was written so. -/
theorem statements (limit : Limit) (rounds : Nat) :
    Yields (declaration limit rounds) (fun s? ts _ =>
        ∃ s, s? = some s ∧ (Part.declaration s).Written limit ts)
      ∧ Yields (statement limit rounds) (Complete limit) := by
  induction rounds with
  | zero => exact ⟨.outOfRounds, .outOfRounds⟩
  | succ rounds ih =>
    obtain ⟨hdeclaration, hstatement⟩ := ih
    have hexpression := (expressions limit rounds).1
    have hblock := Yields.block hdeclaration rounds
    constructor
    · refine Yields.recovering ?_
      refine accept_ite (fun keyword hkeyword => ?_) ?_
      · exact Yields.classDecl (Yields.routine hblock rounds .method) rounds hkeyword
      refine accept_ite (fun keyword hkeyword => ?_) ?_
      · exact Yields.map ((Yields.routine hblock rounds .function).conseq
          fun r ts rest hr _ => .funDecl hkeyword hr)
      refine accept_ite (fun var hvar => ?_) ?_
      · exact (Yields.varDecl hexpression).conseq fun s ts rest hs _ _ => .varDecl hvar hs
      · refine hstatement.conseq fun s ts rest hs _ _ _ => ?_
        obtain ⟨o, hs, -⟩ := hs
        exact .statement hs
    · refine accept_ite (fun keyword hkeyword => Yields.forStatement hexpression hstatement hkeyword) ?_
      refine accept_ite (fun keyword hkeyword => ?_) ?_
      · exact (Yields.ifStatement hexpression hstatement hkeyword).conseq fun s ts rest hs _ => hs
      refine accept_ite (fun keyword hkeyword => ?_) ?_
      · exact (Yields.whileStatement hexpression hstatement hkeyword).conseq
          fun s ts rest hs _ _ => hs
      refine accept_bind (fun keyword hkeyword => ?_) ?_
      · exact (Yields.returnStatement hexpression hkeyword).conseq fun s ts rest hs _ _ _ => hs
      refine accept_ite (fun left hleft => ?_) ?_
      · refine Yields.map (hblock.conseq ?_)
        rintro body ts rest ⟨us, right, hbody, hright, rfl⟩ - - - -
        exact ⟨false, .block hleft hbody hright, by simp⟩
      · refine (Yields.expressionStatement hexpression).conseq ?_
        rintro s ts rest ⟨e, us, semicolon, he, hsemicolon, rfl, rfl⟩ - - - - -
        exact ⟨false, .expression he hsemicolon, by simp⟩

end Yields

end Parser

end Lox
