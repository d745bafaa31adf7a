import Lox.Program.Parser
import Lox.Proofs.Parsing.Parallel
import Mathlib.Data.List.ReduceOption

/-!
The grammar on two lists of tokens. One lemma for each rule says that it reads the same trees from
both, but for lines and numbers. Expressions do so where the list goes on after them, or if a semicolon
follows at its end (`Setting.Ends`); statements also at its end, unless an `else` follows there
(`Setting.Closed`).
-/

namespace Lox

namespace Parser

open Lox.Parser (Reading)

variable {S : Setting} {open? : Prop}

/-- A statement at the end of the first list ends there in the second one too: no `else` follows. -/
def Setting.Closed (S : Setting) (open? : Prop) : Prop :=
  open? → ∀ t ∈ S.follow.head?, t.kind ≠ .kwElse

/-- An expression at the end of the first list ends there in the second one too: a semicolon follows. -/
def Setting.Ends (S : Setting) (open? : Prop) : Prop :=
  open? → ∀ t ∈ S.follow.head?, t.kind = .semicolon

theorem Setting.ends_false (S : Setting) : S.Ends False :=
  False.elim

/-- What is read after the first token of an expression without operators. -/
def primaryFrom (expression : Reading Expr) (t : Token) : Reading Expr :=
  match t.kind with
  | .kwFalse => node (.literal · (.boolean false))
  | .kwTrue => node (.literal · (.boolean true))
  | .kwNil => node (.literal · .nil)
  | .number value => node (.literal · (.number value))
  | .string contents => node (.literal · (.string contents))
  | .kwThis => node (.this · t)
  | .kwSuper => do
    let _ ← expect .dot .superDot
    let method ← expect .identifier .superMethodName
    node (.super · t method)
  | .identifier => node (.var · t)
  | .leftParen => do
    let inner ← expression
    let _ ← expect .rightParen .groupEnd
    node (.grouping · inner)
  | _ => fail .expression

/-- The kinds of token with which such an expression starts. -/
def startsPrimary : Kind → Bool
  | .kwFalse | .kwTrue | .kwNil | .number _ | .string _ | .kwThis | .kwSuper | .identifier
  | .leftParen => true
  | _ => false

theorem primary_eq (expression : Reading Expr) :
    primary expression = takeIf startsPrimary >>= fun t? =>
      match t? with
      | some t => primaryFrom expression t
      | none => fail .expression := by
  funext ⟨rest, stop, nextId, faults⟩
  cases rest with
  | nil => rfl
  | cons t rest =>
    obtain ⟨kind, lexeme, line⟩ := t
    cases kind <;> rfl

/-! ### What an expression or a statement starts with -/

theorem refuses_primary (expression : Reading Expr) : Refuses (primary expression) := by
  rw [primary_eq]
  exact .takeIf_bind rfl (.fail _)

theorem refuses_operation {unary : Reading Expr} (h : Refuses unary) (rounds : Nat)
    (tightness : List Level) : Refuses (operation unary rounds tightness) := by
  induction tightness with
  | nil => exact h
  | cons level tighter ih => exact ih.bind

theorem refuses_expressions (limit : Limit) (rounds : Nat) :
    Refuses (expression limit rounds) ∧ Refuses (unary limit rounds)
      ∧ Refuses (call limit rounds) := by
  induction rounds with
  | zero => exact ⟨.outOfRounds, .outOfRounds, .outOfRounds⟩
  | succ rounds ih =>
    obtain ⟨-, hunary, hcall⟩ := ih
    exact ⟨(refuses_operation hunary rounds levels).bind, .takeIf_bind rfl hcall,
      (refuses_primary _).bind⟩

/-- The loop of a `for` with other lines and numbers is that of the clauses with them. -/
theorem forLoop_relabel (g : Relabel) (initializer : Option Stmt) (increment : Option Expr)
    (body : Stmt) (condition : Expr) :
    (forLoop initializer condition increment body).relabel g
      = forLoop (initializer.map (Stmt.relabel g)) (condition.relabel g)
        (increment.map (Expr.relabel g)) (body.relabel g) := by
  cases initializer <;> cases increment <;> rfl

namespace Parallel

section

variable {expression expression' : Reading Expr} {rounds rounds' : Nat}

/-! ### Expressions -/

/-- A token is not taken from what follows, if it would be no semicolon. -/
theorem takeIf_of_ends (hends : S.Ends open?) {accepts : Kind → Bool}
    (haccepts : accepts .semicolon = false) :
    Parallel S open? (Option.map (Token.relabel S.relabel)) (takeIf accepts) (takeIf accepts) :=
  takeIf_closed _ fun hopen t ht => by rw [hends hopen t ht, haccepts]

theorem accept_of_ends (hends : S.Ends open?) {k : Kind} (hk : Kind.semicolon ≠ k) :
    Parallel S open? (Option.map (Token.relabel S.relabel)) (accept k) (accept k) :=
  takeIf_of_ends hends (decide_eq_false hk)

protected theorem operations (hends : S.Ends open?) {level : Level} (hlevel : level ∈ levels)
    (hoperand : Parallel S open? (Expr.relabel S.relabel) expression expression')
    (hrounds : Suffices S.exact rounds rounds') (left : Expr) :
    Parallel S open? (Expr.relabel S.relabel) (operations level expression left rounds)
      (operations level expression' (left.relabel S.relabel) rounds') := by
  induction rounds generalizing rounds' left with
  | zero => exact .outOfRounds fun he => by rw [hrounds.2 he]; rfl
  | succ rounds ih =>
    obtain ⟨rounds', rfl⟩ := hrounds.exists_succ
    have hsemicolon : ∀ l ∈ levels, l.operators.contains .semicolon = false := by decide
    refine (takeIf_of_ends hends (hsemicolon level hlevel)).bind fun operator? => ?_
    cases operator? with
    | none => exact .pure rfl
    | some operator =>
      refine hoperand.bind fun right => ?_
      refine (Parallel.node fun n => ?_).bind fun joined => ih hrounds.pred joined
      simp only [levels, List.mem_cons, List.not_mem_nil, or_false] at hlevel
      rcases hlevel with rfl | rfl | rfl | rfl | rfl | rfl <;> rfl

protected theorem operation (hends : S.Ends open?) {tightness : List Level}
    (hlevels : ∀ l ∈ tightness, l ∈ levels)
    (hunary : Parallel S open? (Expr.relabel S.relabel) expression expression')
    (hrounds : Suffices S.exact rounds rounds') :
    Parallel S open? (Expr.relabel S.relabel) (operation expression rounds tightness)
      (operation expression' rounds' tightness) := by
  induction tightness with
  | nil => exact hunary
  | cons level tighter ih =>
    have htighter := ih fun l hl => hlevels l (List.mem_cons_of_mem _ hl)
    exact htighter.bind fun left =>
      .operations hends (hlevels level List.mem_cons_self) htighter hrounds left

protected theorem accesses (hends : S.Ends open?) (limit : Limit)
    (hargument : Parallel S False (Expr.relabel S.relabel) expression expression')
    (hrounds : Suffices S.exact rounds rounds') (left : Expr) :
    Parallel S open? (Expr.relabel S.relabel) (accesses limit expression left rounds)
      (accesses limit expression' (left.relabel S.relabel) rounds') := by
  induction rounds generalizing rounds' left with
  | zero => exact .outOfRounds fun he => by rw [hrounds.2 he]; rfl
  | succ rounds ih =>
    obtain ⟨rounds', rfl⟩ := hrounds.exists_succ
    refine (accept_of_ends hends (by decide)).bind fun t? => ?_
    rw [Option.isSome_map]
    split
    · refine (Parallel.listedOrNone limit .arguments hargument hrounds.pred).bind_of_refuses
        (fun args => ?_) fun args => (Refuses.expect (by decide)).bind
      refine (Parallel.expect _ _).bind fun paren => ?_
      refine (Parallel.node fun n => ?_).bind fun call => ih hrounds.pred call
      rw [Expr.relabel, Expr.relabelEach_eq_map]
    · refine (accept_of_ends hends (by decide)).bind fun t? => ?_
      rw [Option.isSome_map]
      split
      · refine (Parallel.expect _ _).bind fun name => ?_
        exact (Parallel.node fun n => rfl).bind fun property => ih hrounds.pred property
      · exact .pure rfl

protected theorem assignTo (target : Expr) (equals : Token) (value : Expr) :
    Parallel S open? (Expr.relabel S.relabel) (assignTo target equals value)
      (assignTo (target.relabel S.relabel) (equals.relabel S.relabel)
        (value.relabel S.relabel)) := by
  cases target with
  | var _ name =>
    show Parallel S open? _ (node (.assign · name value)) (node (.assign · _ _))
    exact .node fun n => rfl
  | get _ object name =>
    show Parallel S open? _ (node (.set · object name value)) (node (.set · _ _ _))
    exact .node fun n => rfl
  | _ => exact (Parallel.report equals _).bind fun _ => .pure rfl

protected theorem primaryFrom (h : Parallel S False (Expr.relabel S.relabel) expression expression')
    (t : Token) :
    Parallel S open? (Expr.relabel S.relabel) (primaryFrom expression t)
      (primaryFrom expression' (t.relabel S.relabel)) := by
  unfold Parser.primaryFrom
  rw [Token.relabel_kind]
  split
  · exact .node fun n => rfl
  · exact .node fun n => rfl
  · exact .node fun n => rfl
  · exact .node fun n => rfl
  · exact .node fun n => rfl
  · exact .node fun n => rfl
  · exact (Parallel.expect _ _).bind fun _ => (Parallel.expect _ _).bind fun _ => .node fun n => rfl
  · exact .node fun n => rfl
  · exact h.bind_of_refuses (fun inner => (Parallel.expect _ _).bind fun _ => .node fun n => rfl)
      fun inner => (Refuses.expect (by decide)).bind
  · exact .fail _

protected theorem primary (hends : S.Ends open?)
    (h : Parallel S False (Expr.relabel S.relabel) expression expression') :
    Parallel S open? (Expr.relabel S.relabel) (primary expression) (primary expression') := by
  rw [primary_eq, primary_eq]
  refine (takeIf_of_ends hends rfl).bind fun t? => ?_
  cases t? with
  | none => exact .fail _
  | some t => exact .primaryFrom h t

end

/-- What is read of expressions from both lists, if the rounds suffice. -/
structure Expressions (S : Setting) (open? : Prop) (limit : Limit) (rounds rounds' : Nat) :
    Prop where
  expression : Parallel S open? (Expr.relabel S.relabel) (expression limit rounds)
    (expression limit rounds')
  unary : Parallel S open? (Expr.relabel S.relabel) (unary limit rounds) (unary limit rounds')
  call : Parallel S open? (Expr.relabel S.relabel) (call limit rounds) (call limit rounds')

/-- All expressions are read from both lists. What stands between parentheses is not at the end of
the list, whether the whole is or not. -/
theorem expressions (limit : Limit) (rounds : Nat) :
    ∀ {rounds' : Nat} {open? : Prop}, S.Ends open? → Suffices S.exact rounds rounds' →
      Expressions S open? limit rounds rounds' := by
  induction rounds with
  | zero =>
    intro rounds' open? _ hrounds
    exact ⟨.outOfRounds fun he => by rw [hrounds.2 he]; rfl,
      .outOfRounds fun he => by rw [hrounds.2 he]; rfl,
      .outOfRounds fun he => by rw [hrounds.2 he]; rfl⟩
  | succ rounds ih =>
    intro rounds' open? hends hrounds
    obtain ⟨rounds', rfl⟩ := hrounds.exists_succ
    have hinner := (ih S.ends_false hrounds.pred).expression
    obtain ⟨hexpression, hunary, hcall⟩ := ih hends hrounds.pred
    refine ⟨?_, ?_, ?_⟩
    · refine (Parallel.operation hends (fun _ hl => hl) hunary hrounds.pred).bind fun target => ?_
      refine (accept_of_ends hends (by decide)).bind fun t? => ?_
      cases t? with
      | none => exact .pure rfl
      | some equals => exact hexpression.bind fun value => .assignTo target equals value
    · refine (takeIf_of_ends hends rfl).bind fun t? => ?_
      cases t? with
      | none => exact hcall
      | some operator => exact hunary.bind fun right => .node fun n => rfl
    · exact (Parallel.primary hends hinner).bind fun left =>
        .accesses hends limit hinner hrounds.pred left

/-! ### Statements -/

section

variable {limit : Limit} {rounds rounds' : Nat} {expression expression' : Reading Expr}
  {statement statement' : Reading Stmt}

protected theorem block {declaration declaration' : Reading (Option Stmt)}
    (h : Parallel S False (Option.map (Stmt.relabel S.relabel)) declaration declaration')
    (hrounds : Suffices S.exact rounds rounds') :
    Parallel S open? (Stmt.relabelEach S.relabel) (block declaration rounds)
      (block declaration' rounds') := by
  refine (Parallel.upTo _ h hrounds).bind_of_refuses (fun body => ?_) fun body =>
    (Refuses.expect (by decide)).bind
  refine (Parallel.expect _ _).bind fun _ => .pure ?_
  rw [Stmt.relabelEach_eq_map, List.reduceOption_map]

protected theorem routine {block block' : Reading (List Stmt)}
    (h : Parallel S open? (Stmt.relabelEach S.relabel) block block')
    (hrounds : Suffices S.exact rounds rounds') (kind : RoutineKind) :
    Parallel S open? (Routine.relabel S.relabel) (routine limit block rounds kind)
      (routine limit block' rounds' kind) := by
  refine (Parallel.expect _ _).bind fun name => (Parallel.expect _ _).bind fun _ => ?_
  refine (Parallel.listedOrNone limit _ (Parallel.expect _ _) hrounds).bind_of_refuses
    (fun params => ?_) fun params => (Refuses.expect (by decide)).bind
  refine (Parallel.expect _ _).bind fun _ => (Parallel.expect _ _).bind fun _ => ?_
  exact h.bind fun body => .pure rfl

protected theorem classDecl {method method' : Reading Routine}
    (h : Parallel S False (Routine.relabel S.relabel) method method')
    (hrounds : Suffices S.exact rounds rounds') :
    Parallel S open? (Stmt.relabel S.relabel) (classDecl method rounds)
      (classDecl method' rounds') := by
  have hbody (name : Token) (superclass : Option Expr) :
      Parallel S open? (Stmt.relabel S.relabel)
        (do
          let _ ← expect .leftBrace .classBodyStart
          let methods ← upTo (· = .rightBrace) method rounds
          let _ ← expect .rightBrace .classBodyEnd
          return .classDecl name superclass methods)
        (do
          let _ ← expect .leftBrace .classBodyStart
          let methods ← upTo (· = .rightBrace) method' rounds'
          let _ ← expect .rightBrace .classBodyEnd
          return .classDecl (name.relabel S.relabel) (superclass.map (Expr.relabel S.relabel))
            methods) := by
    refine (Parallel.expect _ _).bind fun _ => ?_
    refine (Parallel.upTo _ h hrounds).bind_of_refuses (fun methods => ?_) fun methods =>
      (Refuses.expect (by decide)).bind
    refine (Parallel.expect _ _).bind fun _ => .pure ?_
    rw [Stmt.relabel, Routine.relabelEach_eq_map]
  refine (Parallel.expect _ _).bind fun name => ?_
  refine Parallel.accept_ite ?_ (hbody name none) (Refuses.expect (by decide)).bind
  refine (Parallel.expect _ _).bind fun ancestor => ?_
  have hnode : Parallel S open? (Expr.relabel S.relabel) (node (.var · ancestor))
      (node (.var · (ancestor.relabel S.relabel))) := .node fun n => rfl
  exact hnode.some_map.bind fun superclass => hbody name superclass

protected theorem varDecl
    (h : Parallel S False (Expr.relabel S.relabel) expression expression') :
    Parallel S open? (Stmt.relabel S.relabel) (varDecl expression) (varDecl expression') := by
  have hend (name : Token) (initializer : Option Expr) :
      Parallel S open? (Stmt.relabel S.relabel)
        (do
          let _ ← expect .semicolon .variableEnd
          return .varDecl name initializer)
        (do
          let _ ← expect .semicolon .variableEnd
          return .varDecl (name.relabel S.relabel) (initializer.map (Expr.relabel S.relabel))) :=
    (Parallel.expect _ _).bind fun _ => .pure rfl
  refine (Parallel.expect _ _).bind fun name => ?_
  refine Parallel.accept_ite ?_ (hend name none) (Refuses.expect (by decide)).bind
  exact h.some_map.bind_of_refuses (fun initializer => hend name initializer) fun _ =>
    (Refuses.expect (by decide)).bind

protected theorem expressionStatement
    (h : Parallel S False (Expr.relabel S.relabel) expression expression') :
    Parallel S open? (Stmt.relabel S.relabel) (expressionStatement expression)
      (expressionStatement expression') :=
  h.bind_of_refuses (fun _ => (Parallel.expect _ _).bind fun _ => .pure rfl) fun _ =>
    (Refuses.expect (by decide)).bind

protected theorem condition (start : Expectation)
    (h : Parallel S False (Expr.relabel S.relabel) expression expression') :
    Parallel S open? (Expr.relabel S.relabel) (condition start expression)
      (condition start expression') := by
  refine (Parallel.expect _ _).bind fun _ => ?_
  exact h.bind_of_refuses (fun _ => (Parallel.expect _ _).bind fun _ => .pure rfl) fun _ =>
    (Refuses.expect (by decide)).bind

protected theorem ifStatement (hclosed : S.Closed open?)
    (h : Parallel S False (Expr.relabel S.relabel) expression expression')
    (hstatement : Parallel S open? (Stmt.relabel S.relabel) statement statement') :
    Parallel S open? (Stmt.relabel S.relabel) (ifStatement expression statement)
      (ifStatement expression' statement') := by
  refine (Parallel.condition _ h).bind fun condition => hstatement.bind fun thenBranch => ?_
  refine (Parallel.accept_of_follow _ hclosed).bind fun t? => ?_
  rw [Option.isSome_map]
  split
  · exact hstatement.bind fun elseBranch => .pure rfl
  · exact .pure rfl

protected theorem whileStatement
    (h : Parallel S False (Expr.relabel S.relabel) expression expression')
    (hstatement : Parallel S open? (Stmt.relabel S.relabel) statement statement') :
    Parallel S open? (Stmt.relabel S.relabel) (whileStatement expression statement)
      (whileStatement expression' statement') :=
  (Parallel.condition _ h).bind fun _ => hstatement.bind fun _ => .pure rfl

protected theorem forInitializer (hrefuses : Refuses expression)
    (h : Parallel S False (Expr.relabel S.relabel) expression expression') :
    Parallel S open? (Option.map (Stmt.relabel S.relabel)) (forInitializer expression)
      (forInitializer expression') := by
  have hstatement : Refuses (some <$> expressionStatement expression) := hrefuses.bind.map
  refine Parallel.accept_ite (.pure rfl) ?_ (.accept_ite (by decide) hstatement)
  exact Parallel.accept_ite (Parallel.varDecl h).some_map (Parallel.expressionStatement h).some_map
    hstatement

protected theorem forStatement (hrefuses : Refuses expression)
    (h : Parallel S False (Expr.relabel S.relabel) expression expression')
    (hstatement : Parallel S open? (Stmt.relabel S.relabel) statement statement') :
    Parallel S open? (Stmt.relabel S.relabel) (forStatement expression statement)
      (forStatement expression' statement') := by
  refine (Parallel.expect _ _).bind fun _ => (Parallel.forInitializer hrefuses h).bind
    fun initializer => ?_
  refine (Parallel.unlessNext _ h).bind_of_refuses (fun condition => ?_) fun _ =>
    (Refuses.expect (by decide)).bind
  refine (Parallel.expect _ _).bind fun _ => ?_
  refine (Parallel.unlessNext _ h).bind_of_refuses (fun increment => ?_) fun _ =>
    (Refuses.expect (by decide)).bind
  refine (Parallel.expect _ _).bind fun _ => hstatement.bind fun body => ?_
  have hloop := forLoop_relabel S.relabel initializer increment body
  cases condition with
  | some e => exact .pure (hloop e).symm
  | none =>
    exact (Parallel.node fun n => rfl).bind fun condition => .pure (hloop condition).symm

protected theorem returnStatement (keyword : Token)
    (h : Parallel S False (Expr.relabel S.relabel) expression expression') :
    Parallel S open? (Stmt.relabel S.relabel) (returnStatement keyword expression)
      (returnStatement (keyword.relabel S.relabel) expression') :=
  (Parallel.unlessNext _ h).bind_of_refuses (fun _ => (Parallel.expect _ _).bind fun _ => .pure rfl)
    fun _ => (Refuses.expect (by decide)).bind

end

theorem starts_expressionStatement {expression expression' : Reading Expr}
    (hrefuses : Refuses expression)
    (h : Parallel S False (Expr.relabel S.relabel) expression expression') :
    Starts S open? (Stmt.relabel S.relabel) (expressionStatement expression)
      (expressionStatement expression') :=
  ⟨.expressionStatement h, hrefuses.bind, .bind_right h.onward fun _ =>
    (Consumes.expect _ _).bind_left fun _ s _ _ hs => by cases hs; exact .refl s⟩

/-- All statements are read from both lists. -/
theorem statements (limit : Limit) (rounds : Nat) :
    ∀ {open? : Prop}, S.Closed open? → ∀ {rounds' : Nat}, Suffices S.exact rounds rounds' →
      Recovers S open? (Option.map (Stmt.relabel S.relabel)) (declaration limit rounds)
          (declaration limit rounds')
        ∧ Starts S open? (Stmt.relabel S.relabel) (statement limit rounds)
          (statement limit rounds') := by
  induction rounds with
  | zero =>
    intro open? hclosed rounds' hrounds
    exact ⟨.outOfRounds fun he => by rw [hrounds.2 he]; rfl,
      .outOfRounds fun he => by rw [hrounds.2 he]; rfl⟩
  | succ rounds ih =>
    intro open? hclosed rounds' hrounds
    obtain ⟨rounds', rfl⟩ := hrounds.exists_succ
    obtain ⟨-, hstatement⟩ := ih hclosed hrounds.pred
    have hwithin : S.Closed False := fun h => h.elim
    obtain ⟨hinner, -⟩ := ih hwithin hrounds.pred
    have hexpression := (expressions limit rounds S.ends_false hrounds.pred).expression
    have hblock {open? : Prop} : Parallel S open? (Stmt.relabelEach S.relabel)
        (block (declaration limit rounds) rounds) (block (declaration limit rounds') rounds') :=
      .block hinner.parallel hrounds.pred
    constructor
    · refine .of_starts (.choice (by decide) ?_ (.choice (by decide) ?_ (.choice (by decide) ?_
        hstatement)))
      · exact .classDecl (.routine hblock hrounds.pred _) hrounds.pred
      · exact (Parallel.routine hblock hrounds.pred _).map fun r => rfl
      · exact .varDecl hexpression
    · have hrefuses := (refuses_expressions limit rounds).1
      have hbraced : Parallel S open? (Stmt.relabel S.relabel)
          (.block <$> block (declaration limit rounds) rounds)
          (.block <$> block (declaration limit rounds') rounds') := hblock.map fun body => rfl
      refine .choice (by decide) ?_ (.choice (by decide) ?_ (.choice (by decide) ?_
        (.accept_bind (by decide) (fun keyword => ?_) (.choice (by decide) hbraced
          (starts_expressionStatement hrefuses hexpression)))))
      · exact .forStatement hrefuses hexpression hstatement.parallel
      · exact .ifStatement hclosed hexpression hstatement.parallel
      · exact .whileStatement hexpression hstatement.parallel
      · exact .returnStatement keyword hexpression

end Parallel

end Parser

end Lox
