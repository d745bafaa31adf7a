import Lox.Program.Parser
import Lox.Proofs.Parsing.Relabeled
import Lox.Proofs.Renaming.Readings

/-!
The grammar on tokens of which some have the new name. One lemma for each rule says that the tree with
the new name is read, for any marks of the scopes around it, from tokens that have the new name where
the tree has it (`Rereads.statements`). So the program with the new name is read from tokens that
differ from those of the program in some identifiers, and with the same numbers
(`parseProgram_rename`).
-/

namespace Lox

namespace Renaming

open Lox.Parser

section

variable (R : Renaming)

/-- The second reading makes the expression that the first one makes, with the new name. -/
abbrev RereadsExpr (ties : Nat → Bool) : Reading Expr → Reading Expr → Prop :=
  R.Rereads fun e e' => e' = e.rename R ties

/-- The second reading makes the statement that the first one makes, with the new name. -/
abbrev RereadsStmt (place : ScopePlace) (marks : List Bool) : Reading Stmt → Reading Stmt → Prop :=
  R.Rereads fun s s' => s' = s.rename R place marks

end

variable {R : Renaming} {limit : Limit} {rounds : Nat}

/-! ### Expressions -/

/-- Where the name that is assigned to was read as a variable, this variable is tied to what the
assignment is tied to. -/
def targetTies (ties : Nat → Bool) (target e : Expr) : Nat → Bool :=
  match target with
  | .var id _ => Function.update ties id (ties e.id)
  | _ => ties

namespace Rereads

section

variable {ties : Nat → Bool} {expression : Reading Expr}

protected theorem operations {level : Level} (hlevel : level ∈ levels)
    (h : R.RereadsExpr ties expression expression) (left : Expr) :
    R.RereadsExpr ties (operations level expression left rounds)
      (operations level expression (left.rename R ties) rounds) := by
  induction rounds generalizing left with
  | zero => exact .outOfRounds
  | succ rounds ih =>
    refine (Rereads.takeIf (f := id) fun t _ => .refl t).bind fun operator? => ?_
    cases operator? with
    | none => exact .pure rfl
    | some operator =>
      refine h.bind fun right => ?_
      refine (Rereads.node (r := fun e e' => e' = e.rename R ties) fun n => ?_).bind
        fun joined => ih joined
      simp only [levels, List.mem_cons, List.not_mem_nil, or_false] at hlevel
      rcases hlevel with rfl | rfl | rfl | rfl | rfl | rfl <;> rfl

protected theorem operation {tightness : List Level} (hlevels : ∀ l ∈ tightness, l ∈ levels)
    (h : R.RereadsExpr ties expression expression) :
    R.RereadsExpr ties (operation expression rounds tightness)
      (operation expression rounds tightness) := by
  induction tightness with
  | nil => exact h
  | cons level tighter ih =>
    have htighter := ih fun l hl => hlevels l (List.mem_cons_of_mem _ hl)
    exact htighter.bind fun left => .operations (hlevels level List.mem_cons_self) htighter left

protected theorem accesses
    (h : R.RereadsExpr ties expression expression) (left : Expr) :
    R.RereadsExpr ties (accesses limit expression left rounds)
      (accesses limit expression (left.rename R ties) rounds) := by
  induction rounds generalizing left with
  | zero => exact .outOfRounds
  | succ rounds ih =>
    refine accept_ite ?_ (accept_ite ?_ (.pure rfl))
    · refine (Rereads.listedOrNone limit .arguments h rounds).bind fun arguments => ?_
      refine (Rereads.expect _ _).bind (f := id) fun paren => ?_
      refine (Rereads.node (r := fun e e' => e' = e.rename R ties) fun n => ?_).bind
        fun call => ih call
      rw [Expr.rename, Expr.renameEach_eq_map]
      rfl
    · refine (Rereads.expect _ _).bind (f := id) fun name => ?_
      exact (Rereads.node (r := fun e e' => e' = e.rename R ties) fun n => rfl).bind
        fun property => ih property

/-- A name is read before it has the number that says whether it is tied to a chosen scope. -/
protected theorem primaryFrom
    (h : R.RereadsExpr ties expression expression) (marked : Bool)
    (t : Token) :
    R.Rereads (fun e e' => marked = ties e.id → e' = e.rename R ties) (primaryFrom expression t)
      (primaryFrom expression (if t.kind = .identifier then R.token marked t else t)) := by
  obtain ⟨kind, lexeme, line⟩ := t
  unfold Parser.primaryFrom
  cases kind with
  | identifier =>
    show R.Rereads _ (node (.var · _)) (node (.var · (R.token marked ⟨.identifier, lexeme, line⟩)))
    refine .node ?_
    rintro n rfl
    rfl
  | kwSuper =>
    refine (Rereads.expect _ _).bind (f := id) fun _ => ?_
    refine (Rereads.expect _ _).bind (f := id) fun method => .node ?_
    exact fun n _ => rfl
  | leftParen =>
    refine h.bind fun inner => (Rereads.expect _ _).bind (f := id) fun _ => .node ?_
    exact fun n _ => rfl
  | kwFalse | kwTrue | kwNil | number | string | kwThis =>
    refine .node ?_
    exact fun n _ => rfl
  | _ => exact .fail _

protected theorem primary
    (h : R.RereadsExpr ties expression expression) :
    R.RereadsExpr ties (primary expression) (primary expression) := by
  rw [primary_eq]
  refine bind_late (fun _ e => ties e.id) (fun marked => Rereads.takeIf
    (f := fun t => if t.kind = .identifier then R.token marked t else t) fun t _ => ?_)
    fun marked t? => ?_
  · split
    · rename_i ht
      exact respelled_token ht marked
    · exact .refl t
  · cases t? with
    | none => exact .fail _
    | some t => exact .primaryFrom h marked t

/-- What follows a target. -/
protected theorem assignment
    (h : R.RereadsExpr ties expression expression)
    (ties' : Nat → Bool) (target : Expr) :
    R.Rereads (fun e e' => ties' = targetTies ties target e → e' = e.rename R ties)
      (accept .equal >>= fun t? => match t? with
        | none => pure target
        | some equals => expression >>= fun value => assignTo target equals value)
      (accept .equal >>= fun t? => match t? with
        | none => pure (target.rename R ties')
        | some equals => expression >>= fun value =>
          assignTo (target.rename R ties') equals value) := by
  refine (Rereads.accept .equal).bind (f := id) fun t? => ?_
  cases t? with
  | none =>
    refine .pure fun hties => ?_
    rw [hties]
    cases target with
    | var id name => rw [targetTies, show (Expr.var id name).id = id from rfl, Function.update_eq_self]
    | _ => rfl
  | some equals =>
    refine h.bind fun value => ?_
    cases target with
    | var id name =>
      show R.Rereads _ (node (.assign · name value)) (node (.assign · _ _))
      refine .node ?_
      rintro n rfl
      simp [targetTies, Expr.rename, Expr.id]
    | get id object name =>
      show R.Rereads _ (node (.set · object name value)) (node (.set · _ _ _))
      refine .node ?_
      rintro n rfl
      rfl
    | _ => exact .report_pure

end

/-- All expressions are read with the new name. -/
theorem expressions (limit : Limit) (rounds : Nat) (ties : Nat → Bool) :
    R.RereadsExpr ties (expression limit rounds) (expression limit rounds)
      ∧ R.RereadsExpr ties (unary limit rounds) (unary limit rounds)
      ∧ R.RereadsExpr ties (call limit rounds) (call limit rounds) := by
  induction rounds generalizing ties with
  | zero => exact ⟨.outOfRounds, .outOfRounds, .outOfRounds⟩
  | succ rounds ih =>
    refine ⟨?_, ?_, ?_⟩
    · exact bind_late (f := fun ties' target => target.rename R ties') (targetTies ties)
        (fun ties' => .operation (fun _ hl => hl) (ih ties').2.1)
        fun ties' target => .assignment (ih ties).1 ties' target
    · refine (Rereads.takeIf (f := id) fun t _ => .refl t).bind fun t? => ?_
      cases t? with
      | none => exact (ih ties).2.2
      | some operator => exact (ih ties).2.1.bind fun right => .node fun n => rfl
    · exact (Rereads.primary (ih ties).1).bind fun left => .accesses (ih ties).1 left

/-! ### Statements -/

section

variable {place : ScopePlace} {marks : List Bool} {expression : Reading Expr}
  {statement : Reading Stmt}

/-- Declarations of which each has been read. -/
theorem reduceOption_mapIdx {as : List (Option Stmt)} (has : ∀ a ∈ as, a.isSome = true) (i : Nat) :
    (as.mapIdx fun j => Option.map (Stmt.rename R ((i + j) :: place) marks)).reduceOption
      = Stmt.renameEach R place marks i as.reduceOption := by
  induction as generalizing i with
  | nil => rfl
  | cons a as ih =>
    rw [List.forall_mem_cons] at has
    obtain ⟨s, rfl⟩ := Option.isSome_iff_exists.1 has.1
    have hrest := ih has.2 (i + 1)
    simp only [Nat.add_assoc, Nat.add_comm 1] at hrest
    rw [List.mapIdx_cons, Option.map_some, List.reduceOption_cons_of_some,
      List.reduceOption_cons_of_some, Stmt.renameEach, hrest]
    rfl

protected theorem block {declaration : Reading (Option Stmt)}
    (h : ∀ i, R.Rereads
      (fun s s' => s.isSome = true ∧ s' = s.map (Stmt.rename R (i :: place) marks))
      declaration declaration) :
    R.Rereads (fun b b' => b' = Stmt.renameEach R place marks 0 b) (block declaration rounds)
      (block declaration rounds) := by
  refine (Rereads.upTo (· = .rightBrace) h rounds 0).bind_of fun body => ?_
  refine (Rereads.expect _ _).bind (f := id) fun _ => .pure fun hbody => ?_
  exact reduceOption_mapIdx hbody 0

protected theorem routine {block : Reading (List Stmt)}
    (h : R.Rereads (fun b b' => b' = Stmt.renameEach R place (R.chosen place :: marks) 0 b) block
      block) (kind : RoutineKind) :
    R.Rereads (fun r r' => r' = r.rename R place marks) (routine limit block rounds kind)
      (routine limit block rounds kind) := by
  refine (Rereads.expect _ _).bind (f := id) fun name => ?_
  refine (Rereads.expect _ _).bind (f := id) fun _ => ?_
  refine (Rereads.listedOrNone limit _ (expect_name (R.chosen place) _) rounds).bind
    fun params => ?_
  refine (Rereads.expect _ _).bind (f := id) fun _ => ?_
  exact (Rereads.expect _ _).bind (f := id) fun _ => h.bind fun body => .pure rfl

theorem renameEach_eq_mapIdx (methods : List Routine) (i : Nat) :
    Routine.renameEach R place marks i methods
      = methods.mapIdx fun j => Routine.rename R ((i + j) :: place) marks := by
  induction methods generalizing i with
  | nil => rfl
  | cons r rest ih =>
    rw [Routine.renameEach, ih, List.mapIdx_cons]
    simp only [Nat.add_assoc, Nat.add_comm 1]
    rfl

/-- A class from its body on. -/
theorem classBody {method : Reading Routine}
    (h : ∀ i, R.Rereads (fun r r' => r' = r.rename R (i :: place) marks) method method)
    (name : Token) (superclass superclass' : Option Expr) :
    R.Rereads
      (fun s s' : Stmt => ∃ methods, s = .classDecl name superclass methods
        ∧ s' = .classDecl name superclass' (Routine.renameEach R place marks 0 methods))
      (do
        let _ ← expect .leftBrace .classBodyStart
        let methods ← upTo (· = .rightBrace) method rounds
        let _ ← expect .rightBrace .classBodyEnd
        return Stmt.classDecl name superclass methods)
      (do
        let _ ← expect .leftBrace .classBodyStart
        let methods ← upTo (· = .rightBrace) method rounds
        let _ ← expect .rightBrace .classBodyEnd
        return .classDecl name superclass' methods) := by
  refine (Rereads.expect _ _).bind (f := id) fun _ => ?_
  have hmethods := Rereads.upTo (P := fun _ => True) (· = .rightBrace)
    (fun i => (h i).imp fun _ _ hr => ⟨trivial, hr⟩) rounds 0
  refine hmethods.bind_of fun methods => ?_
  refine (Rereads.expect _ _).bind (f := id) fun _ => .pure fun _ => ⟨methods, rfl, ?_⟩
  rw [renameEach_eq_mapIdx]

/-- Whether the superclass of a class is tied to a chosen scope. -/
def tiesSuperclass (ties : Nat → Bool) : Stmt → Bool
  | .classDecl _ (some ancestor) _ => ties ancestor.id
  | _ => false

protected theorem classDecl {method : Reading Routine}
    (h : ∀ i marks, R.Rereads (fun r r' => r' = r.rename R (i :: place) marks) method method) :
    R.RereadsStmt place marks (classDecl method rounds)
      (classDecl method rounds) := by
  refine (Rereads.expect _ _).bind (f := id) fun name => accept_ite ?_ ?_
  · refine bind_late (f := fun marked => R.token marked)
      (fun _ s => tiesSuperclass (R.ties marks) s) (fun marked => expect_name marked _)
      fun marked ancestor => ?_
    have hnode : R.Rereads (fun e e' => (∃ n, e = some (.var n ancestor))
        ∧ e' = e.map fun e => .var e.id (R.token marked ancestor))
        (some <$> node (.var · ancestor)) (some <$> node (.var · (R.token marked ancestor))) := by
      rw [map_eq_pure_bind, map_eq_pure_bind]
      have hvar : R.Rereads (fun e e' => (∃ n, e = .var n ancestor)
          ∧ e' = .var e.id (R.token marked ancestor)) (node (.var · ancestor))
          (node (.var · (R.token marked ancestor))) := .node fun n => ⟨⟨n, rfl⟩, rfl⟩
      refine hvar.bind_of fun e => .pure ?_
      rintro ⟨n, rfl⟩
      exact ⟨⟨n, rfl⟩, rfl⟩
    refine hnode.bind_of fun superclass => ?_
    refine (classBody (h · (false :: false :: marks)) name _ _).imp ?_
    rintro _ _ ⟨methods, rfl, rfl⟩ ⟨n, rfl⟩ rfl
    rfl
  · refine (classBody (h · (false :: marks)) name none none).imp fun s s' hs => ?_
    obtain ⟨methods, rfl, rfl⟩ := hs
    rfl

protected theorem varDecl (h : ∀ ties, R.RereadsExpr ties expression expression) :
    R.RereadsStmt place marks (varDecl expression) (varDecl expression) := by
  have hend (name : Token) (initializer : Option Expr) :
      R.RereadsStmt place marks
        (do
          let _ ← expect .semicolon .variableEnd
          return Stmt.varDecl name initializer)
        (do
          let _ ← expect .semicolon .variableEnd
          return .varDecl (R.token (marks.headD false) name)
            (initializer.map (Expr.rename R (R.ties marks)))) :=
    (Rereads.expect _ _).bind (f := id) fun _ => .pure rfl
  refine (expect_name (marks.headD false) _).bind fun name => accept_ite ?_ (hend name none)
  exact (h (R.ties marks)).some_map.bind fun initializer => hend name initializer

protected theorem expressionStatement
    (h : ∀ ties, R.RereadsExpr ties expression expression) :
    R.RereadsStmt place marks (expressionStatement expression)
      (expressionStatement expression) :=
  (h (R.ties marks)).bind fun _ => (Rereads.expect _ _).bind (f := id) fun _ => .pure rfl

protected theorem condition (start : Expectation) {ties : Nat → Bool}
    (h : R.RereadsExpr ties expression expression) :
    R.RereadsExpr ties (condition start expression)
      (condition start expression) := by
  refine (Rereads.expect _ _).bind (f := id) fun _ => h.bind fun condition => ?_
  exact (Rereads.expect _ _).bind (f := id) fun _ => .pure rfl

protected theorem ifStatement (h : ∀ ties, R.RereadsExpr ties expression expression)
    (hstatement : ∀ place marks, R.RereadsStmt place marks statement statement) :
    R.RereadsStmt place marks (ifStatement expression statement)
      (ifStatement expression statement) := by
  refine (Rereads.condition _ (h (R.ties marks))).bind fun condition => ?_
  refine (hstatement (0 :: place) marks).bind fun thenBranch => accept_ite ?_ (.pure rfl)
  exact (hstatement (1 :: place) marks).bind fun elseBranch => .pure rfl

protected theorem whileStatement (h : ∀ ties, R.RereadsExpr ties expression expression)
    (hstatement : ∀ place marks, R.RereadsStmt place marks statement statement) :
    R.RereadsStmt place marks (whileStatement expression statement)
      (whileStatement expression statement) := by
  refine (Rereads.condition _ (h (R.ties marks))).bind fun condition => ?_
  exact (hstatement (0 :: place) marks).bind fun body => .pure rfl

protected theorem returnStatement (keyword : Token)
    (h : ∀ ties, R.RereadsExpr ties expression expression) :
    R.RereadsStmt place marks (returnStatement keyword expression)
      (returnStatement keyword expression) := by
  refine (Rereads.unlessNext _ (h (R.ties marks))).bind fun value => ?_
  exact (Rereads.expect _ _).bind (f := id) fun _ => .pure rfl

/-! ### The loops of `for` -/

/-- The place and the marks of the loop that a `for` stands for: if it has an initializer, the two are
in a block. -/
def loopScope (R : Renaming) (place : ScopePlace) (marks : List Bool) (initializer : Option Stmt) :
    ScopePlace × List Bool :=
  if initializer.isSome then (1 :: place, R.chosen place :: marks) else (place, marks)

/-- The place and the marks of the body of a `for`: if it has an increment, the two are in a block in
the loop. -/
def bodyScope (R : Renaming) (loop : ScopePlace × List Bool) (increment : Option Expr) :
    ScopePlace × List Bool :=
  if increment.isSome then (0 :: 0 :: loop.1, R.chosen (0 :: loop.1) :: loop.2)
  else (0 :: loop.1, loop.2)

/-- The clauses of a `for` with the new name. -/
theorem forLoop_rename (place : ScopePlace) (marks : List Bool) (initializer : Option Stmt)
    (condition : Expr) (increment : Option Expr) (body : Stmt) :
    let loop := loopScope R place marks initializer
    let inner := bodyScope R loop increment
    (forLoop initializer condition increment body).rename R place marks
      = forLoop (initializer.map (Stmt.rename R (0 :: place) (R.chosen place :: marks)))
        (condition.rename R (R.ties loop.2))
        (increment.map (Expr.rename R (R.ties (R.chosen (0 :: loop.1) :: loop.2))))
        (body.rename R inner.1 inner.2) := by
  cases initializer <;> cases increment <;> rfl

protected theorem forInitializer (place : ScopePlace) (marks : List Bool)
    (h : ∀ ties, R.RereadsExpr ties expression expression) :
    R.Rereads (fun s s' => s' = s.map (Stmt.rename R place marks)) (forInitializer expression)
      (forInitializer expression) :=
  accept_ite (.pure rfl)
    (accept_ite (Rereads.varDecl h).some_map (Rereads.expressionStatement h).some_map)

protected theorem forStatement (h : ∀ ties, R.RereadsExpr ties expression expression)
    (hstatement : ∀ place marks, R.RereadsStmt place marks statement statement) :
    R.RereadsStmt place marks (forStatement expression statement)
      (forStatement expression statement) := by
  refine (Rereads.expect _ _).bind (f := id) fun _ => ?_
  refine (Rereads.forInitializer (0 :: place) (R.chosen place :: marks) h).bind
    fun initializer => ?_
  have hloop := forLoop_rename (R := R) place marks initializer
  generalize loopScope R place marks initializer = loop at hloop
  refine (Rereads.unlessNext _ (h (R.ties loop.2))).bind fun condition => ?_
  refine (Rereads.expect _ _).bind (f := id) fun _ => ?_
  refine (Rereads.unlessNext _ (h (R.ties (R.chosen (0 :: loop.1) :: loop.2)))).bind
    fun increment => ?_
  refine (Rereads.expect _ _).bind (f := id) fun _ => ?_
  refine (hstatement (bodyScope R loop increment).1 (bodyScope R loop increment).2).bind
    fun body => ?_
  cases condition with
  | some e => exact .pure (hloop e increment body).symm
  | none =>
    refine (Rereads.node (r := fun e e' => e' = e.rename R (R.ties loop.2)) fun n => rfl).bind
      fun condition => .pure (hloop condition increment body).symm

end

/-- All statements are read with the new name. -/
theorem statements (limit : Limit) (rounds : Nat) (place : ScopePlace) (marks : List Bool) :
    R.Rereads (fun s s' => s.isSome = true ∧ s' = s.map (Stmt.rename R place marks))
        (declaration limit rounds) (declaration limit rounds)
      ∧ R.RereadsStmt place marks (statement limit rounds) (statement limit rounds) := by
  induction rounds generalizing place marks with
  | zero => exact ⟨.outOfRounds, .outOfRounds⟩
  | succ rounds ih =>
    have hexpression := fun ties => (expressions (R := R) limit rounds ties).1
    have hblock (place : ScopePlace) (marks : List Bool) :
        R.Rereads (fun b b' => b' = Stmt.renameEach R place marks 0 b)
          (block (declaration limit rounds) rounds) (block (declaration limit rounds) rounds) :=
      .block fun i => (ih (i :: place) marks).1
    have hroutine (kind : RoutineKind) (place : ScopePlace) (marks : List Bool) :
        R.Rereads (fun r r' => r' = r.rename R place marks)
          (routine limit (block (declaration limit rounds) rounds) rounds kind)
          (routine limit (block (declaration limit rounds) rounds) rounds kind) :=
      .routine (hblock place (R.chosen place :: marks)) kind
    have hstatement := fun place marks => (ih place marks).2
    constructor
    · refine .recovering (accept_ite ?_ (accept_ite ?_ (accept_ite ?_ (hstatement place marks))))
      · exact .classDecl fun i marks => hroutine .method (i :: place) marks
      · exact (hroutine .function place marks).map fun r => rfl
      · exact .varDecl hexpression
    · refine accept_ite ?_ (accept_ite ?_ (accept_ite ?_ ?_))
      · exact .forStatement hexpression hstatement
      · exact .ifStatement hexpression hstatement
      · exact .whileStatement hexpression hstatement
      · refine (Rereads.accept .kwReturn).bind (f := id) fun keyword? => ?_
        cases keyword? with
        | some keyword => exact .returnStatement keyword hexpression
        | none =>
          refine accept_ite ?_ (.expressionStatement hexpression)
          exact (hblock place (R.chosen place :: marks)).map fun body => rfl

/-- A whole program is read with the new name. -/
protected theorem program (limit : Limit) (rounds : Nat) :
    R.Rereads (fun p p' => p' = p.rename R) (program limit rounds) (program limit rounds) := by
  refine (Rereads.upTo (fun _ => false) (fun i => (statements limit rounds [i] []).1) rounds
    0).bind_of fun body => .pure fun hbody => ?_
  exact reduceOption_mapIdx hbody 0

end Rereads

/-! ### Programs -/

theorem find?_eof_of_respelled {ts us : List Token} (h : List.Forall₂ R.Respelled ts us) :
    us.find? (·.kind = .eof) = ts.find? (·.kind = .eof) := by
  induction h with
  | nil => rfl
  | @cons t u ts us ht _ ih =>
    rw [List.find?_cons, List.find?_cons, ih, ht.kind]
    by_cases hk : t.kind = .eof
    · rcases ht with rfl | ⟨hid, -, -⟩
      · rfl
      · cases hk.symm.trans hid
    · simp [hk]

theorem map_line_of_respelled {ts us : List Token} (h : List.Forall₂ R.Respelled ts us) :
    us.map Token.line = ts.map Token.line := by
  induction h with
  | nil => rfl
  | @cons t u ts us ht _ ih =>
    have hu : u.line = t.line := by rcases ht with rfl | ⟨-, -, rfl⟩ <;> rfl
    rw [List.map_cons, List.map_cons, ih, hu]

/-- The token that ends the list is the same. -/
theorem stop_of_respelled {ts us : List Token} (n : Nat) (h : List.Forall₂ R.Respelled ts us) :
    (Cursor.start n us).stop = (Cursor.start n ts).stop := by
  unfold Cursor.start
  rw [find?_eof_of_respelled h, ← List.getLast?_map, ← List.getLast?_map, map_line_of_respelled h]

/-- If tokens before the end are replaced, the list starts with the others and ends where it did. -/
theorem start_of_respelled (n : Nat) {ts us₁ ts₁ rest : List Token}
    (hrest : (Cursor.start n ts).rest = ts₁ ++ rest) (h : List.Forall₂ R.Respelled ts₁ us₁) :
    ∃ us, List.Forall₂ R.Respelled ts us
      ∧ Cursor.start n us = { Cursor.start n ts with rest := us₁ ++ rest } := by
  replace hrest : ts.takeWhile (·.kind ≠ .eof) = ts₁ ++ rest := hrest
  obtain ⟨tail, htail⟩ : ∃ tail, ts.takeWhile (·.kind ≠ .eof) ++ tail = ts :=
    ⟨_, List.takeWhile_append_dropWhile⟩
  have hsame : List.Forall₂ R.Respelled ts (us₁ ++ rest ++ tail) := by
    rw [← htail, hrest, List.append_assoc, List.append_assoc]
    exact List.rel_append h (List.forall₂_same.2 fun t _ => .refl t)
  refine ⟨_, hsame, ?_⟩
  have hopen : ∀ t ∈ ts.takeWhile (·.kind ≠ .eof), decide (t.kind ≠ .eof) = true :=
    List.all_eq_true.1 List.all_takeWhile
  have hend : tail.takeWhile (·.kind ≠ .eof) = [] := by
    have hbody : (ts.takeWhile (·.kind ≠ .eof) ++ tail).takeWhile (·.kind ≠ .eof)
        = ts.takeWhile (·.kind ≠ .eof) ++ tail.takeWhile (·.kind ≠ .eof) :=
      List.takeWhile_append_of_pos hopen
    rw [htail] at hbody
    exact List.self_eq_append_right.1 hbody
  have hopen' : ∀ t ∈ us₁ ++ rest, decide (t.kind ≠ .eof) = true := by
    intro t ht
    have hk : t.kind ∈ (ts.takeWhile (·.kind ≠ .eof)).map Token.kind := by
      rw [hrest, List.map_append, ← map_kind_of_respelled h, ← List.map_append]
      exact List.mem_map_of_mem ht
    obtain ⟨t', ht', hkind⟩ := List.mem_map.1 hk
    exact hkind ▸ hopen t' ht'
  show (⟨(us₁ ++ rest ++ tail).takeWhile (·.kind ≠ .eof),
    (Cursor.start n (us₁ ++ rest ++ tail)).stop, n, []⟩ : Cursor) = _
  rw [stop_of_respelled n hsame, List.takeWhile_append_of_pos hopen', hend, List.append_nil]
  rfl

/-- The program with the new name is read, with the same numbers, from tokens of which some have the
new name. -/
theorem parseProgram_rename {n k : Nat} {ts : List Token} {p : Program}
    (h : parseProgram limit n ts = ⟨.ok p, k⟩) :
    ∃ us, List.Forall₂ R.Respelled ts us ∧ parseProgram limit n us = ⟨.ok (p.rename R), k⟩ := by
  unfold parseProgram Cursor.parse at h
  split at h
  · rename_i q s₁ hp
    have hf : s₁.faults = [] := by
      by_contra hf
      rw [if_neg hf] at h
      cases h
    rw [if_pos hf] at h
    cases h
    obtain ⟨-, ts₁, us₁, _, hrest, hts, rfl, hp'⟩ := Rereads.program (R := R) limit _ _ _ _ hp hf
    obtain ⟨us, hsame, hstart⟩ := start_of_respelled n hrest hts
    refine ⟨us, hsame, ?_⟩
    unfold parseProgram Cursor.parse
    rw [hstart, roundsFor, ← hsame.length_eq, ← roundsFor, hp' s₁.rest rfl]
    dsimp only
    rw [if_pos hf]
  · cases h
  · cases h

end Renaming

end Lox
