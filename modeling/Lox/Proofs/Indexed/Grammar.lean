import Lox.Proofs.Indexed.Agreement

/-!
The grammar by places does what the readings do, whatever fuel it is given beyond their rounds: one
lemma for each rule, and the rules that call each other by induction on the rounds
(`Follows.expressions`, `Follows.statements`).
-/

namespace Lox.Indexed.Follows

open Lox.Parser (Cursor Level Reading levels primaryFrom reading_bind_ok startsPrimary)
open Scanning

variable {limit : Limit} {rounds fuel : Nat} {p : Reading Expr} {q : Scanning Expr}

/-! ### Expressions -/

/-- A call from its arguments on, as it is read. -/
def callFrom (limit : Limit) (argument : Reading Expr) (rounds : Nat) (callee : Expr) :
    Reading Expr := do
  let arguments ← Parser.listedOrNone limit .arguments argument rounds
  let paren ← Parser.expect .rightParen .argumentsEnd
  Parser.node (.call · callee paren arguments)

theorem accesses_succ (argument : Reading Expr) (left : Expr) :
    Parser.accesses limit argument left (rounds + 1) = Parser.accept .leftParen >>= fun t? =>
      if t?.isSome = true then
        callFrom limit argument rounds left >>= fun call =>
          Parser.accesses limit argument call rounds
      else Parser.accept .dot >>= fun t? =>
        if t?.isSome = true then
          Parser.expect .identifier .propertyName >>= fun name =>
            Parser.node (.get · left name) >>= fun property =>
              Parser.accesses limit argument property rounds
        else pure left := by
  simp only [Parser.accesses, callFrom, bind_assoc]

protected theorem finishCall (h : Follows p q) (hfuel : rounds ≤ fuel) (callee : Expr) :
    Follows (callFrom limit p rounds callee) (finishCall limit q callee fuel) :=
  listedOrNone_bind (.listed h hfuel 0) fun _ => (Follows.expect _ _).bind fun _ => .node _

protected theorem accesses (h : Follows p q) (hfuel : rounds ≤ fuel) (left : Expr) :
    Follows (Parser.accesses limit p left rounds) (accesses limit q left fuel) := by
  induction rounds generalizing fuel left with
  | zero => exact .outOfRounds
  | succ rounds ih =>
    obtain ⟨fuel, rfl⟩ := Nat.exists_eq_add_one.2 (Nat.lt_of_lt_of_le (Nat.succ_pos rounds) hfuel)
    have hfuel := Nat.le_of_succ_le_succ hfuel
    rw [accesses_succ]
    refine accept_ite ((Follows.finishCall h hfuel left).bind fun call => ih hfuel call)
      (accept_ite ?_ (.pure left))
    exact (Follows.expect _ _).bind fun name => (Follows.node _).bind fun property =>
      ih hfuel property

protected theorem operations (level : Level) (h : Follows p q) (hfuel : rounds ≤ fuel)
    (left : Expr) :
    Follows (Parser.operations level p left rounds) (operations level q left fuel) := by
  induction rounds generalizing fuel left with
  | zero => exact .outOfRounds
  | succ rounds ih =>
    obtain ⟨fuel, rfl⟩ := Nat.exists_eq_add_one.2 (Nat.lt_of_lt_of_le (Nat.succ_pos rounds) hfuel)
    refine looks_advance (fun b hb => .anyM_check hb _) (fun operator _ => ?_) (.pure left)
    exact h.bind fun right => (Follows.node _).bind fun joined =>
      ih (Nat.le_of_succ_le_succ hfuel) joined

protected theorem operation (h : Follows p q) (hfuel : rounds ≤ fuel) (tightness : List Level) :
    Follows (Parser.operation p rounds tightness) (operation q fuel tightness) := by
  induction tightness with
  | nil => exact h
  | cons level tighter ih => exact ih.bind fun left => .operations level ih hfuel left

protected theorem assignTo (target : Expr) (equals : Token) (value : Expr) :
    Follows (Parser.assignTo target equals value) (assignTo target equals value) := by
  cases target with
  | var _ name => exact Follows.node (.assign · name value)
  | get _ object name => exact Follows.node (.set · object name value)
  | _ => exact Follows.record.bind fun _ => .pure _

/-! ### Primary expressions -/

section

variable {b : Buffer} {q' : Scanning Expr} {tried : Kind → Prop}

/-- The next token is of none of the kinds that have been tried. -/
def Apart (tried : Kind → Prop) (b : Buffer) : Prop :=
  ∀ t ∈ b.cursor.rest.head?, ¬ tried t.kind

theorem primary_taken {s : Cursor} {t : Token} {rest : List Token} (hrest : s.rest = t :: rest)
    (ht : startsPrimary t.kind = true) :
    Parser.primary p s = primaryFrom p t { s with rest } := by
  rw [Parser.primary_eq]
  exact takeIf_taken hrest ht

/-- A word or mark is tried, and the others if it is not there. -/
theorem primary_accept {k : Kind} (hk : startsPrimary k = true) (hb : b.InBounds)
    (hapart : Apart tried b)
    (htaken : ∀ t b, t.kind = k → b.InBounds → b.Behind t → FollowsAt b (primaryFrom p t) q)
    (hleft : ∀ b, b.InBounds → Apart (fun k' => tried k' ∨ k' = k) b →
      FollowsAt b (Parser.primary p) q') :
    FollowsAt b (Parser.primary p) (accept k >>= fun taken => if taken = true then q else q') := by
  unfold FollowsAt
  rcases b.cases_head (· = k) with hhead | ⟨t, rest, hrest, ht⟩
  · obtain ⟨b', hq, hstill⟩ := (Takes.accept k b hb).1 hhead
    have hapart' : Apart (fun k' => tried k' ∨ k' = k) b' := by
      intro t ht
      rw [hstill.cursor] at ht
      rw [Option.mem_def.1 ht] at hhead
      exact not_or.2 ⟨hapart t ht, of_decide_eq_false hhead⟩
    rw [scanning_bind_ok hq, ← hstill.cursor]
    exact (hleft b' (hstill.inBounds hb) hapart').of_leads hstill.toLeads
  · obtain ⟨b', hq, hpasses⟩ := (Takes.accept k b hb).2 t rest hrest ht
    have hkind : t.kind = k := of_decide_eq_true ht
    rw [primary_taken hrest (hkind ▸ hk), scanning_bind_ok hq, ← hpasses.cursor]
    exact (htaken t b' hkind (hpasses.inBounds hb) hpasses.behind).of_leads hpasses.toLeads

/-- A number or a string, whose token has been looked at. -/
theorem primary_advance (hb : b.InBounds) {t : Token} (ht : b.cursor.next = t)
    (hstarts : startsPrimary t.kind = true) {value : Literal}
    (hfrom : primaryFrom p t = Parser.node (.literal · value)) :
    FollowsAt b (Parser.primary p) (advance >>= fun _ => node (.literal · value)) := by
  rcases hb.cases with ⟨-, hrest, -⟩ | ⟨t', -, -, -, hrest⟩
  · have hend : startsPrimary b.cursor.stop.kind = true := by
      rwa [← ht, Cursor.next, hrest] at hstarts
    rw [hb.stop_kind] at hend
    cases hend
  · have htt' : t' = t := by rw [← ht, Cursor.next, hrest, List.headD_cons]
    subst htt'
    obtain ⟨b', hadvance, hpasses⟩ := advance_passes hb hrest
    unfold FollowsAt
    rw [primary_taken hrest hstarts, scanning_bind_ok hadvance, ← hpasses.cursor, hfrom]
    exact (Follows.node _ b' (hpasses.inBounds hb)).of_leads hpasses.toLeads

theorem primary_refused (hb : b.InBounds)
    (hrefused : ∀ t ∈ b.cursor.rest.head?, startsPrimary t.kind = false) :
    FollowsAt b (Parser.primary p) (fail .expression) := by
  have hfail : Parser.primary p b.cursor = Parser.fail .expression b.cursor := by
    rw [Parser.primary_eq]
    refine takeIf_left ?_
    cases hr : b.cursor.rest.head? with
    | none => rfl
    | some t => exact hrefused t hr
  unfold FollowsAt
  rw [hfail]
  exact FollowsAt.fail hb .expression

end

protected theorem primary (h : Follows p q) : Follows (Parser.primary p) (primary q) := by
  intro b hb
  rw [primary]
  have hapart : Apart (fun _ => False) b := fun _ _ => id
  refine primary_accept rfl hb hapart (fun t b ht hb _ => ?_) fun b hb hapart => ?_
  · rw [primaryFrom, ht]
    exact Follows.node _ b hb
  refine primary_accept rfl hb hapart (fun t b ht hb _ => ?_) fun b hb hapart => ?_
  · rw [primaryFrom, ht]
    exact Follows.node _ b hb
  refine primary_accept rfl hb hapart (fun t b ht hb _ => ?_) fun b hb hapart => ?_
  · rw [primaryFrom, ht]
    exact Follows.node _ b hb
  refine .look (Looks.peek hb) fun b' hstill => ?_
  have hb' := hstill.inBounds hb
  rw [← hstill.cursor]
  generalize hnext : b'.cursor.next = t
  split
  case h_1 value hkind =>
    refine primary_advance hb' hnext (by rw [hkind]; rfl) ?_
    rw [primaryFrom, hkind]
  case h_2 contents hkind =>
    refine primary_advance hb' hnext (by rw [hkind]; rfl) ?_
    rw [primaryFrom, hkind]
  case h_3 hnumber hstring =>
    have hapart : Apart (fun k => ((((False ∨ k = .kwFalse) ∨ k = .kwTrue) ∨ k = .kwNil)
        ∨ ∃ value, k = .number value) ∨ ∃ contents, k = .string contents) b' := by
      intro u hu
      have hut : u = t := by
        rw [← hnext, Cursor.next, List.headD_eq_head?_getD, Option.mem_def.1 hu, Option.getD_some]
      rw [hstill.cursor] at hu
      refine not_or.2 ⟨not_or.2 ⟨hapart u hu, ?_⟩, ?_⟩
      · rintro ⟨value, hvalue⟩
        exact hnumber value (hut ▸ hvalue)
      · rintro ⟨contents, hcontents⟩
        exact hstring contents (hut ▸ hcontents)
    refine primary_accept rfl hb' hapart (fun t b ht hb hbehind => ?_) fun b hb hapart => ?_
    · rw [primaryFrom, ht]
      exact .look (.previous hb hbehind) fun b' hstill => Follows.node _ b' (hstill.inBounds hb)
    refine primary_accept rfl hb hapart (fun t b ht hb hbehind => ?_) fun b hb hapart => ?_
    · rw [primaryFrom, ht]
      refine .look (.previous hb hbehind) fun b' hstill => ?_
      have hsuper := (Follows.expect .dot .superDot).bind fun _ =>
        (Follows.expect .identifier .superMethodName).bind fun method =>
          Follows.node (.super · t method)
      exact hsuper b' (hstill.inBounds hb)
    refine primary_accept rfl hb hapart (fun t b ht hb hbehind => ?_) fun b hb hapart => ?_
    · rw [primaryFrom, ht]
      exact .look (.previous hb hbehind) fun b' hstill => Follows.node _ b' (hstill.inBounds hb)
    refine primary_accept rfl hb hapart (fun t b ht hb _ => ?_) fun b hb hapart => ?_
    · rw [primaryFrom, ht]
      have hgroup := h.bind fun inner => (Follows.expect .rightParen .groupEnd).bind fun _ =>
        Follows.node (.grouping · inner)
      exact hgroup b hb
    refine primary_refused hb fun t ht => Bool.eq_false_iff.2 fun hstarts => hapart t ht ?_
    revert hstarts
    cases t.kind <;> simp [startsPrimary]

/-- All expressions are read as the readings read them. -/
theorem expressions (limit : Limit) (rounds : Nat) :
    ∀ {fuel : Nat}, rounds ≤ fuel →
      Follows (Parser.expression limit rounds) (expression limit fuel)
        ∧ Follows (Parser.unary limit rounds) (unary limit fuel)
        ∧ Follows (Parser.call limit rounds) (call limit fuel) := by
  induction rounds with
  | zero =>
    intro fuel _
    exact ⟨.outOfRounds, .outOfRounds, .outOfRounds⟩
  | succ rounds ih =>
    intro fuel hfuel
    obtain ⟨fuel, rfl⟩ := Nat.exists_eq_add_one.2 (Nat.lt_of_lt_of_le (Nat.succ_pos rounds) hfuel)
    have hfuel := Nat.le_of_succ_le_succ hfuel
    obtain ⟨hexpression, hunary, hcall⟩ := ih hfuel
    refine ⟨?_, ?_, ?_⟩
    · refine (Follows.operation hunary hfuel levels).bind fun target => ?_
      exact takes_previous (.accept .equal)
        (fun equals _ => hexpression.bind fun value => .assignTo target equals value) (.pure target)
    · have hsigns : Takes (accept .bang <||> accept .minus) fun k => k = .bang ∨ k = .minus := by
        have h := (Takes.accept .bang).or (Takes.accept .minus)
        simpa only [Bool.decide_or] using h
      exact takes_previous hsigns (fun operator _ => hunary.bind fun right => .node _) hcall
    · exact (Follows.primary hexpression).bind fun left => .accesses hexpression hfuel left

/-! ### Statements -/

section

variable {statement : Reading Stmt} {statement' : Scanning Stmt}

protected theorem varDecl (h : Follows p q) : Follows (Parser.varDecl p) (varDecl q) := by
  refine (Follows.expect _ _).bind fun name => ?_
  have hend (initializer : Option Expr) : Follows
      (Parser.expect .semicolon .variableEnd >>= fun _ => pure (Stmt.varDecl name initializer))
      (expect .semicolon .variableEnd >>= fun _ => pure (Stmt.varDecl name initializer)) :=
    (Follows.expect _ _).bind fun _ => .pure _
  exact accept_ite (h.map.bind hend) ((Follows.pure none).bind hend)

protected theorem expressionStatement (h : Follows p q) :
    Follows (Parser.expressionStatement p) (expressionStatement q) :=
  h.bind fun _ => (Follows.expect _ _).bind fun _ => .pure _

protected theorem condition (start : Expectation) (h : Follows p q) :
    Follows (Parser.condition start p) (condition start q) :=
  (Follows.expect _ _).bind fun _ => h.bind fun _ => (Follows.expect _ _).bind fun _ => .pure _

protected theorem forInitializer (h : Follows p q) :
    Follows (Parser.forInitializer p) (forInitializer q) :=
  accept_ite (.pure none) (accept_ite (Follows.varDecl h).map (Follows.expressionStatement h).map)

protected theorem ifStatement (h : Follows p q) (hstatement : Follows statement statement') :
    Follows (Parser.ifStatement p statement) (ifStatement q statement') := by
  refine (Follows.condition _ h).bind fun condition => hstatement.bind fun thenBranch => ?_
  exact accept_ite (hstatement.bind fun elseBranch => .pure _) (.pure _)

protected theorem whileStatement (h : Follows p q) (hstatement : Follows statement statement') :
    Follows (Parser.whileStatement p statement) (whileStatement q statement') :=
  (Follows.condition _ h).bind fun _ => hstatement.bind fun _ => .pure _

protected theorem forStatement (h : Follows p q) (hstatement : Follows statement statement') :
    Follows (Parser.forStatement p statement) (forStatement q statement') := by
  refine (Follows.expect _ _).bind fun _ => (Follows.forInitializer h).bind fun initializer => ?_
  refine unlessNext_bind h fun condition => (Follows.expect _ _).bind fun _ => ?_
  refine unlessNext_bind h fun increment => (Follows.expect _ _).bind fun _ => ?_
  refine hstatement.bind fun body => ?_
  cases condition with
  | some e => exact (Follows.pure e).bind fun _ => .pure _
  | none => exact (Follows.node _).bind fun _ => .pure _

/-- The next token closes, or there is none. -/
theorem looks_isClosed {b : Buffer} (hb : b.InBounds) :
    Looks isClosed b (b.cursor.rest.head?.all (·.kind = .rightBrace)) := by
  refine (Looks.check hb .rightBrace).bind fun b' hstill => ?_
  have hend := Looks.isAtEnd (hstill.inBounds hb)
  rw [hstill.cursor] at hend
  cases hrest : b.cursor.rest with
  | nil =>
    rw [hrest] at hend
    exact hend
  | cons t rest =>
    rw [hrest] at hend
    by_cases hk : t.kind = .rightBrace
    · simp only [List.head?_cons, Option.any_some, Option.all_some, hk, decide_true]
      exact .pure (hstill.inBounds hb) true
    · simp only [List.head?_cons, Option.any_some, Option.all_some, hk, decide_false]
      exact hend

protected theorem block {declaration : Reading (Option Stmt)}
    {declaration' : Scanning (Option Stmt)} (h : Follows declaration declaration')
    (hfuel : rounds ≤ fuel) :
    Follows (Parser.block declaration rounds) (block declaration' fuel) :=
  (Follows.upTo (fun _ hb => looks_isClosed hb) h hfuel).bind fun _ =>
    (Follows.expect _ _).bind fun _ => .pure _

protected theorem routine {block : Reading (List Stmt)} {block' : Scanning (List Stmt)}
    (h : Follows block block') (hfuel : rounds ≤ fuel) (kind : RoutineKind) :
    Follows (Parser.routine limit block rounds kind) (routine limit block' fuel kind) := by
  refine (Follows.expect _ _).bind fun name => (Follows.expect _ _).bind fun _ => ?_
  refine listedOrNone_bind (.listed (.expect _ _) hfuel 0) fun params => ?_
  exact (Follows.expect _ _).bind fun _ => (Follows.expect _ _).bind fun _ =>
    h.bind fun body => .pure _

protected theorem classDecl {method : Reading Routine} {method' : Scanning Routine}
    (h : Follows method method') (hfuel : rounds ≤ fuel) :
    Follows (Parser.classDecl method rounds) (classDecl method' fuel) := by
  refine (Follows.expect _ _).bind fun name => ?_
  have hbody (superclass : Option Expr) : Follows
      (do
        let _ ← Parser.expect .leftBrace .classBodyStart
        let methods ← Parser.upTo (· = .rightBrace) method rounds
        let _ ← Parser.expect .rightBrace .classBodyEnd
        return Stmt.classDecl name superclass methods)
      (do
        let _ ← expect .leftBrace .classBodyStart
        let methods ← upTo isClosed method' fuel
        let _ ← expect .rightBrace .classBodyEnd
        return Stmt.classDecl name superclass methods) :=
    (Follows.expect _ _).bind fun _ =>
      (Follows.upTo (fun _ hb => looks_isClosed hb) h hfuel).bind fun methods =>
        (Follows.expect _ _).bind fun _ => .pure _
  refine accept_ite ?_ ((Follows.pure none).bind hbody)
  exact (Follows.expect _ _).bind fun ancestor => (Follows.node _).map.bind hbody

end

/-- All statements and declarations are read as the readings read them. -/
theorem statements (limit : Limit) (rounds : Nat) :
    ∀ {fuel : Nat}, rounds ≤ fuel →
      Follows (Parser.declaration limit rounds) (declaration limit fuel)
        ∧ Follows (Parser.statement limit rounds) (statement limit fuel) := by
  induction rounds with
  | zero =>
    intro fuel _
    exact ⟨.outOfRounds, .outOfRounds⟩
  | succ rounds ih =>
    intro fuel hfuel
    obtain ⟨fuel, rfl⟩ := Nat.exists_eq_add_one.2 (Nat.lt_of_lt_of_le (Nat.succ_pos rounds) hfuel)
    have hfuel := Nat.le_of_succ_le_succ hfuel
    obtain ⟨hdeclaration, hstatement⟩ := ih hfuel
    obtain ⟨hexpression, -, -⟩ := expressions limit rounds hfuel
    have hblock := Follows.block hdeclaration hfuel
    refine ⟨.recovering ?_, ?_⟩
    · refine accept_ite (.classDecl (.routine hblock hfuel .method) hfuel) (accept_ite ?_
        (accept_ite (.varDecl hexpression) hstatement))
      exact (Follows.routine hblock hfuel .function).map
    · refine accept_ite (.forStatement hexpression hstatement) (accept_ite
        (.ifStatement hexpression hstatement) (accept_ite (.whileStatement hexpression hstatement)
          (takes_previous (.accept .kwReturn) (fun keyword _ => ?_)
            (accept_ite hblock.map (.expressionStatement hexpression)))))
      exact unlessNext_bind hexpression fun value => (Follows.expect _ _).bind fun _ => .pure _

/-! ### Whole programs -/

/-- Declarations up to the end, of which each one is given rounds of its own. -/
theorem allDeclarations (limit : Limit) {rounds rounds' fuel : Nat} (hrounds : rounds ≤ fuel)
    (hrounds' : rounds' ≤ fuel) :
    Follows (List.reduceOption
      <$> Parser.upTo (fun _ => false) (Parser.declaration limit rounds) rounds')
      (program limit fuel) := by
  rw [map_eq_pure_bind]
  refine (Follows.upTo (fun b hb => ?_) (statements limit rounds hrounds).1 hrounds').bind
    fun body => .pure body.reduceOption
  have hend := Looks.isAtEnd hb
  cases hrest : b.cursor.rest <;> rw [hrest] at hend <;> exact hend

theorem program (limit : Limit) (hfuel : rounds ≤ fuel) :
    Follows (Parser.program limit rounds) (Indexed.program limit fuel) := by
  have hall := allDeclarations limit hfuel hfuel
  rwa [map_eq_pure_bind] at hall

theorem loneExpression (limit : Limit) (hfuel : rounds ≤ fuel) :
    Follows (Parser.loneExpression limit rounds) (Indexed.loneExpression limit fuel) := by
  refine (expressions limit rounds hfuel).1.bind fun e b hb => ?_
  refine .look (Looks.isAtEnd hb) fun b' hstill => ?_
  have hb' := hstill.inBounds hb
  have hpeek : Parser.peek? b'.cursor = .ok b'.cursor.rest.head? b'.cursor := rfl
  rw [← hstill.cursor]
  unfold FollowsAt
  rw [reading_bind_ok hpeek]
  cases hrest : b'.cursor.rest with
  | nil => exact .ok hb'.leads_refl
  | cons t rest =>
    have hnext : b'.cursor.next = t := by rw [Cursor.next, hrest, List.headD_cons]
    have hend : FollowsAt b'
        (Parser.report t (.expected .expressionEnd) >>= fun _ => pure e)
        (peek >>= fun t => record (.grammar t (.expected .expressionEnd)) >>= fun _ => pure e) := by
      refine .look (Looks.peek hb') fun b'' hstill' => ?_
      rw [hnext]
      exact (Follows.record.bind fun _ => .pure e) b'' (hstill'.inBounds hb')
    exact hend

end Lox.Indexed.Follows
