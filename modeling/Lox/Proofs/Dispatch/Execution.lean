import Lox.Proofs.Dispatch.Calls
import Lox.Proofs.Lexical.Correctness

/-!
The lexical meaning and the one in which `this` and `super` are no names in step. One expression and
one statement are evaluated and executed in step if those inside them are (`Evaluates.evaluateBy`,
`Executes.executeBy`), so that, by induction on the fuel, all linked ones are (`simulates`), and whole
programs are run in step (`Agrees.interpret`).
-/

namespace Lox

namespace Dispatch

open Lexical (Location Names)

/-- Linked expressions are evaluated in step. -/
def Evaluates (run : Names → Expr → Lexical.Run (Value Names))
    (spec : Place → Expr → Run (Value Place)) : Prop :=
  ∀ {t : Table} {site : Site} {names : Names} {place : Place} {w : World} {e : Expr},
    e.Linked t site → Fits w site.scopes names place →
    Simulates w (run names e) (spec place e) ValueRel

section

variable {t : Table} {w : World} {names : Names} {place : Place} {site : Site}
  {evaluate : Names → Expr → Lexical.Run (Value Names)}
  {evaluate' : Place → Expr → Run (Value Place)} {execute : Lexical.Executor} {execute' : Executor}

/-! ### Expressions -/

theorem Evaluates.mapM (hv : Evaluates evaluate evaluate') {es : List Expr}
    (hl : Expr.LinkedEach t site es) (hf : Fits w site.scopes names place) :
    Simulates w (es.mapM (evaluate names)) (es.mapM (evaluate' place))
      fun w' vs vs' => List.Forall₂ (ValueRel w') vs vs' :=
  .mapM (fun hw hr => hr.later hw) es fun _ he _ hext => hv (hl.of_mem he) (hf.mono hext)

/-- An expression is evaluated in step if those in it are. -/
theorem Evaluates.evaluateBy (hv : Evaluates evaluate evaluate') (hx : Executes execute execute')
    {e : Expr} (hl : e.Linked t site) (hf : Fits w site.scopes names place) :
    Simulates w (Lexical.evaluateBy evaluate execute names e)
      (Dispatch.evaluateBy evaluate' execute' place e) ValueRel := by
  cases e with
  | literal id value => exact .pure (.ofLiteral value)
  | grouping id inner => exact hv (e := inner) hl hf
  | unary id operator right =>
    exact (hv (e := right) hl hf).bind fun _ _ _ _ h => .ofExcept operator.line (h.unary operator)
  | binary id left operator right =>
    refine (hv hl.1 hf).bind fun w₁ a a' hext₁ ha => ?_
    refine (hv hl.2 (hf.mono hext₁)).bind fun w₂ b b' hext₂ hb => ?_
    exact .ofExcept operator.line ((ha.later hext₂).binary operator hb)
  | logical id left operator right =>
    refine (hv hl.1 hf).bind fun w₁ a a' hext₁ ha => ?_
    rw [ha.decides operator]
    split
    · exact .pure ha
    · exact hv hl.2 (hf.mono hext₁)
  | var id name => exact .read hf.locals hl.1 name.line
  | this id keyword =>
    obtain ⟨hk, -, d, -, hd⟩ := hl
    simp only [Lexical.evaluateBy, Dispatch.evaluateBy, hk]
    exact .receiver (hf.receiver hd) keyword.line
  | assign id name value =>
    refine (hv hl.2.1 hf).bind fun w₁ v v' hext₁ hrel => ?_
    refine (Simulates.write (hf.locals.mono hext₁) hl.1 hrel).bind fun w₂ _ _ hext₂ _ => ?_
    exact .pure (hrel.later hext₂)
  | call id callee paren arguments =>
    refine (hv hl.1 hf).bind fun w₁ v v' hext₁ hrel => ?_
    refine (hv.mapM hl.2 (hf.mono hext₁)).bind fun w₂ args args' hext₂ hargs => ?_
    exact .call hx (hrel.later hext₂) hargs paren.line
  | get id object name => exact (hv (e := object) hl hf).bind fun _ _ _ _ h => .property h name
  | set id object name value =>
    refine (hv hl.1 hf).bind fun w₁ v v' hext₁ hrel => ?_
    cases hrel with
    | object identity hd =>
      refine (hv hl.2 (hf.mono hext₁)).bind fun w₂ u u' hext₂ hu => ?_
      refine (Simulates.setField identity name.lexeme hu).bind fun w₃ _ _ hext₃ _ => ?_
      exact .pure (hu.later hext₃)
    | _ => exact .fail _ _
  | super id keyword method =>
    obtain ⟨-, -, -, d, -, hd, hd'⟩ := hl
    exact .superMethod (hf.receiver hd') (hf.ancestor hd' hd) keyword method

/-! ### Statements -/

/-- A loop is executed in step if its condition and its body are. -/
theorem Simulates.executeWhile {c : Lexical.Run (Value Names)} {c' : Run (Value Place)}
    {b : Lexical.Run (Names × Completion Names)} {b' : Run (Place × Completion Place)}
    (hcondition : ∀ w', w <+: w' → Simulates w' c c' ValueRel)
    (hbody : ∀ w', w <+: w' → Simulates w' b b' fun w₁ x x' => CompletionRel w₁ x.2 x'.2)
    (rounds : Nat) :
    Simulates w (Lexical.executeWhile c b rounds) (Dispatch.executeWhile c' b' rounds)
      CompletionRel := by
  induction rounds generalizing w with
  | zero => exact .outOfFuel
  | succ rounds ih =>
    refine (hcondition w List.prefix_rfl).bind fun w₁ v v' hext₁ hv => ?_
    rw [hv.isTruthy]
    split
    · refine (hbody w₁ hext₁).bind fun w₂ x x' hext₂ hx => ?_
      obtain ⟨names', x⟩ := x
      obtain ⟨place', x'⟩ := x'
      have hext := hext₁.trans hext₂
      cases hx with
      | normal =>
        exact ih (fun w' h => hcondition w' (hext.trans h)) fun w' h => hbody w' (hext.trans h)
      | returned hu => exact .pure (.returned hu)
    · exact .pure .normal

/-- A statement in a branch or a loop is executed in step; the place after it is of no use. -/
theorem Executes.inner (hx : Executes execute execute') {s s' : Stmt} (hl : s.Linked t site)
    (hs : Stands w site.scopes names place) (hafter : s'.after site = site) :
    Simulates w (execute names s >>= fun p => pure (names, p.2))
      (execute' place s >>= fun p => pure (place, p.2)) (Executed site s') := by
  refine (hx hl hs).bind fun w₁ c c' hext₁ hpost => ?_
  exact .pure ⟨hpost.1, hafter.symm ▸ hs.mono hext₁⟩

/-- A variable that is declared is settled to what its initializer yields. -/
theorem Simulates.initialized {name : Token} (hs : Stands w site.scopes names place)
    (hn : name.IsName) {x : Lexical.Run (Value Names)} {y : Run (Value Place)}
    (h : Simulates w x y ValueRel) :
    Simulates w
      (x >>= fun v => Lexical.settle names name.lexeme v >>= fun _ => pure (names, .normal))
      (y >>= fun v => Dispatch.settle place name.lexeme v >>= fun _ => pure (place, .normal))
      fun w' c c' => CompletionRel w' c.2 c'.2
        ∧ Stands w' (site.declareReadable name).1.scopes c.1 c'.1 := by
  refine h.bind fun w₁ v v' hext₁ hrel => ?_
  have h₁ := hs.mono hext₁
  refine (Simulates.settle h₁.locals hn hrel).bind fun w₂ _ _ hext₂ _ => ?_
  exact .pure ⟨.normal, (h₁.mono hext₂).declareReadable hn⟩

/-- The superclass of a class is evaluated in step. -/
theorem Evaluates.superclass (hv : Evaluates evaluate evaluate') {ancestor : Expr}
    (hl : ancestor.Linked t site) (hf : Fits w site.scopes names place) (line : Nat) :
    Simulates w (some <$> (evaluate names ancestor >>= Lexical.asSuperclass line))
      (some <$> (evaluate' place ancestor >>= Dispatch.asSuperclass line))
      fun w' p c' => ∃ q d', p = some q ∧ c' = some d' ∧ (∃ id, q.1 = .classOf id q.2)
        ∧ ClassRel w' q.2 d' := by
  have hevaluated := (hv hl hf).bind fun _ _ _ _ h => Simulates.asSuperclass line h
  exact (hevaluated.conseq fun _ q d' _ h => ⟨q, d', rfl, rfl, h⟩).map

/-- A statement is executed in step if the expressions and statements in it are. -/
theorem Executes.executeBy (hv : Evaluates evaluate evaluate') (hx : Executes execute execute')
    (rounds : Nat) {s : Stmt} (hl : s.Linked t site) (hs : Stands w site.scopes names place) :
    Simulates w (Lexical.executeBy evaluate execute rounds names s)
      (Dispatch.executeBy evaluate' execute' rounds place s) (Executed site s) := by
  cases s with
  | expression value =>
    refine (hv (e := value) hl hs.toFits).bind fun w₁ _ _ hext₁ _ => ?_
    exact .pure ⟨.normal, hs.mono hext₁⟩
  | varDecl name initializer =>
    obtain ⟨ha, hl⟩ := hl
    have hn : name.IsName := ha.1
    refine (Simulates.declare hs hn).bind fun w₁ names₁ place₁ _ h₁ => ?_
    cases initializer with
    | none => exact .initialized h₁ hn (.pure .nil)
    | some e => exact .initialized h₁ hn (hv hl (h₁.declare hn).toFits)
  | block body =>
    have hinside : Stands w (site.enter []).scopes names.enter place.enter := hs.enter
    refine (Simulates.executeEach hx hl hinside).bind fun w₁ c c' hext₁ hc => ?_
    exact .pure ⟨hc, hs.mono hext₁⟩
  | ifThen condition thenBranch =>
    obtain ⟨hcondition, hthen, -⟩ := hl
    refine (hv hcondition hs.toFits).bind fun w₁ v v' hext₁ hrel => ?_
    rw [hrel.isTruthy]
    split
    · exact hx.inner hthen (hs.mono hext₁) rfl
    · exact .pure ⟨.normal, hs.mono hext₁⟩
  | ifElse condition thenBranch elseBranch =>
    obtain ⟨hcondition, ⟨hthen, -⟩, helse, -⟩ := hl
    refine (hv hcondition hs.toFits).bind fun w₁ v v' hext₁ hrel => ?_
    rw [hrel.isTruthy]
    split
    · exact hx.inner hthen (hs.mono hext₁) rfl
    · exact hx.inner helse (hs.mono hext₁) rfl
  | whileLoop condition body =>
    obtain ⟨hcondition, hbody, -⟩ := hl
    have hloop := Simulates.executeWhile (w := w)
      (fun w' hext => hv hcondition (hs.mono hext).toFits)
      (fun w' hext => (hx hbody (hs.mono hext)).conseq fun _ _ _ _ hpost => hpost.1) rounds
    refine hloop.bind fun w₁ c c' hext₁ hc => ?_
    exact .pure ⟨hc, hs.mono hext₁⟩
  | funDecl routine =>
    obtain ⟨ha, hl⟩ := hl
    refine (Simulates.declareFunction hs ha.1 hl).bind fun w₁ names₁ place₁ _ h₁ => ?_
    exact .pure ⟨.normal, h₁⟩
  | returnValue keyword value =>
    cases value with
    | none => exact .pure ⟨.returned .nil, hs⟩
    | some e =>
      refine (hv (e := e) hl hs.toFits).bind fun w₁ v v' hext₁ hrel => ?_
      exact .pure ⟨.returned hrel, hs.mono hext₁⟩
  | classDecl name superclass methods =>
    obtain ⟨ha, hl⟩ := hl
    cases superclass with
    | none =>
      refine (Simulates.declareClass_base hs ha.1 hl).bind fun w₁ names₁ place₁ _ h₁ => ?_
      exact .pure ⟨.normal, h₁⟩
    | some ancestor =>
      have hsuper := hv.superclass hl.1 hs.toFits (ancestor.line?.getD name.line)
      refine hsuper.bind fun w₁ _ _ hext₁ hpost => ?_
      obtain ⟨q, d', rfl, rfl, hq⟩ := hpost
      refine (Simulates.declareClass_derived (hs.mono hext₁) ha.1 hq hl.2).bind
        fun w₂ names₂ place₂ _ h₂ => ?_
      exact .pure ⟨.normal, h₂⟩

/-! ### Whole runs -/

/-- Linked expressions and statements are evaluated and executed in step. -/
theorem simulates (fuel : Nat) :
    Evaluates (Lexical.evaluate fuel) (Dispatch.evaluate fuel)
      ∧ Executes (Lexical.execute fuel) (Dispatch.execute fuel) := by
  induction fuel with
  | zero => exact ⟨fun _ _ => .outOfFuel, fun _ _ => .outOfFuel⟩
  | succ fuel ih =>
    constructor
    · exact fun hl hf => Evaluates.evaluateBy ih.1 ih.2 hl hf
    · exact fun hl hs => Executes.executeBy ih.1 ih.2 fuel hl hs

/-- A program is run in step outside of everything. -/
theorem Simulates.program (fuel : Nat) {program : Program} (hl : Stmt.LinkedEach t site program)
    (hs : site.scopes = []) :
    Simulates w (program.forM fun s => discard (Lexical.execute fuel none s))
      (program.forM fun s => discard (Dispatch.execute fuel .outermost s)) fun _ _ _ => True := by
  induction program generalizing site w with
  | nil => exact .pure trivial
  | cons s rest ih =>
    have hstands : Stands w site.scopes none .outermost := hs ▸ .outermost_place w
    exact ((simulates fuel).2 hl.1 hstands).discard.bind fun w₁ _ _ _ _ =>
      ih hl.2 (Lexical.Stmt.after_scopes hs s)

/-- Fresh states agree. -/
theorem Agrees.fresh (console : Console) (clock : Nat → Float) :
    Agrees [] (.fresh console clock) (.fresh console clock) where
  host := rfl
  nextIdentity := rfl
  globals := by
    unfold Lexical.State.fresh State.fresh Bindings.Rel
    rw [List.forall₂_map_left_iff, List.forall₂_map_right_iff, List.forall₂_same]
    exact fun host _ => ⟨rfl, .native host⟩
  objects := rfl
  fields _ := .nil
  memory := rfl
  cells hl := by simp at hl
  constant hl := by simp at hl
  apart hl := by simp at hl

/-- A linked program is run in step, and gives one answer. -/
theorem Agrees.interpret {st : Lexical.State} {st' : State} (ha : Agrees w st st') {p : Program}
    (hl : Stmt.LinkedEach t {} p) (fuel : Nat) :
    (Dispatch.interpret fuel p st').1 = (Lexical.interpret fuel p st).1
      ∧ ∃ w', Agrees w' (Lexical.interpret fuel p st).2 (Dispatch.interpret fuel p st').2 := by
  have hrun := Simulates.program (w := w) fuel hl rfl st st' ha
  unfold Lexical.interpret Dispatch.interpret Run.answer
  generalize (p.forM fun s => discard (Lexical.execute fuel none s)) st = r,
    (p.forM fun s => discard (Dispatch.execute fuel .outermost s)) st' = r' at hrun
  cases hrun with
  | ok _ agrees _ => exact ⟨by simp only [agrees.host], _, agrees⟩
  | @error w' stop _ _ agrees =>
    cases stop with
    | fault => exact ⟨by simp only [agrees.host], _, agrees⟩
    | outOfFuel => exact ⟨by simp only [agrees.host], _, agrees⟩

end

end Dispatch

end Lox
