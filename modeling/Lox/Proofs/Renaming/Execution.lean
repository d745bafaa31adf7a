import Lox.Proofs.Renaming.Calls
import Lox.Proofs.Safety.Sessions

/-!
Programs with the new name are executed as the programs are. Each construct of the language is executed
in step if the evaluations and executions in it are (`Evaluates.evaluateBy`, `Executes.executeBy`), and
so, by induction on the fuel, all expressions and statements (`mirrors`). What is watched is that local
names are bound where they are read; since they always are, a program from a fresh machine gives the
same answer as before (`interpret_rename`).
-/

namespace Lox

namespace Renaming

section

variable (R : Renaming) (k : Watch)

/-- Expressions with the new name are evaluated as the expressions are. -/
def Evaluates (evaluate evaluate' : Expr → Run Value) : Prop :=
  ∀ {marks : List Bool} {env : Environment} {w : World} {e : Expr}, e.Suits R → Marked w marks env →
    R.Mirrors k env w (evaluate e) (evaluate' (e.rename R (R.ties marks))) R.SameValue

end

variable {R : Renaming} {k : Watch} {env : Environment} {w : World} {place : ScopePlace}
  {marks : List Bool} {evaluate evaluate' : Expr → Run Value}
  {execute execute' : Stmt → Run Completion}

/-! ### Expressions -/

/-- An expression is evaluated in step if those in it are. -/
theorem Evaluates.evaluateBy (hk : k.holds = Machine.readsSafely)
    (hv : R.Evaluates k evaluate evaluate') (hx : R.Executes k execute execute') {e : Expr}
    (hu : e.Suits R) (hm : Marked w marks env) :
    R.Mirrors k env w (k.check e >>= fun _ => e.evaluateBy evaluate execute)
      ((e.rename R (R.ties marks)).evaluateBy evaluate' execute') R.SameValue := by
  cases e with
  | literal id value => exact .checked (.pure (.ofLiteral value))
  | grouping id inner => exact .checked (hv hu.grouping hm)
  | unary id operator right =>
    exact .checked ((hv hu.unary hm).bind fun _ _ _ _ h => .ofExcept operator.line (h.unary operator))
  | binary id left operator right =>
    refine .checked ((hv hu.binary.1 hm).bind fun w₁ a a' hext₁ ha => ?_)
    refine (hv hu.binary.2 (hm.mono hext₁)).bind fun w₂ b b' hext₂ hb => ?_
    exact .ofExcept operator.line ((ha.later hext₂).binary operator hb)
  | logical id left operator right =>
    refine .checked ((hv hu.logical.1 hm).bind fun w₁ a a' hext₁ ha => ?_)
    rw [ha.decides operator]
    split
    · exact .pure ha
    · exact hv hu.logical.2 (hm.mono hext₁)
  | var id name =>
    exact .check fun m m' hsame he hsafe => Mirrors.lookUp hm hu.var hsame he (hk ▸ hsafe)
  | this id keyword =>
    have hkeyword : keyword.lexeme = "this" := hu.1
    exact .checked (.lookUp_keyword hm id (hkeyword ▸ R.this_ne.1) (hkeyword ▸ R.this_ne.2))
  | assign id name value =>
    refine .checked ((hv hu.assign.2 hm).bind fun w₁ v v' hext₁ hrel => ?_)
    refine (Mirrors.assign (hm.mono hext₁) hu.assign.1 hrel).bind fun w₂ _ _ hext₂ _ => ?_
    exact .pure (hrel.later hext₂)
  | call id callee paren arguments =>
    refine .checked ((hv hu.call.1 hm).bind fun w₁ v v' hext₁ hrel => ?_)
    rw [Expr.renameEach_eq_map]
    refine (Mirrors.mapM (fun hw hr => hr.later hw) arguments fun e he w' hw =>
      hv (hu.call.2 e he) (hm.mono (hext₁.trans hw))).bind fun w₂ args args' hext₂ hargs => ?_
    exact .call hx (hrel.later hext₂) hargs paren.line
  | get id object name => exact .checked ((hv hu.get hm).bind fun _ _ _ _ h => .property h name)
  | set id object name value =>
    refine .checked ((hv hu.set.1 hm).bind fun w₁ v v' hext₁ hrel => ?_)
    cases hrel with
    | object place hd =>
      refine (hv hu.set.2 (hm.mono hext₁)).bind fun w₂ u u' hext₂ hrel => ?_
      refine (Mirrors.setField place name.lexeme hrel).bind fun w₃ _ _ hext₃ _ => ?_
      exact .pure (hrel.later hext₃)
    | _ => exact .fail _ _
  | super id keyword method => exact .checked (.superMethod hm id keyword method)

/-! ### Statements -/

/-- A loop is executed in step if its condition and its body are. -/
theorem Mirrors.executeWhile {condition condition' : Run Value} {body body' : Run Completion}
    (hcondition : ∀ w', w <+: w' → R.Mirrors k env w' condition condition' R.SameValue)
    (hbody : ∀ w', w <+: w' → R.Mirrors k env w' body body' R.SameCompletion) (rounds : Nat) :
    R.Mirrors k env w (Lox.executeWhile condition body rounds)
      (Lox.executeWhile condition' body' rounds) R.SameCompletion := by
  induction rounds generalizing w with
  | zero => exact .outOfFuel
  | succ rounds ih =>
    refine (hcondition w List.prefix_rfl).bind fun w₁ v v' hext₁ hv => ?_
    rw [hv.isTruthy]
    split
    · refine (hbody w₁ hext₁).bind fun w₂ c c' hext₂ hc => ?_
      have hext := hext₁.trans hext₂
      cases hc with
      | normal =>
        exact ih (fun w' h => hcondition w' (hext.trans h)) fun w' h => hbody w' (hext.trans h)
      | returned hu => exact .pure (.returned hu)
    · exact .pure .normal

/-- A variable is bound, under the name that it has, to what its initializer yields. -/
theorem Mirrors.initialized {name : String} (hn : name ≠ R.new) (hm : Marked w marks env)
    {run run' : Run Value} (h : R.Mirrors k env w run run' R.SameValue) :
    R.Mirrors k env w (run >>= fun v => Run.define name v >>= fun _ => pure Completion.normal)
      (run' >>= fun v => Run.define (R.name (marks.headD false) name) v >>=
        fun _ => pure Completion.normal) R.SameCompletion := by
  refine h.bind fun w₁ v v' hext₁ hrel => ?_
  exact (Mirrors.define (hm.mono hext₁) hn hrel).bind fun _ _ _ _ _ => .pure .normal

/-- The superclass of a class is evaluated in step, and it stands in the same line. -/
theorem Evaluates.superclass (hv : R.Evaluates k evaluate evaluate') {e : Expr} (hu : e.Suits R)
    (hm : Marked w marks env) (line : Nat) :
    R.Mirrors k env w (some <$> (evaluate e >>= Lox.asSuperclass (e.line?.getD line)))
      (some <$> (evaluate' (e.rename R (R.ties marks)) >>=
        Lox.asSuperclass ((e.rename R (R.ties marks)).line?.getD line)))
      fun w' q q' => ∃ p p', q = some p ∧ q' = some p'
        ∧ R.SameValue w' p.1 p'.1 ∧ R.SameClass w' p.2 p'.2 := by
  rw [Expr.line?_rename]
  refine ((hv hu hm).bind fun w₁ v v' _ hrel => ?_).map
  exact (Mirrors.asSuperclass _ hrel).conseq fun w₂ p p' _ h => ⟨p, p', rfl, rfl, h⟩

/-- A statement is executed in step if the expressions and statements in it are. -/
theorem Executes.executeBy (hv : R.Evaluates k evaluate evaluate')
    (hx : R.Executes k execute execute') (rounds : Nat) {s : Stmt}
    (hu : s.Suits R place (marks.headD false)) (hm : Marked w marks env) :
    R.Mirrors k env w (s.executeBy evaluate execute rounds)
      ((s.rename R place marks).executeBy evaluate' execute' rounds) R.SameCompletion := by
  cases s with
  | expression value => exact (hv hu.expression hm).bind fun _ _ _ _ _ => .pure .normal
  | varDecl name initializer =>
    obtain ⟨hn, hi⟩ := hu.varDecl
    cases initializer with
    | none => exact .initialized hn hm (.pure .nil)
    | some e => exact .initialized hn hm (hv (hi e rfl) hm)
  | block body =>
    refine Mirrors.environment.bind fun w₁ _ _ hext₁ hsame => ?_
    obtain ⟨rfl, rfl⟩ := hsame
    refine (Mirrors.extend (hm.mono hext₁) (.nil (R.chosen place))).bind
      fun w₂ inside inside' _ hinside => ?_
    obtain ⟨rfl, hmarked⟩ := hinside
    exact (Mirrors.executeEach hx hu.block hmarked).within
  | ifThen condition thenBranch =>
    refine (hv hu.ifThen.1 hm).bind fun w₁ v v' hext₁ hrel => ?_
    rw [hrel.isTruthy]
    split
    · exact hx hu.ifThen.2 (hm.mono hext₁)
    · exact .pure .normal
  | ifElse condition thenBranch elseBranch =>
    refine (hv hu.ifElse.1 hm).bind fun w₁ v v' hext₁ hrel => ?_
    rw [hrel.isTruthy]
    split
    · exact hx hu.ifElse.2.1 (hm.mono hext₁)
    · exact hx hu.ifElse.2.2 (hm.mono hext₁)
  | whileLoop condition body =>
    exact .executeWhile (fun w' hw => hv hu.whileLoop.1 (hm.mono hw))
      (fun w' hw => hx hu.whileLoop.2 (hm.mono hw)) rounds
  | funDecl routine =>
    obtain ⟨hn, hkept, hu⟩ := hu.funDecl
    exact (Mirrors.declareFunction hm hn hkept hu).bind fun _ _ _ _ _ => .pure .normal
  | returnValue keyword value =>
    cases value with
    | none => exact .pure (.returned .nil)
    | some e =>
      exact (hv (hu.returnValue e rfl) hm).bind fun _ _ _ _ hrel => .pure (.returned hrel)
  | classDecl name superclass methods =>
    obtain ⟨hn, hkept, ha, hmethods⟩ := hu.classDecl
    cases superclass with
    | none =>
      exact (Mirrors.declareClass_base hm hn hkept hmethods).bind fun _ _ _ _ _ => .pure .normal
    | some e =>
      have hsuper := hv.superclass (ha e rfl) hm name.line
      refine hsuper.bind fun w₁ _ _ hext₁ hpost => ?_
      obtain ⟨p, p', rfl, rfl, hrel, hc⟩ := hpost
      exact (Mirrors.declareClass_derived (hm.mono hext₁) hn hkept hmethods hrel hc).bind
        fun _ _ _ _ _ => .pure .normal

/-! ### Programs -/

/-- Expressions and statements with the new name are evaluated and executed as they were. -/
theorem mirrors (hk : k.holds = Machine.readsSafely) (fuel : Nat) :
    R.Evaluates k (k.evaluate fuel) (Lox.evaluate fuel)
      ∧ R.Executes k (k.execute fuel) (Lox.execute fuel) := by
  induction fuel with
  | zero => exact ⟨fun _ _ => .outOfFuel, fun _ _ => .outOfFuel⟩
  | succ fuel ih =>
    exact ⟨fun hu hm => Evaluates.evaluateBy hk ih.1 ih.2 hu hm,
      fun hu hm => Executes.executeBy ih.1 ih.2 fuel hu hm⟩

/-- Statements of a program, which stand outside of all functions and blocks. -/
theorem Mirrors.program (hk : k.holds = Machine.readsSafely) (fuel : Nat) {i : Nat} {p : Program}
    (hu : Stmt.SuitsEach R [] false i p) :
    R.Mirrors k .globals w (p.forM fun s => discard (k.execute fuel s))
      ((Stmt.renameEach R [] [] i p).forM fun s => discard (Lox.execute fuel s))
      fun _ _ _ => True := by
  induction p generalizing i w with
  | nil => exact .pure trivial
  | cons s rest ih =>
    have hfirst := (mirrors (R := R) hk fuel).2 hu.cons.1 (.globals (w := w))
    exact hfirst.discard.bind fun w₁ _ _ _ _ => ih hu.cons.2

/-! ### Fresh machines -/

/-- A fresh machine, which has no scopes but the globals, is the same as itself. -/
theorem SameMachine.fresh (console : Console) (clock : Nat → Float) :
    R.SameMachine [false] ((Machine.fresh console clock).addDistances R.distances)
      ((Machine.fresh console clock).addDistances R.distances) := by
  have hknown (id : Nat) :
      ((Machine.fresh console clock).addDistances R.distances).distances[id]? = R.distances[id]? :=
    Distances.getElem?_insertMany_empty R.distances id
  have hglobals : R.SameScope [false] false Machine.initialGlobals Machine.initialGlobals := by
    refine ⟨?_, nofun⟩
    unfold Machine.initialGlobals Bindings.Renamed
    rw [List.forall₂_map_left_iff, List.forall₂_map_right_iff, List.forall₂_same]
    exact fun host _ => ⟨(R.name_false _).symm, .native host⟩
  refine ⟨rfl, rfl, hknown, hknown, rfl, rfl, rfl, rfl, fun i marked hi => ?_, rfl, fun _ => .nil⟩
  cases i with
  | zero =>
    cases hi
    exact hglobals
  | succ i => cases hi

/-- A program with the new name, run by a fresh machine, gives the same answer as the program, and has
used its host in the same way. -/
theorem interpret_rename {limit : Limit} {firstId nextId : Nat} {source : String} {p : Program}
    (hr : limit.Reads firstId source p R.distances nextId) (hu : Stmt.SuitsEach R [] false 0 p)
    (fuel : Nat) (console : Console) (clock : Nat → Float) :
    let m := (Machine.fresh console clock).addDistances R.distances
    (m.interpret fuel (p.rename R)).1 = (m.interpret fuel p).1
      ∧ (m.interpret fuel (p.rename R)).2.toHost = (m.interpret fuel p).2.toHost := by
  intro m
  obtain ⟨t, -, ha, hl⟩ := (Lexical.Agrees.fresh (.empty firstId) console clock).linked hr
  have hrun (stop : Stop) : (m.interpret fuel p).1 = stop.answer
      ∨ (m.interpret fuel (p.rename R)).1 = (m.interpret fuel p).1
        ∧ (m.interpret fuel (p.rename R)).2.toHost = (m.interpret fuel p).2.toHost := by
    have hwatched : m.interpretBy (Watch.execute ⟨Machine.readsSafely, stop⟩ fuel) p
        = m.interpret fuel p := Machine.interpretBy_readsSafely ha rfl hl fuel stop
    have hmirrors := Mirrors.program (k := ⟨Machine.readsSafely, stop⟩) (w := [false]) rfl fuel hu
      m m (.fresh console clock) rfl
    rw [← hwatched]
    unfold Machine.interpret Machine.interpretBy Run.answer Program.rename
    generalize (p.forM fun s => discard (Watch.execute ⟨Machine.readsSafely, stop⟩ fuel s)) m = r,
      ((Stmt.renameEach R [] [] 0 p).forM fun s => discard (Lox.execute fuel s)) m = r' at hmirrors
    cases hmirrors with
    | ok _ same =>
      dsimp only
      rw [same.host]
      exact .inr ⟨rfl, rfl⟩
    | @error _ stop _ _ same => cases stop <;> exact .inr ⟨rfl, same.host⟩
    | stopped => cases stop <;> exact .inl rfl
  -- The run would have to end in two ways if each of two watches had ended it.
  rcases hrun .outOfFuel with hfirst | hsame
  · rcases hrun (.fault 0 .notCallable) with hsecond | hsame
    · rw [hfirst] at hsecond
      cases hsecond
    · exact hsame
  · exact hsame

end Renaming

end Lox
