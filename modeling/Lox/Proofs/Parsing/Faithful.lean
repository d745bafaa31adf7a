import Lox.Proofs.Grammar.Determined
import Lox.Proofs.Parsing.Accepts

/-!
The trees that the parser gives are the right ones and lose nothing (`parsed_tree_determined`). Their
leaves are the tokens that were read, they keep to precedence, and there is no other such tree but for
the numbers. Nothing is read behind the first token that ends a file.
-/

namespace Lox

open Lox.Parser Lox.Grammar

section

variable {limit : Limit} {us : List Token}

/-! ### One tree for the tokens -/

/-- Programs that are written with the same tokens are the same but for the numbers. -/
theorem alikeEach_of_written {p q : Program} (hp : (Part.declarations p).Written limit (upToEof us))
    (hq : (Part.declarations q).Written limit (upToEof us)) : Stmt.AlikeEach q p := by
  obtain ⟨r, hr, hrp⟩ := parseProgram_of_written (n := 0) hp
  obtain ⟨r', hr', hrq⟩ := parseProgram_of_written (n := 0) hq
  obtain rfl : r = r' := Except.ok.inj (hr.symm.trans hr')
  exact hrq.symm.trans hrp

/-- Expressions that are written with the same tokens are the same but for the numbers. -/
theorem alike_of_written {e e' : Expr} (he : (Phrase.expression e).Written limit (upToEof us))
    (he' : (Phrase.expression e').Written limit (upToEof us)) : e'.Alike e := by
  obtain ⟨r, hr, hre⟩ := parseExpression_of_written (n := 0) he
  obtain ⟨r', hr', hre'⟩ := parseExpression_of_written (n := 0) he'
  obtain rfl : r = r' := Except.ok.inj (hr.symm.trans hr')
  exact hre'.symm.trans hre

end

/-! ### The tree that is read -/

/-- The tokens of a program without a `for`, and those of an expression, stand for the leaves of the
tree that is read from them. This tree is disciplined, and a disciplined tree that the same tokens
stand for differs from it only in numbers. -/
theorem parsed_tree_determined (limit : Limit) (n : Nat) (us : List Token) :
    (∀ p, (parseProgram limit n us).result = .ok p → (∀ t ∈ upToEof us, t.kind ≠ .kwFor) →
      Fit (Stmt.leavesEach p) (upToEof us) ∧ Stmt.DisciplinedEach p
        ∧ ∀ q, Fit (Stmt.leavesEach q) (upToEof us) → Stmt.DisciplinedEach q → Stmt.AlikeEach q p)
      ∧ ∀ e, (parseExpression limit n us).result = .ok e →
        Fit e.leaves (upToEof us) ∧ e.Disciplined
          ∧ ∀ e' : Expr, Fit e'.leaves (upToEof us) → e'.Disciplined → e'.Alike e := by
  constructor
  · intro p hp hfor
    obtain ⟨hfit, hdisciplined⟩ := (written_of_parseProgram hp).faithful hfor
    have hwritten : (Part.declarations p).Written limit.lenient (upToEof us) :=
      declarations_of_fit hdisciplined hfit
    refine ⟨hfit, hdisciplined, fun q hq hq' => ?_⟩
    exact alikeEach_of_written hwritten (declarations_of_fit hq' hq)
  · intro e he
    obtain ⟨hfit, hdisciplined⟩ := fit_of_expression (written_of_parseExpression he)
    have hwritten : WhereTight limit.lenient e (upToEof us) := whereTight_of_fit hdisciplined hfit
    refine ⟨hfit, hdisciplined, fun e' he' hdisciplined' => ?_⟩
    exact alike_of_written hwritten.expression (whereTight_of_fit hdisciplined' he').expression

/-- The expression `x - y - z` is read with the first difference on the left, and the program
`if (a) if (b) x - y - z; else x;` also with the `else` of the inner choice. With the second
difference on the right, or the `else` at the outer choice, the trees stand for the same tokens and
are not disciplined. -/
theorem parsed_tree_determined_nearest :
    let x (name : String) : Expr := .var 0 ⟨.identifier, name, 1⟩
    let minus (left right : Expr) : Expr := .binary 0 left ⟨.minus, "-", 1⟩ right
    let ts : List Token := [⟨.identifier, "x", 1⟩, ⟨.minus, "-", 1⟩, ⟨.identifier, "y", 1⟩,
      ⟨.minus, "-", 1⟩, ⟨.identifier, "z", 1⟩]
    let us : List Token := [⟨.kwIf, "if", 1⟩, ⟨.leftParen, "(", 1⟩, ⟨.identifier, "a", 1⟩,
      ⟨.rightParen, ")", 1⟩, ⟨.kwIf, "if", 1⟩, ⟨.leftParen, "(", 1⟩, ⟨.identifier, "b", 1⟩,
      ⟨.rightParen, ")", 1⟩] ++ ts ++ [⟨.semicolon, ";", 1⟩, ⟨.kwElse, "else", 1⟩,
      ⟨.identifier, "x", 1⟩, ⟨.semicolon, ";", 1⟩]
    let stop : Token := ⟨.eof, "", 1⟩
    let left := minus (minus (x "x") (x "y")) (x "z")
    let right := minus (x "x") (minus (x "y") (x "z"))
    let inner (difference : Expr) : Program :=
      [.ifThen (x "a") (.ifElse (x "b") (.expression difference) (.expression (x "x")))]
    let outer (difference : Expr) : Program :=
      [.ifElse (x "a") (.ifThen (x "b") (.expression difference)) (.expression (x "x"))]
    (∃ e, (parseExpression ⟨255, true⟩ 0 (ts ++ [stop])).result = .ok e ∧ left.Alike e)
      ∧ Fit right.leaves ts ∧ ¬ right.Disciplined
      ∧ (∃ p, (parseProgram ⟨255, true⟩ 0 (us ++ [stop])).result = .ok p
        ∧ Stmt.AlikeEach (inner left) p)
      ∧ ∀ p ∈ [inner right, outer left], Fit (Stmt.leavesEach p) us ∧ ¬ Stmt.DisciplinedEach p := by
  intro x minus ts us stop left right inner outer
  have hts : upToEof (ts ++ [stop]) = ts := by decide
  have hus : upToEof (us ++ [stop]) = us := by decide
  have hleft : Fit left.leaves ts ∧ left.Disciplined := by
    simp [ts, left, x, minus, Expr.leaves, Fit, Leaf.Fits, Expr.Disciplined, IsBinary, binding,
      tightness]
  have hright : Fit right.leaves ts ∧ ¬ right.Disciplined := by
    simp [ts, right, x, minus, Expr.leaves, Fit, Leaf.Fits, Expr.Disciplined, IsBinary, binding,
      tightness]
  have hinner : Fit (Stmt.leavesEach (inner left)) us := by
    simp [us, ts, inner, left, x, minus, Stmt.leavesEach, Stmt.leaves, Expr.leaves, Fit, Leaf.Fits]
  have hdisciplined : Stmt.DisciplinedEach (inner left) := by
    simp [inner, x, Stmt.DisciplinedEach, Stmt.Disciplined, Expr.Disciplined, Stmt.declares,
      Stmt.takesElse, hleft.2]
  refine ⟨?_, hright.1, hright.2, ?_, ?_⟩
  · have hok : (parseExpression ⟨255, true⟩ 0 (ts ++ [stop])).result.isOk = true := by
      decide +kernel
    cases he : (parseExpression ⟨255, true⟩ 0 (ts ++ [stop])).result with
    | ok e =>
      obtain ⟨-, -, hunique⟩ := (parsed_tree_determined _ _ _).2 e he
      exact ⟨e, rfl, hunique _ (hts.symm ▸ hleft.1) hleft.2⟩
    | error ds =>
      rw [he] at hok
      cases hok
  · have hok : (parseProgram ⟨255, true⟩ 0 (us ++ [stop])).result.isOk = true := by
      decide +kernel
    cases hp : (parseProgram ⟨255, true⟩ 0 (us ++ [stop])).result with
    | ok p =>
      obtain ⟨-, -, hunique⟩ := (parsed_tree_determined _ _ _).1 p hp (by decide)
      exact ⟨p, rfl, hunique _ (hus.symm ▸ hinner) hdisciplined⟩
    | error ds =>
      rw [hp] at hok
      cases hok
  · simp [us, ts, inner, outer, left, right, x, minus, Stmt.leavesEach, Stmt.leaves, Expr.leaves, Fit,
      Leaf.Fits, Stmt.DisciplinedEach, Stmt.Disciplined, Expr.Disciplined, IsBinary, binding,
      tightness, Stmt.takesElse]

end Lox
