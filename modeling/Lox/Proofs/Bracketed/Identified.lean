import Lox.Proofs.Bracketed.Reading
import Lox.Proofs.Lexing.Spaced
import Lox.Proofs.Parsing.Accepts

/-!
The bracketed form tells the tree (`bracketed_identifies`). Statements that the parser gives for sources
without strings and with finite numbers are the same but for lines and numbers of expressions, if their
bracketed forms are the same; so are expressions. This holds of whole programs and of all that stands
in them.
-/

namespace Lox

open Lox.Parser Lox.Grammar

/-! ### What the parser gives -/

/-- What stands in a program, at any depth. A method stands there as the function that it is. -/
inductive Program.HasStmt (p : Program) : Stmt → Prop where
  | top {s : Stmt} : s ∈ p → HasStmt p s
  | executed {s s' : Stmt} : HasStmt p s → s' ∈ s.executed → HasStmt p s'
  | method {name : Token} {superclass : Option Expr} {methods : List Routine} {r : Routine} :
    HasStmt p (.classDecl name superclass methods) → r ∈ methods → HasStmt p (.funDecl r)
  | body {r : Routine} {s : Stmt} : HasStmt p (.funDecl r) → s ∈ r.body → HasStmt p s

/-- What stands in an expression, at any depth: the expression itself and those in it. -/
inductive Expr.HasExpr (root : Expr) : Expr → Prop where
  | root : HasExpr root root
  | inner {e e' : Expr} : HasExpr root e → e' ∈ e.inner → HasExpr root e'

/-- The kind of a token that is no string, and no number that is infinite or none. -/
def Kind.Plain : Kind → Prop
  | .string _ => False
  | .number value => Decimal.IsFinite value
  | _ => True

instance : ∀ k : Kind, Decidable k.Plain
  | .string _ => isFalse id
  | .number value => inferInstanceAs (Decidable (Decimal.IsFinite value))
  | .leftParen | .rightParen | .leftBrace | .rightBrace | .comma | .dot | .minus | .plus | .semicolon
  | .slash | .star | .colon | .bang | .bangEqual | .equal | .equalEqual | .greater | .greaterEqual
  | .less | .lessEqual | .identifier | .kwAnd | .kwClass | .kwElse | .kwFalse | .kwFun | .kwFor | .kwIf
  | .kwNil | .kwOr | .kwReturn | .kwSuper | .kwThis | .kwTrue | .kwVar | .kwWhile | .eof =>
    isTrue trivial

/-- The tokens of a source without strings and with finite numbers. -/
def PlainTokens (ts : List Token) : Prop :=
  ∃ source, tokens source = .ok ts ∧ ∀ t ∈ ts, t.kind.Plain

/-- The statement stands in a program that the parser gives for such a source, at any depth. -/
def Stmt.IsParsed (s : Stmt) : Prop :=
  ∃ ts limit n p, PlainTokens ts ∧ (parseProgram limit n ts).result = .ok p ∧ Program.HasStmt p s

/-- The expression stands in a statement or in an expression that the parser gives for such a source,
at any depth. -/
def Expr.IsParsed (e : Expr) : Prop :=
  (∃ s root, Stmt.IsParsed s ∧ root ∈ s.evaluated ∧ root.HasExpr e)
    ∨ ∃ ts limit n root, PlainTokens ts ∧ (parseExpression limit n ts).result = .ok root
      ∧ root.HasExpr e

/-! ### It is legible -/

theorem Program.HasStmt.legible {p : Program} (hp : Stmt.LegibleEach p) {s : Stmt}
    (h : Program.HasStmt p s) : s.Legible := by
  induction h with
  | top hs => exact hp.of_mem _ hs
  | executed _ hs ih => exact ih.executed _ hs
  | method _ hr ih => exact Routine.LegibleEach.of_mem ih.2.2 _ hr
  | @body r _ _ hs ih => exact Routine.Legible.body (r := r) ih _ hs

theorem Expr.HasExpr.legible {root e : Expr} (hroot : root.Legible) (h : root.HasExpr e) :
    e.Legible := by
  induction h with
  | root => exact hroot
  | inner _ he ih => exact ih.inner _ he

/-- The tokens of such a source are legible, up to its end. -/
theorem PlainTokens.legible {ts : List Token} (h : PlainTokens ts) :
    ∀ t ∈ upToEof ts, t.Legible := by
  obtain ⟨source, hts, hplain⟩ := h
  obtain ⟨body, line, rfl, hlexemes⟩ := exists_lexemes hts
  have hbody : ∀ t ∈ upToEof (body ++ [⟨.eof, "", line⟩]), t ∈ body := by
    rw [upToEof_stop (fun t ht => (hlexemes t ht).ne_eof) rfl]
    exact fun t ht => ht
  intro t ht
  refine ⟨hlexemes t (hbody t ht), fun value hvalue => ?_⟩
  have hkind := hplain t (List.mem_append_left _ (hbody t ht))
  rw [literal?_eq_some_iff.1 hvalue] at hkind
  cases value with
  | nil | boolean => trivial
  | number | string => exact hkind

theorem Stmt.IsParsed.legible {s : Stmt} (h : s.IsParsed) : s.Legible := by
  obtain ⟨ts, limit, n, p, hts, hp, hs⟩ := h
  exact hs.legible ((written_of_parseProgram hp).legible hts.legible)

theorem Expr.IsParsed.legible {e : Expr} (h : e.IsParsed) : e.Legible := by
  obtain ⟨s, root, hs, hroot, he⟩ | ⟨ts, limit, n, root, hts, hroot, he⟩ := h
  · exact he.legible (hs.legible.evaluated _ hroot)
  · exact he.legible ((written_of_parseExpression hroot).legible hts.legible)

/-! ### The tree with a text -/

/-- Statements that the parser gives for sources without strings and with finite numbers are the same
but for lines and numbers of expressions, if they are the same in bracketed form; so are
expressions. -/
theorem bracketed_identifies :
    (∀ s s' : Stmt, s.IsParsed → s'.IsParsed → s.bracketed = s'.bracketed →
        s.relabel .blank = s'.relabel .blank)
      ∧ ∀ e e' : Expr, e.IsParsed → e'.IsParsed → e.bracketed = e'.bracketed →
        e.relabel .blank = e'.relabel .blank :=
  ⟨fun _ _ hs hs' h => hs.legible.relabel_eq hs'.legible h,
    fun _ _ he he' h => he.legible.relabel_eq he'.legible h⟩

/-- The parser gives a statement with this text for the source, and nothing else. -/
theorem Stmt.exists_isParsed {ts : List Token} (hts : PlainTokens ts) (limit : Limit) (n : Nat)
    {w : String}
    (h : (parseProgram limit n ts).result.toOption.map (List.map Stmt.bracketed) = some [w]) :
    ∃ s : Stmt, s.IsParsed ∧ s.bracketed = w := by
  cases hp : (parseProgram limit n ts).result with
  | error ds =>
    rw [hp] at h
    cases h
  | ok p =>
    rw [hp] at h
    obtain ⟨s, rfl, hs⟩ := List.map_eq_singleton_iff.1 (Option.some.inj h)
    exact ⟨s, ⟨ts, limit, n, [s], hts, hp, .top List.mem_cons_self⟩, hs⟩

/-- The parser gives an expression with this text for the source. -/
theorem Expr.exists_isParsed {ts : List Token} (hts : PlainTokens ts) (limit : Limit) (n : Nat)
    {w : String} (h : (parseExpression limit n ts).result.toOption.map Expr.bracketed = some w) :
    ∃ e : Expr, e.IsParsed ∧ e.bracketed = w := by
  cases he : (parseExpression limit n ts).result with
  | error ds =>
    rw [he] at h
    cases h
  | ok e =>
    rw [he] at h
    exact ⟨e, .inr ⟨ts, limit, n, e, hts, he, .root⟩, Option.some.inj h⟩

/-- An endless loop, written as a `for` and as a `while`, and a difference on one line and on two. -/
theorem bracketed_identifies_loop :
    (∃ s s' : Stmt, s.IsParsed ∧ s'.IsParsed ∧ s.bracketed = "(while true (; x))"
        ∧ s'.bracketed = "(while true (; x))" ∧ s.relabel .blank = s'.relabel .blank)
      ∧ ∃ e e' : Expr, e.IsParsed ∧ e'.IsParsed ∧ e.bracketed = "(- 1.0 (- x))"
        ∧ e'.bracketed = "(- 1.0 (- x))" ∧ e.relabel .blank = e'.relabel .blank := by
  have hfor : PlainTokens [⟨.kwFor, "for", 1⟩, ⟨.leftParen, "(", 1⟩, ⟨.semicolon, ";", 1⟩,
      ⟨.semicolon, ";", 1⟩, ⟨.rightParen, ")", 1⟩, ⟨.identifier, "x", 1⟩, ⟨.semicolon, ";", 1⟩,
      ⟨.eof, "", 1⟩] :=
    ⟨"for (;;) x;", by decide +kernel, by decide +kernel⟩
  have hwhile : PlainTokens [⟨.kwWhile, "while", 1⟩, ⟨.leftParen, "(", 1⟩, ⟨.kwTrue, "true", 1⟩,
      ⟨.rightParen, ")", 1⟩, ⟨.identifier, "x", 1⟩, ⟨.semicolon, ";", 1⟩, ⟨.eof, "", 1⟩] :=
    ⟨"while (true) x;", by decide +kernel, by decide +kernel⟩
  have hone : PlainTokens [⟨.number (Decimal.ofParts ['1'] [] 0), "1", 1⟩, ⟨.minus, "-", 1⟩,
      ⟨.minus, "-", 1⟩, ⟨.identifier, "x", 1⟩, ⟨.eof, "", 1⟩] :=
    ⟨"1 - -x", by decide +kernel, by decide +kernel⟩
  have htwo : PlainTokens [⟨.number (Decimal.ofParts ['1'] ['0'] 0), "1.0", 1⟩, ⟨.minus, "-", 1⟩,
      ⟨.minus, "-", 2⟩, ⟨.identifier, "x", 2⟩, ⟨.eof, "", 2⟩] :=
    ⟨"1.0-\n-x", by decide +kernel, by decide +kernel⟩
  constructor
  · obtain ⟨s, hs, htext⟩ := Stmt.exists_isParsed hfor ⟨255, true⟩ 0 (w := "(while true (; x))")
      (by decide +kernel)
    obtain ⟨s', hs', htext'⟩ := Stmt.exists_isParsed hwhile ⟨255, true⟩ 7 (w := "(while true (; x))")
      (by decide +kernel)
    exact ⟨s, s', hs, hs', htext, htext',
      bracketed_identifies.1 s s' hs hs' (htext.trans htext'.symm)⟩
  · obtain ⟨e, he, htext⟩ := Expr.exists_isParsed hone ⟨255, true⟩ 0 (w := "(- 1.0 (- x))")
      (by decide +kernel)
    obtain ⟨e', he', htext'⟩ := Expr.exists_isParsed htwo ⟨255, true⟩ 7 (w := "(- 1.0 (- x))")
      (by decide +kernel)
    exact ⟨e, e', he, he', htext, htext',
      bracketed_identifies.2 e e' he he' (htext.trans htext'.symm)⟩

end Lox
