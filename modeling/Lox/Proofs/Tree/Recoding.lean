import Lox.Proofs.Execution.Code
import Lox.Proofs.Tree.Relabel

/-!
Other code that does the same. A `Recoding` changes the lines of tokens, the numbers of expressions and
the bodies of functions; in a list of statements it may leave out what comes after a `return`. Every
`Relabel` is one, which leaves out nothing.
-/

namespace Lox

/-- The statement with other lines and numbers, and with other statements and functions in it. -/
def Stmt.rebuild (g : Relabel) (stmt : Stmt → Stmt) (body : List Stmt → List Stmt)
    (routine : Routine → Routine) : Stmt → Stmt
  | .expression value => .expression (value.relabel g)
  | .varDecl name initializer => .varDecl (name.relabel g) (initializer.map (Expr.relabel g))
  | .block statements => .block (body statements)
  | .ifThen condition thenBranch => .ifThen (condition.relabel g) (stmt thenBranch)
  | .ifElse condition thenBranch elseBranch =>
    .ifElse (condition.relabel g) (stmt thenBranch) (stmt elseBranch)
  | .whileLoop condition inner => .whileLoop (condition.relabel g) (stmt inner)
  | .funDecl r => .funDecl (routine r)
  | .returnValue keyword value => .returnValue (keyword.relabel g) (value.map (Expr.relabel g))
  | .classDecl name superclass methods =>
    .classDecl (name.relabel g) (superclass.map (Expr.relabel g)) (methods.map routine)

/-- What to write for statements and functions, besides lines and numbers. -/
structure Recoding extends Relabel where
  stmt : Stmt → Stmt
  body : List Stmt → List Stmt
  routine : Routine → Routine
  stmt_eq : ∀ s, stmt s = s.rebuild toRelabel stmt body routine
  routine_eq : ∀ name params statements, routine (.mk name params statements)
    = .mk (name.relabel toRelabel) (params.map (Token.relabel toRelabel)) (body statements)
  body_nil : body [] = []
  body_cons : ∀ s rest, body (s :: rest) = stmt s :: body rest
    ∨ s.isReturn = true ∧ body (s :: rest) = [stmt s]

namespace Recoding

variable (g : Recoding) (r : Routine)

@[simp] theorem routine_name : (g.routine r).name = r.name.relabel g.toRelabel := by
  cases r
  rw [g.routine_eq]
  rfl

@[simp] theorem routine_params :
    (g.routine r).params = r.params.map (Token.relabel g.toRelabel) := by
  cases r
  rw [g.routine_eq]
  rfl

@[simp] theorem routine_body : (g.routine r).body = g.body r.body := by
  cases r
  rw [g.routine_eq]
  rfl

end Recoding

/-- Other lines and numbers, and all statements. -/
def Relabel.recoding (g : Relabel) : Recoding where
  toRelabel := g
  stmt := Stmt.relabel g
  body := Stmt.relabelEach g
  routine := Routine.relabel g
  stmt_eq s := by
    cases s with
    | classDecl name superclass methods =>
      rw [Stmt.relabel, Stmt.rebuild, Routine.relabelEach_eq_map]
    | _ => rfl
  routine_eq _ _ _ := rfl
  body_nil := rfl
  body_cons _ _ := .inl rfl

end Lox
