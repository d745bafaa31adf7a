import Lox.Proofs.Bracketed.Nested

/-!
The bracketed form of a tree as nested lists of words, of which it is the text.
-/

namespace Lox

open Nested (textEach)

/-- The superclass of a class with the mark before it. -/
def Nested.ancestor : Option Nested → List Nested
  | none => []
  | some part => [.word "<", part]

mutual

/-- The expression as nested lists of words. -/
def Expr.nested : Expr → Nested
  | .literal _ value => .word value.bracketed
  | .unary _ operator right => .list [.word operator.lexeme, right.nested]
  | .binary _ left operator right | .logical _ left operator right =>
    .list [.word operator.lexeme, left.nested, right.nested]
  | .grouping _ inner => .list [.word "group", inner.nested]
  | .var _ name => .word name.lexeme
  | .assign _ name value => .list [.word "=", .word name.lexeme, value.nested]
  | .call _ callee _ arguments => .list (.word "call" :: callee.nested :: Expr.nestedEach arguments)
  | .get _ object name => .list [.word ".", object.nested, .word name.lexeme]
  | .set _ object name value =>
    .list [.word "=", .list [.word ".", object.nested, .word name.lexeme], value.nested]
  | .this _ _ => .word "this"
  | .super _ _ method => .list [.word "super", .word method.lexeme]

/-- The expressions as nested lists of words. -/
def Expr.nestedEach : List Expr → List Nested
  | [] => []
  | e :: rest => e.nested :: Expr.nestedEach rest

end

mutual

/-- The statement as nested lists of words. -/
def Stmt.nested : Stmt → Nested
  | .expression value => .list [.word ";", value.nested]
  | .varDecl name (some initializer) =>
    .list [.word "var", .word name.lexeme, initializer.nested]
  | .varDecl name none => .list [.word "var", .word name.lexeme]
  | .block body => .list (.word "block" :: Stmt.nestedEach body)
  | .ifThen condition thenBranch => .list [.word "if", condition.nested, thenBranch.nested]
  | .ifElse condition thenBranch elseBranch =>
    .list [.word "if", condition.nested, thenBranch.nested, elseBranch.nested]
  | .whileLoop condition body => .list [.word "while", condition.nested, body.nested]
  | .funDecl routine => routine.nested
  | .returnValue _ (some value) => .list [.word "return", value.nested]
  | .returnValue _ none => .list [.word "return"]
  | .classDecl name superclass methods =>
    .list (.word "class" :: .word name.lexeme
      :: (Nested.ancestor (superclass.map Expr.nested) ++ Routine.nestedEach methods))

/-- The statements as nested lists of words. -/
def Stmt.nestedEach : List Stmt → List Nested
  | [] => []
  | s :: rest => s.nested :: Stmt.nestedEach rest

/-- The function as nested lists of words. -/
def Routine.nested : Routine → Nested
  | .mk name params body =>
    .list [.word "fun", .word name.lexeme, .list (params.map fun p => .word p.lexeme),
      .list (.word "block" :: Stmt.nestedEach body)]

/-- The methods as nested lists of words. -/
def Routine.nestedEach : List Routine → List Nested
  | [] => []
  | r :: rest => r.nested :: Routine.nestedEach rest

end

/-! ### Texts -/

mutual

/-- The bracketed form of an expression is the text of its nested list. -/
theorem Expr.text_nested : ∀ e : Expr, e.nested.text = e.bracketed.toList
  | .literal _ _ => rfl
  | .unary _ _ right => by
    simp [Expr.nested, Expr.bracketed, Nested.text, textEach, right.text_nested]
  | .binary _ left _ right => by
    simp [Expr.nested, Expr.bracketed, Nested.text, textEach, left.text_nested, right.text_nested]
  | .logical _ left _ right => by
    simp [Expr.nested, Expr.bracketed, Nested.text, textEach, left.text_nested, right.text_nested]
  | .grouping _ inner => by
    simp [Expr.nested, Expr.bracketed, Nested.text, textEach, inner.text_nested]
  | .var _ _ => rfl
  | .assign _ _ value => by
    simp [Expr.nested, Expr.bracketed, Nested.text, textEach, value.text_nested]
  | .call _ callee _ arguments => by
    simp [Expr.nested, Expr.bracketed, Nested.text, textEach, callee.text_nested,
      Expr.textEach_nestedEach arguments]
  | .get _ object _ => by
    simp [Expr.nested, Expr.bracketed, Nested.text, textEach, object.text_nested]
  | .set _ object _ value => by
    simp [Expr.nested, Expr.bracketed, Nested.text, textEach, object.text_nested,
      value.text_nested]
  | .this _ _ => rfl
  | .super _ _ _ => by simp [Expr.nested, Expr.bracketed, Nested.text, textEach]

theorem Expr.textEach_nestedEach : ∀ es : List Expr,
    textEach (Expr.nestedEach es) = (Expr.bracketedEach es).toList
  | [] => rfl
  | e :: rest => by
    simp [Expr.nestedEach, Expr.bracketedEach, textEach, e.text_nested,
      Expr.textEach_nestedEach rest]

end

/-- The names of parameters between their parentheses. -/
theorem text_params (params : List Token) :
    (Nested.list (params.map fun p => .word p.lexeme)).text
      = '(' :: ((" ".intercalate (params.map (·.lexeme))).toList ++ [')']) := by
  cases params with
  | nil => rfl
  | cons p params =>
    rw [List.map_cons, List.map_cons, Nested.text]
    congr 1
    rw [← List.append_assoc]
    congr 1
    induction params generalizing p with
    | nil => simp [textEach, Nested.text]
    | cons q params ih =>
      rw [List.map_cons, List.map_cons, String.intercalate_cons_cons, textEach, ih]
      simp [Nested.text]

mutual

/-- The bracketed form of a statement is the text of its nested list. -/
theorem Stmt.text_nested : ∀ s : Stmt, s.nested.text = s.bracketed.toList
  | .expression value => by
    simp [Stmt.nested, Stmt.bracketed, Nested.text, textEach, value.text_nested]
  | .varDecl _ (some initializer) => by
    simp [Stmt.nested, Stmt.bracketed, Nested.text, textEach, initializer.text_nested]
  | .varDecl _ none => by simp [Stmt.nested, Stmt.bracketed, Nested.text, textEach]
  | .block body => by
    simp [Stmt.nested, Stmt.bracketed, Nested.text, Stmt.textEach_nestedEach body]
  | .ifThen condition thenBranch => by
    simp [Stmt.nested, Stmt.bracketed, Nested.text, textEach, condition.text_nested,
      thenBranch.text_nested]
  | .ifElse condition thenBranch elseBranch => by
    simp [Stmt.nested, Stmt.bracketed, Nested.text, textEach, condition.text_nested,
      thenBranch.text_nested, elseBranch.text_nested]
  | .whileLoop condition body => by
    simp [Stmt.nested, Stmt.bracketed, Nested.text, textEach, condition.text_nested,
      body.text_nested]
  | .funDecl routine => routine.text_nested
  | .returnValue _ (some value) => by
    simp [Stmt.nested, Stmt.bracketed, Nested.text, textEach, value.text_nested]
  | .returnValue _ none => by simp [Stmt.nested, Stmt.bracketed, Nested.text, textEach]
  | .classDecl _ (some superclass) methods => by
    simp [Stmt.nested, Stmt.bracketed, Nested.text, textEach, Nested.ancestor,
      superclass.text_nested, Routine.textEach_nestedEach methods]
  | .classDecl _ none methods => by
    simp [Stmt.nested, Stmt.bracketed, Nested.text, textEach, Nested.ancestor,
      Routine.textEach_nestedEach methods]

theorem Stmt.textEach_nestedEach : ∀ body : List Stmt,
    textEach (Stmt.nestedEach body) = (Stmt.bracketedEach body).toList
  | [] => rfl
  | s :: rest => by
    simp [Stmt.nestedEach, Stmt.bracketedEach, textEach, s.text_nested,
      Stmt.textEach_nestedEach rest]

theorem Routine.text_nested : ∀ r : Routine, r.nested.text = r.bracketed.toList
  | .mk _ params body => by
    simp [Routine.nested, Routine.bracketed, Nested.text, textEach, text_params,
      Stmt.textEach_nestedEach body]

theorem Routine.textEach_nestedEach : ∀ methods : List Routine,
    textEach (Routine.nestedEach methods) = (Routine.bracketedEach methods).toList
  | [] => rfl
  | r :: rest => by
    simp [Routine.nestedEach, Routine.bracketedEach, textEach, r.text_nested,
      Routine.textEach_nestedEach rest]

end

end Lox
