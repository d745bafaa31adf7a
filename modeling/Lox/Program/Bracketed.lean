import Lox.Program.Basic

/-!
Trees in bracketed form: every node is written as a list in parentheses that starts with what the
node is, as in `(+ 1.0 (* 2.0 3.0))`.
-/

namespace Lox

/-- A constant in bracketed form; a string stands without quotes. -/
def Literal.bracketed : Literal → String
  | .nil => "nil"
  | .boolean true => "true"
  | .boolean false => "false"
  | .number value => Decimal.pointed.render value
  | .string contents => contents

mutual

/-- An expression in bracketed form. -/
def Expr.bracketed : Expr → String
  | .literal _ value => value.bracketed
  | .unary _ operator right => "(" ++ operator.lexeme ++ " " ++ right.bracketed ++ ")"
  | .binary _ left operator right | .logical _ left operator right =>
    "(" ++ operator.lexeme ++ " " ++ left.bracketed ++ " " ++ right.bracketed ++ ")"
  | .grouping _ inner => "(group " ++ inner.bracketed ++ ")"
  | .var _ name => name.lexeme
  | .assign _ name value => "(= " ++ name.lexeme ++ " " ++ value.bracketed ++ ")"
  | .call _ callee _ arguments =>
    "(call " ++ callee.bracketed ++ Expr.bracketedEach arguments ++ ")"
  | .get _ object name => "(. " ++ object.bracketed ++ " " ++ name.lexeme ++ ")"
  | .set _ object name value =>
    "(= (. " ++ object.bracketed ++ " " ++ name.lexeme ++ ") " ++ value.bracketed ++ ")"
  | .this _ _ => "this"
  | .super _ _ method => "(super " ++ method.lexeme ++ ")"

/-- Expressions in bracketed form, with a space in front of each. -/
def Expr.bracketedEach : List Expr → String
  | [] => ""
  | e :: rest => " " ++ e.bracketed ++ Expr.bracketedEach rest

end

mutual

/-- A statement in bracketed form. -/
def Stmt.bracketed : Stmt → String
  | .expression value => "(; " ++ value.bracketed ++ ")"
  | .varDecl name (some initializer) =>
    "(var " ++ name.lexeme ++ " " ++ initializer.bracketed ++ ")"
  | .varDecl name none => "(var " ++ name.lexeme ++ ")"
  | .block body => "(block" ++ Stmt.bracketedEach body ++ ")"
  | .ifThen condition thenBranch =>
    "(if " ++ condition.bracketed ++ " " ++ thenBranch.bracketed ++ ")"
  | .ifElse condition thenBranch elseBranch =>
    "(if " ++ condition.bracketed ++ " " ++ thenBranch.bracketed ++ " " ++ elseBranch.bracketed
      ++ ")"
  | .whileLoop condition body => "(while " ++ condition.bracketed ++ " " ++ body.bracketed ++ ")"
  | .funDecl routine => routine.bracketed
  | .returnValue _ (some value) => "(return " ++ value.bracketed ++ ")"
  | .returnValue _ none => "(return)"
  | .classDecl name superclass methods =>
    let ancestor := match superclass with
      | some e => " < " ++ e.bracketed
      | none => ""
    "(class " ++ name.lexeme ++ ancestor ++ Routine.bracketedEach methods ++ ")"

/-- Statements in bracketed form, with a space in front of each. -/
def Stmt.bracketedEach : List Stmt → String
  | [] => ""
  | s :: rest => " " ++ s.bracketed ++ Stmt.bracketedEach rest

/-- A function in bracketed form. -/
def Routine.bracketed : Routine → String
  | .mk name params body =>
    "(fun " ++ name.lexeme ++ " (" ++ " ".intercalate (params.map (·.lexeme)) ++ ") (block"
      ++ Stmt.bracketedEach body ++ "))"

/-- Methods in bracketed form, with a space in front of each. -/
def Routine.bracketedEach : List Routine → String
  | [] => ""
  | r :: rest => " " ++ r.bracketed ++ Routine.bracketedEach rest

end

end Lox
