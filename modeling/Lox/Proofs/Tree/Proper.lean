import Lox.Program.Basic

/-!
Trees that the grammar gives: the numbers of the expressions in a tree, `Rising`, which says that
they are greater further out, and `Proper`, which says what the grammar says beyond the type of trees.
Names are no keywords, `this` and `super` are spelled so, a superclass is a name, and what a choice or
a loop executes declares nothing.
-/

namespace Lox

/-- The token may stand as a name: it is spelled neither `this` nor `super`. -/
def Token.IsName (t : Token) : Prop :=
  t.lexeme ≠ "this" ∧ t.lexeme ≠ "super"

/-- The token is spelled as its kind says, as far as names go. -/
def Token.Sound (t : Token) : Prop :=
  (t.kind = .identifier → t.IsName) ∧ (t.kind = .kwThis → t.lexeme = "this")
    ∧ (t.kind = .kwSuper → t.lexeme = "super")

/-! ### Numbers -/

mutual

/-- The numbers of an expression and of those in it. -/
def Expr.ids : Expr → List Nat
  | .literal id _ | .var id _ | .this id _ | .super id _ _ => [id]
  | .unary id _ right => id :: right.ids
  | .binary id left _ right | .logical id left _ right => id :: (left.ids ++ right.ids)
  | .grouping id inner => id :: inner.ids
  | .assign id _ value => id :: value.ids
  | .call id callee _ arguments => id :: (callee.ids ++ Expr.idsEach arguments)
  | .get id object _ => id :: object.ids
  | .set id object _ value => id :: (object.ids ++ value.ids)

/-- The numbers of expressions and of those in them. -/
def Expr.idsEach : List Expr → List Nat
  | [] => []
  | e :: rest => e.ids ++ Expr.idsEach rest

end

/-- The numbers of an expression that may be missing. -/
def Expr.idsOption : Option Expr → List Nat
  | none => []
  | some e => e.ids

mutual

/-- The numbers of the expressions in a statement. -/
def Stmt.ids : Stmt → List Nat
  | .expression value => value.ids
  | .varDecl _ initializer => Expr.idsOption initializer
  | .block body => Stmt.idsEach body
  | .ifThen condition thenBranch => condition.ids ++ thenBranch.ids
  | .ifElse condition thenBranch elseBranch => condition.ids ++ (thenBranch.ids ++ elseBranch.ids)
  | .whileLoop condition body => condition.ids ++ body.ids
  | .funDecl routine => routine.ids
  | .returnValue _ value => Expr.idsOption value
  | .classDecl _ superclass methods => Expr.idsOption superclass ++ Routine.idsEach methods

/-- The numbers of the expressions in statements. -/
def Stmt.idsEach : List Stmt → List Nat
  | [] => []
  | s :: rest => s.ids ++ Stmt.idsEach rest

/-- The numbers of the expressions in a function or method. -/
def Routine.ids : Routine → List Nat
  | .mk _ _ body => Stmt.idsEach body

/-- The numbers of the expressions in the methods of a class. -/
def Routine.idsEach : List Routine → List Nat
  | [] => []
  | r :: rest => r.ids ++ Routine.idsEach rest

end

/-! ### Numbers that rise outward -/

mutual

/-- Every expression, this one and each one in it, has a greater number than those inside it. -/
def Expr.Rising : Expr → Prop
  | .literal _ _ | .var _ _ | .this _ _ | .super _ _ _ => True
  | .unary id _ inner | .grouping id inner | .assign id _ inner | .get id inner _ =>
    (∀ i ∈ inner.ids, i < id) ∧ inner.Rising
  | .binary id left _ right | .logical id left _ right | .set id left _ right =>
    (∀ i ∈ left.ids ++ right.ids, i < id) ∧ left.Rising ∧ right.Rising
  | .call id callee _ arguments =>
    (∀ i ∈ callee.ids ++ Expr.idsEach arguments, i < id) ∧ callee.Rising
      ∧ Expr.RisingEach arguments

/-- The numbers rise outward in all of the expressions. -/
def Expr.RisingEach : List Expr → Prop
  | [] => True
  | e :: rest => e.Rising ∧ Expr.RisingEach rest

end

/-- The numbers rise outward in an expression that may be missing. -/
def Expr.RisingOption : Option Expr → Prop
  | none => True
  | some e => e.Rising

mutual

/-- The numbers rise outward in the expressions of a statement. -/
def Stmt.Rising : Stmt → Prop
  | .expression value => value.Rising
  | .varDecl _ initializer => Expr.RisingOption initializer
  | .block body => Stmt.RisingEach body
  | .ifThen condition thenBranch => condition.Rising ∧ thenBranch.Rising
  | .ifElse condition thenBranch elseBranch =>
    condition.Rising ∧ thenBranch.Rising ∧ elseBranch.Rising
  | .whileLoop condition body => condition.Rising ∧ body.Rising
  | .funDecl routine => routine.Rising
  | .returnValue _ value => Expr.RisingOption value
  | .classDecl _ superclass methods => Expr.RisingOption superclass ∧ Routine.RisingEach methods

/-- The numbers rise outward in the expressions of statements. -/
def Stmt.RisingEach : List Stmt → Prop
  | [] => True
  | s :: rest => s.Rising ∧ Stmt.RisingEach rest

/-- The numbers rise outward in the expressions of a function or method. -/
def Routine.Rising : Routine → Prop
  | .mk _ _ body => Stmt.RisingEach body

/-- The numbers rise outward in the expressions of the methods of a class. -/
def Routine.RisingEach : List Routine → Prop
  | [] => True
  | r :: rest => r.Rising ∧ Routine.RisingEach rest

end

/-! ### What the grammar says -/

mutual

/-- The expression is one that the grammar gives. -/
def Expr.Proper : Expr → Prop
  | .literal _ _ => True
  | .var _ name => name.IsName
  | .this _ keyword => keyword.lexeme = "this"
  | .super _ keyword _ => keyword.lexeme = "super"
  | .unary _ _ right => right.Proper
  | .binary _ left _ right | .logical _ left _ right => left.Proper ∧ right.Proper
  | .grouping _ inner => inner.Proper
  | .assign _ name value => name.IsName ∧ value.Proper
  | .call _ callee _ arguments => callee.Proper ∧ Expr.ProperEach arguments
  | .get _ object _ => object.Proper
  | .set _ object _ value => object.Proper ∧ value.Proper

/-- The expressions are all ones that the grammar gives. -/
def Expr.ProperEach : List Expr → Prop
  | [] => True
  | e :: rest => e.Proper ∧ Expr.ProperEach rest

end

/-- An expression that may be missing is one that the grammar gives. -/
def Expr.ProperOption : Option Expr → Prop
  | none => True
  | some e => e.Proper

/-- The superclass, if there is one, is a name. -/
def Expr.ProperSuperclass : Option Expr → Prop
  | none => True
  | some e => ∃ id name, e = .var id name ∧ name.IsName

/-- The statement declares a name in the scope it stands in. -/
def Stmt.declares : Stmt → Bool
  | .varDecl _ _ | .funDecl _ | .classDecl _ _ _ => true
  | _ => false

mutual

/-- The statement is one that the grammar gives. -/
def Stmt.Proper : Stmt → Prop
  | .expression value => value.Proper
  | .varDecl name initializer => name.IsName ∧ Expr.ProperOption initializer
  | .block body => Stmt.ProperEach body
  | .ifThen condition thenBranch =>
    condition.Proper ∧ thenBranch.Proper ∧ thenBranch.declares = false
  | .ifElse condition thenBranch elseBranch =>
    condition.Proper ∧ (thenBranch.Proper ∧ thenBranch.declares = false)
      ∧ elseBranch.Proper ∧ elseBranch.declares = false
  | .whileLoop condition body => condition.Proper ∧ body.Proper ∧ body.declares = false
  | .funDecl routine => routine.Proper
  | .returnValue _ value => Expr.ProperOption value
  | .classDecl name superclass methods =>
    name.IsName ∧ Expr.ProperSuperclass superclass ∧ Routine.ProperEach methods

/-- The statements are all ones that the grammar gives. -/
def Stmt.ProperEach : List Stmt → Prop
  | [] => True
  | s :: rest => s.Proper ∧ Stmt.ProperEach rest

/-- The function or method is one that the grammar gives. -/
def Routine.Proper : Routine → Prop
  | .mk name params body => name.IsName ∧ (∀ p ∈ params, p.IsName) ∧ Stmt.ProperEach body

/-- The methods are all ones that the grammar gives. -/
def Routine.ProperEach : List Routine → Prop
  | [] => True
  | r :: rest => r.Proper ∧ Routine.ProperEach rest

end

end Lox
