import Lox.Program.Basic

/-!
Equality of programs can be decided: two trees are the same if they are made in the same way of the same
numbers, tokens and parts.
-/

namespace Lox

mutual

/-- The expressions are the same. -/
def Expr.beq : Expr → Expr → Bool
  | .literal id value, .literal id' value' => id = id' && value = value'
  | .unary id operator right, .unary id' operator' right' =>
    id = id' && operator = operator' && right.beq right'
  | .binary id left operator right, .binary id' left' operator' right'
  | .logical id left operator right, .logical id' left' operator' right' =>
    id = id' && left.beq left' && operator = operator' && right.beq right'
  | .grouping id inner, .grouping id' inner' => id = id' && inner.beq inner'
  | .var id name, .var id' name' => id = id' && name = name'
  | .assign id name value, .assign id' name' value' =>
    id = id' && name = name' && value.beq value'
  | .call id callee paren arguments, .call id' callee' paren' arguments' =>
    id = id' && callee.beq callee' && paren = paren' && Expr.beqEach arguments arguments'
  | .get id object name, .get id' object' name' =>
    id = id' && object.beq object' && name = name'
  | .set id object name value, .set id' object' name' value' =>
    id = id' && object.beq object' && name = name' && value.beq value'
  | .this id keyword, .this id' keyword' => id = id' && keyword = keyword'
  | .super id keyword method, .super id' keyword' method' =>
    id = id' && keyword = keyword' && method = method'
  | _, _ => false

def Expr.beqEach : List Expr → List Expr → Bool
  | [], [] => true
  | e :: rest, e' :: rest' => e.beq e' && Expr.beqEach rest rest'
  | _, _ => false

end

mutual

theorem Expr.beq_iff : ∀ e e' : Expr, e.beq e' = true ↔ e = e'
  | .literal _ _, e' | .var _ _, e' | .this _ _, e' | .super _ _ _, e' => by
    cases e' <;> simp [Expr.beq, and_assoc]
  | .unary _ _ right, e' => by cases e' <;> simp [Expr.beq, Expr.beq_iff right, and_assoc]
  | .grouping _ inner, e' => by cases e' <;> simp [Expr.beq, Expr.beq_iff inner]
  | .assign _ _ value, e' => by cases e' <;> simp [Expr.beq, Expr.beq_iff value, and_assoc]
  | .get _ object _, e' => by cases e' <;> simp [Expr.beq, Expr.beq_iff object, and_assoc]
  | .binary _ left _ right, e' | .logical _ left _ right, e' => by
    cases e' <;> simp [Expr.beq, Expr.beq_iff left, Expr.beq_iff right, and_assoc]
  | .set _ object _ value, e' => by
    cases e' <;> simp [Expr.beq, Expr.beq_iff object, Expr.beq_iff value, and_assoc]
  | .call _ callee _ arguments, e' => by
    cases e' <;> simp [Expr.beq, Expr.beq_iff callee, Expr.beqEach_iff arguments, and_assoc]

theorem Expr.beqEach_iff : ∀ es es' : List Expr, Expr.beqEach es es' = true ↔ es = es'
  | [], es' => by cases es' <;> simp [Expr.beqEach]
  | e :: rest, es' => by
    cases es' <;> simp [Expr.beqEach, Expr.beq_iff e, Expr.beqEach_iff rest]

end

instance : DecidableEq Expr := fun e e' => decidable_of_iff _ (e.beq_iff e')

mutual

/-- The statements are the same. -/
def Stmt.beq : Stmt → Stmt → Bool
  | .expression value, .expression value' => value = value'
  | .varDecl name initializer, .varDecl name' initializer' =>
    name = name' && initializer = initializer'
  | .block body, .block body' => Stmt.beqEach body body'
  | .ifThen condition thenBranch, .ifThen condition' thenBranch' =>
    condition = condition' && thenBranch.beq thenBranch'
  | .ifElse condition thenBranch elseBranch, .ifElse condition' thenBranch' elseBranch' =>
    condition = condition' && thenBranch.beq thenBranch' && elseBranch.beq elseBranch'
  | .whileLoop condition body, .whileLoop condition' body' =>
    condition = condition' && body.beq body'
  | .funDecl routine, .funDecl routine' => routine.beq routine'
  | .returnValue keyword value, .returnValue keyword' value' =>
    keyword = keyword' && value = value'
  | .classDecl name superclass methods, .classDecl name' superclass' methods' =>
    name = name' && superclass = superclass' && Routine.beqEach methods methods'
  | _, _ => false

def Stmt.beqEach : List Stmt → List Stmt → Bool
  | [], [] => true
  | s :: rest, s' :: rest' => s.beq s' && Stmt.beqEach rest rest'
  | _, _ => false

def Routine.beq : Routine → Routine → Bool
  | .mk name params body, .mk name' params' body' =>
    name = name' && params = params' && Stmt.beqEach body body'

def Routine.beqEach : List Routine → List Routine → Bool
  | [], [] => true
  | r :: rest, r' :: rest' => r.beq r' && Routine.beqEach rest rest'
  | _, _ => false

end

mutual

theorem Stmt.beq_iff : ∀ s s' : Stmt, s.beq s' = true ↔ s = s'
  | .expression _, s' | .varDecl _ _, s' | .returnValue _ _, s' => by
    cases s' <;> simp [Stmt.beq]
  | .block body, s' => by cases s' <;> simp [Stmt.beq, Stmt.beqEach_iff body]
  | .ifThen _ thenBranch, s' => by cases s' <;> simp [Stmt.beq, Stmt.beq_iff thenBranch]
  | .ifElse _ thenBranch elseBranch, s' => by
    cases s' <;> simp [Stmt.beq, Stmt.beq_iff thenBranch, Stmt.beq_iff elseBranch, and_assoc]
  | .whileLoop _ body, s' => by cases s' <;> simp [Stmt.beq, Stmt.beq_iff body]
  | .funDecl routine, s' => by cases s' <;> simp [Stmt.beq, Routine.beq_iff routine]
  | .classDecl _ _ methods, s' => by
    cases s' <;> simp [Stmt.beq, Routine.beqEach_iff methods, and_assoc]

theorem Stmt.beqEach_iff : ∀ p p' : List Stmt, Stmt.beqEach p p' = true ↔ p = p'
  | [], p' => by cases p' <;> simp [Stmt.beqEach]
  | s :: rest, p' => by
    cases p' <;> simp [Stmt.beqEach, Stmt.beq_iff s, Stmt.beqEach_iff rest]

theorem Routine.beq_iff : ∀ r r' : Routine, r.beq r' = true ↔ r = r'
  | .mk _ _ body, .mk _ _ _ => by simp [Routine.beq, Stmt.beqEach_iff body, and_assoc]

theorem Routine.beqEach_iff : ∀ rs rs' : List Routine, Routine.beqEach rs rs' = true ↔ rs = rs'
  | [], rs' => by cases rs' <;> simp [Routine.beqEach]
  | r :: rest, rs' => by
    cases rs' <;> simp [Routine.beqEach, Routine.beq_iff r, Routine.beqEach_iff rest]

end

instance : DecidableEq Stmt := fun s s' => decidable_of_iff _ (s.beq_iff s')

end Lox
