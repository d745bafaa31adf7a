import Mathlib.Data.List.Forall2
import Lox.Program.Basic

/-!
The leaves of trees. `Expr.leaves`, `Stmt.leaves` and `Routine.leaves` list what stands in a source for
a tree, and in the order of the source: the tokens that it keeps, and the words and marks that its
nodes stand for. `Fit` says that a list of tokens is made of these leaves, one token for each.
-/

namespace Lox

/-- What stands in a source for a part of a tree. -/
inductive Leaf where
  /-- A token that the tree keeps. -/
  | kept (t : Token)
  /-- A word or a mark that a node stands for. -/
  | word (k : Kind)

/-- The token stands for the leaf: it is the one that was kept, or has the kind of the word. -/
def Leaf.Fits : Leaf → Token → Prop
  | .kept t, t' => t' = t
  | .word k, t' => t'.kind = k

/-- The tokens stand for the leaves, each for one of them and in the same order. -/
def Fit (ps : List Leaf) (ts : List Token) : Prop :=
  List.Forall₂ Leaf.Fits ps ts

/-- One after another, with commas between. -/
def Leaf.listed (pss : List (List Leaf)) : List Leaf :=
  [Leaf.word .comma].intercalate pss

/-- The kind of token that stands for a constant. -/
def Literal.kind : Literal → Kind
  | .nil => .kwNil
  | .boolean true => .kwTrue
  | .boolean false => .kwFalse
  | .number value => .number value
  | .string contents => .string contents

/-! ### Trees -/

mutual

/-- The leaves of an expression. -/
def Expr.leaves : Expr → List Leaf
  | .literal _ value => [.word value.kind]
  | .unary _ operator right => .kept operator :: right.leaves
  | .binary _ left operator right | .logical _ left operator right =>
    left.leaves ++ .kept operator :: right.leaves
  | .grouping _ inner => .word .leftParen :: (inner.leaves ++ [.word .rightParen])
  | .var _ name => [.kept name]
  | .assign _ name value => .kept name :: .word .equal :: value.leaves
  | .call _ callee paren arguments =>
    callee.leaves ++ .word .leftParen :: (Leaf.listed (Expr.leavesEach arguments) ++ [.kept paren])
  | .get _ object name => object.leaves ++ [.word .dot, .kept name]
  | .set _ object name value =>
    object.leaves ++ .word .dot :: .kept name :: .word .equal :: value.leaves
  | .this _ keyword => [.kept keyword]
  | .super _ keyword method => [.kept keyword, .word .dot, .kept method]

/-- The leaves of each expression. -/
def Expr.leavesEach : List Expr → List (List Leaf)
  | [] => []
  | e :: rest => e.leaves :: Expr.leavesEach rest

end

/-- The leaves of an expression that may be missing, and before them those that come with it. -/
def Expr.leavesOption (before : List Leaf) : Option Expr → List Leaf
  | none => []
  | some e => before ++ e.leaves

mutual

/-- The leaves of a statement. -/
def Stmt.leaves : Stmt → List Leaf
  | .expression value => value.leaves ++ [.word .semicolon]
  | .varDecl name initializer =>
    .word .kwVar :: .kept name
      :: (Expr.leavesOption [.word .equal] initializer ++ [.word .semicolon])
  | .block body => .word .leftBrace :: (Stmt.leavesEach body ++ [.word .rightBrace])
  | .ifThen condition thenBranch =>
    .word .kwIf :: .word .leftParen
      :: (condition.leaves ++ .word .rightParen :: thenBranch.leaves)
  | .ifElse condition thenBranch elseBranch =>
    .word .kwIf :: .word .leftParen
      :: (condition.leaves
        ++ .word .rightParen :: (thenBranch.leaves ++ .word .kwElse :: elseBranch.leaves))
  | .whileLoop condition body =>
    .word .kwWhile :: .word .leftParen
      :: (condition.leaves ++ .word .rightParen :: body.leaves)
  | .funDecl routine => .word .kwFun :: routine.leaves
  | .returnValue keyword value =>
    .kept keyword :: (Expr.leavesOption [] value ++ [.word .semicolon])
  | .classDecl name superclass methods =>
    .word .kwClass :: .kept name
      :: (Expr.leavesOption [.word .colon] superclass
        ++ .word .leftBrace :: (Routine.leavesEach methods ++ [.word .rightBrace]))

/-- The leaves of statements. -/
def Stmt.leavesEach : List Stmt → List Leaf
  | [] => []
  | s :: rest => s.leaves ++ Stmt.leavesEach rest

/-- The leaves of a function or method, from its name on. -/
def Routine.leaves : Routine → List Leaf
  | .mk name params body =>
    .kept name :: .word .leftParen
      :: (Leaf.listed (params.map fun p => [.kept p])
        ++ .word .rightParen :: .word .leftBrace
          :: (Stmt.leavesEach body ++ [.word .rightBrace]))

/-- The leaves of the methods of a class. -/
def Routine.leavesEach : List Routine → List Leaf
  | [] => []
  | r :: rest => r.leaves ++ Routine.leavesEach rest

end

/-! ### Leaves and tokens -/

section

variable {p : Leaf} {ps qs : List Leaf} {pss : List (List Leaf)} {ts : List Token}

@[simp] theorem fit_nil_iff : Fit [] ts ↔ ts = [] :=
  List.forall₂_nil_left_iff

theorem fit_cons_iff : Fit (p :: ps) ts ↔ ∃ t us, p.Fits t ∧ Fit ps us ∧ ts = t :: us :=
  List.forall₂_cons_left_iff

theorem fit_append_iff : Fit (ps ++ qs) ts ↔ ∃ us vs, Fit ps us ∧ Fit qs vs ∧ ts = us ++ vs := by
  constructor
  · intro h
    induction ps generalizing ts with
    | nil => exact ⟨[], ts, .nil, h, rfl⟩
    | cons p ps ih =>
      obtain ⟨t, us, ht, hus, rfl⟩ := fit_cons_iff.1 h
      obtain ⟨vs, ws, hvs, hws, rfl⟩ := ih hus
      exact ⟨t :: vs, ws, .cons ht hvs, hws, rfl⟩
  · rintro ⟨us, vs, hus, hvs, rfl⟩
    exact List.rel_append hus hvs

theorem listed_single : Leaf.listed [ps] = ps := by
  simp [Leaf.listed]

theorem listed_cons (h : pss ≠ []) :
    Leaf.listed (ps :: pss) = ps ++ .word .comma :: Leaf.listed pss := by
  cases pss with
  | nil => exact absurd rfl h
  | cons qs pss => simp [Leaf.listed, List.intercalate]

end

end Lox
