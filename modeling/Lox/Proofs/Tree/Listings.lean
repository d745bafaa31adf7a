import Lox.Diagnostic
import Lox.Program.Basic
import Mathlib.Data.List.ReduceOption

/-!
The lists of parameters and of arguments in a tree, each with its length, and by how many entries those
of one kind are too long for a limit.
-/

namespace Lox

mutual

/-- The lists of arguments in an expression. -/
def Expr.listings : Expr → List (Listing × Nat)
  | .literal _ _ | .var _ _ | .this _ _ | .super _ _ _ => []
  | .unary _ _ right => right.listings
  | .binary _ left _ right | .logical _ left _ right => left.listings ++ right.listings
  | .grouping _ inner => inner.listings
  | .assign _ _ value => value.listings
  | .call _ callee _ arguments =>
    callee.listings ++ Expr.listingsEach arguments ++ [(.arguments, arguments.length)]
  | .get _ object _ => object.listings
  | .set _ object _ value => object.listings ++ value.listings

/-- The lists of arguments in expressions. -/
def Expr.listingsEach : List Expr → List (Listing × Nat)
  | [] => []
  | e :: rest => e.listings ++ Expr.listingsEach rest

end

/-- The lists of arguments in an expression that may be missing. -/
def Expr.listingsOption : Option Expr → List (Listing × Nat)
  | none => []
  | some e => e.listings

mutual

/-- The lists of parameters and of arguments in a statement. -/
def Stmt.listings : Stmt → List (Listing × Nat)
  | .expression value => value.listings
  | .varDecl _ initializer => Expr.listingsOption initializer
  | .block body => Stmt.listingsEach body
  | .ifThen condition thenBranch => condition.listings ++ thenBranch.listings
  | .ifElse condition thenBranch elseBranch =>
    condition.listings ++ thenBranch.listings ++ elseBranch.listings
  | .whileLoop condition body => condition.listings ++ body.listings
  | .funDecl routine => routine.listings
  | .returnValue _ value => Expr.listingsOption value
  | .classDecl _ superclass methods =>
    Expr.listingsOption superclass ++ Routine.listingsEach methods

/-- The lists of parameters and of arguments in statements. -/
def Stmt.listingsEach : List Stmt → List (Listing × Nat)
  | [] => []
  | s :: rest => s.listings ++ Stmt.listingsEach rest

/-- The parameters of a function or method, and the lists in its body. -/
def Routine.listings : Routine → List (Listing × Nat)
  | .mk _ params body => (.parameters, params.length) :: Stmt.listingsEach body

/-- The lists of parameters and of arguments in functions or methods. -/
def Routine.listingsEach : List Routine → List (Listing × Nat)
  | [] => []
  | r :: rest => r.listings ++ Routine.listingsEach rest

end

theorem Expr.listingsEach_eq_flatMap (es : List Expr) :
    Expr.listingsEach es = es.flatMap Expr.listings := by
  induction es with
  | nil => rfl
  | cons e rest ih => rw [Expr.listingsEach, ih, List.flatMap_cons]

theorem Routine.listingsEach_eq_flatMap (methods : List Routine) :
    Routine.listingsEach methods = methods.flatMap Routine.listings := by
  induction methods with
  | nil => rfl
  | cons r rest ih => rw [Routine.listingsEach, ih, List.flatMap_cons]

/-- The lists in a statement that may be missing. -/
def Stmt.listingsOption (s? : Option Stmt) : List (Listing × Nat) :=
  Stmt.listingsEach s?.toList

theorem Stmt.flatMap_listingsOption (body : List (Option Stmt)) :
    body.flatMap Stmt.listingsOption = Stmt.listingsEach body.reduceOption := by
  induction body with
  | nil => rfl
  | cons s? rest ih =>
    rw [List.flatMap_cons, ih]
    cases s? with
    | none => rw [List.reduceOption_cons_of_none]; rfl
    | some s =>
      rw [List.reduceOption_cons_of_some, Stmt.listingsEach, Stmt.listingsOption, Option.toList_some,
        Stmt.listingsEach, Stmt.listingsEach, List.append_nil]

/-! ### Entries beyond a limit -/

/-- How many entries beyond `max` the lists of one kind have, all of them together. -/
def excess (max : Nat) (what : Listing) : List (Listing × Nat) → Nat
  | [] => 0
  | list :: lists => (if list.1 = what then list.2 - max else 0) + excess max what lists

section

variable (max : Nat) (what : Listing)

@[simp] theorem excess_nil : excess max what [] = 0 := rfl

@[simp] theorem excess_cons (list : Listing × Nat) (lists : List (Listing × Nat)) :
    excess max what (list :: lists)
      = (if list.1 = what then list.2 - max else 0) + excess max what lists := rfl

@[simp] theorem excess_append (lists lists' : List (Listing × Nat)) :
    excess max what (lists ++ lists') = excess max what lists + excess max what lists' := by
  induction lists with
  | nil => rw [List.nil_append, excess_nil, Nat.zero_add]
  | cons list lists ih => rw [List.cons_append, excess_cons, excess_cons, ih, Nat.add_assoc]

theorem excess_eq_zero_iff (lists : List (Listing × Nat)) :
    excess max what lists = 0 ↔ ∀ list ∈ lists, list.1 = what → list.2 ≤ max := by
  induction lists with
  | nil => simp
  | cons list lists ih =>
    rw [excess_cons, Nat.add_eq_zero_iff, ih, List.forall_mem_cons]
    split <;> simp_all [Nat.sub_eq_zero_iff_le]

end

end Lox
