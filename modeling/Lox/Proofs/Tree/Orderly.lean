import Lox.Proofs.Tree.Proper

/-!
Orderly programs: no scope of a function or a block declares a name after it has occurred in that
scope, and no variable of such a scope is assigned in its own initializer. `Stmt.orderly` says so of
all scopes inside a statement, and `Stmt.orderlyScope` of a scope with these statements; the globals
may be declared in any order.
-/

namespace Lox

/-! ### Names that occur -/

mutual

/-- The names that occur in an expression as a variable or as the target of an assignment. -/
def Expr.mentions : Expr → List String
  | .literal _ _ | .this _ _ | .super _ _ _ => []
  | .unary _ _ right => right.mentions
  | .binary _ left _ right | .logical _ left _ right => left.mentions ++ right.mentions
  | .grouping _ inner => inner.mentions
  | .var _ name => [name.lexeme]
  | .assign _ name value => name.lexeme :: value.mentions
  | .call _ callee _ arguments => callee.mentions ++ Expr.mentionsEach arguments
  | .get _ object _ => object.mentions
  | .set _ object _ value => object.mentions ++ value.mentions

/-- The names that occur in expressions. -/
def Expr.mentionsEach : List Expr → List String
  | [] => []
  | e :: rest => e.mentions ++ Expr.mentionsEach rest

end

/-- The names that occur in an expression that may be missing. -/
def Expr.mentionsOption : Option Expr → List String
  | none => []
  | some e => e.mentions

mutual

/-- The targets of the assignments in an expression. -/
def Expr.assigned : Expr → List String
  | .literal _ _ | .this _ _ | .super _ _ _ | .var _ _ => []
  | .unary _ _ right => right.assigned
  | .binary _ left _ right | .logical _ left _ right => left.assigned ++ right.assigned
  | .grouping _ inner => inner.assigned
  | .assign _ name value => name.lexeme :: value.assigned
  | .call _ callee _ arguments => callee.assigned ++ Expr.assignedEach arguments
  | .get _ object _ => object.assigned
  | .set _ object _ value => object.assigned ++ value.assigned

/-- The targets of the assignments in expressions. -/
def Expr.assignedEach : List Expr → List String
  | [] => []
  | e :: rest => e.assigned ++ Expr.assignedEach rest

end

mutual

/-- The names that occur in a statement, also in functions and classes that it declares. -/
def Stmt.mentions : Stmt → List String
  | .expression value => value.mentions
  | .varDecl _ initializer => Expr.mentionsOption initializer
  | .block body => Stmt.mentionsEach body
  | .ifThen condition thenBranch => condition.mentions ++ thenBranch.mentions
  | .ifElse condition thenBranch elseBranch =>
    condition.mentions ++ thenBranch.mentions ++ elseBranch.mentions
  | .whileLoop condition body => condition.mentions ++ body.mentions
  | .funDecl routine => routine.mentions
  | .returnValue _ value => Expr.mentionsOption value
  | .classDecl _ superclass methods =>
    Expr.mentionsOption superclass ++ Routine.mentionsEach methods

/-- The names that occur in statements. -/
def Stmt.mentionsEach : List Stmt → List String
  | [] => []
  | s :: rest => s.mentions ++ Stmt.mentionsEach rest

/-- The names that occur in the body of a function or method. -/
def Routine.mentions : Routine → List String
  | .mk _ _ body => Stmt.mentionsEach body

/-- The names that occur in the bodies of methods. -/
def Routine.mentionsEach : List Routine → List String
  | [] => []
  | r :: rest => r.mentions ++ Routine.mentionsEach rest

end

theorem Routine.mentions_eq (r : Routine) : r.mentions = Stmt.mentionsEach r.body := by
  cases r
  rfl

theorem Expr.mentions_subset {e : Expr} {es : List Expr} (he : e ∈ es) :
    e.mentions ⊆ Expr.mentionsEach es := by
  induction es with
  | nil => cases he
  | cons first rest ih =>
    rw [Expr.mentionsEach]
    rcases List.mem_cons.1 he with rfl | he
    · exact List.subset_append_left _ _
    · exact List.subset_append_of_subset_right _ (ih he)

theorem Expr.assigned_subset {e : Expr} {es : List Expr} (he : e ∈ es) :
    e.assigned ⊆ Expr.assignedEach es := by
  induction es with
  | nil => cases he
  | cons first rest ih =>
    rw [Expr.assignedEach]
    rcases List.mem_cons.1 he with rfl | he
    · exact List.subset_append_left _ _
    · exact List.subset_append_of_subset_right _ (ih he)

theorem Routine.mentions_subset {r : Routine} {rs : List Routine} (hr : r ∈ rs) :
    r.mentions ⊆ Routine.mentionsEach rs := by
  induction rs with
  | nil => cases hr
  | cons first rest ih =>
    rw [Routine.mentionsEach]
    rcases List.mem_cons.1 hr with rfl | hr
    · exact List.subset_append_left _ _
    · exact List.subset_append_of_subset_right _ (ih hr)

/-! ### Names that are declared -/

/-- The name that a statement declares in the scope it stands in. -/
def Stmt.declared? : Stmt → Option String
  | .varDecl name _ | .classDecl name _ _ => some name.lexeme
  | .funDecl routine => some routine.name.lexeme
  | _ => none

/-- The names that statements declare in the scope they stand in. -/
def Stmt.declaredEach (body : List Stmt) : List String :=
  body.filterMap Stmt.declared?

theorem Stmt.declared?_eq_none {s : Stmt} (h : s.declares = false) : s.declared? = none := by
  cases s <;> first | rfl | cases h

theorem Stmt.declaredEach_cons (s : Stmt) (rest : List Stmt) :
    Stmt.declaredEach (s :: rest) = s.declared?.toList ++ Stmt.declaredEach rest := by
  unfold declaredEach
  rw [List.filterMap_cons]
  cases s.declared? <;> rfl

/-- The statement declares a variable and assigns it in the initializer. -/
def Stmt.assignsOwn : Stmt → Bool
  | .varDecl name (some e) => e.assigned.contains name.lexeme
  | _ => false

/-! ### Order -/

mutual

/-- All scopes inside the statement are orderly. -/
def Stmt.orderly : Stmt → Bool
  | .block body => Stmt.orderlyScope body
  | .ifThen _ s | .whileLoop _ s => s.orderly
  | .ifElse _ thenBranch elseBranch => thenBranch.orderly && elseBranch.orderly
  | .funDecl routine => routine.orderly
  | .classDecl _ _ methods => Routine.orderlyEach methods
  | .expression _ | .varDecl _ _ | .returnValue _ _ => true

/-- In a scope with these statements, and in all scopes inside it, no name is declared after it has
occurred, and no initializer assigns the variable it is for. -/
def Stmt.orderlyScope : List Stmt → Bool
  | [] => true
  | s :: rest =>
    s.orderly && !s.assignsOwn && s.mentions.all (fun n => !(Stmt.declaredEach rest).contains n)
      && Stmt.orderlyScope rest

/-- The scope of the function or method and all scopes inside it are orderly. -/
def Routine.orderly : Routine → Bool
  | .mk _ _ body => Stmt.orderlyScope body

/-- The scopes of methods and all scopes inside them are orderly. -/
def Routine.orderlyEach : List Routine → Bool
  | [] => true
  | r :: rest => r.orderly && Routine.orderlyEach rest

end

/-- All scopes of the program but the globals are orderly. -/
def Program.orderly (p : Program) : Bool :=
  p.all Stmt.orderly

theorem Stmt.orderlyScope_cons {s : Stmt} {rest : List Stmt} :
    Stmt.orderlyScope (s :: rest) = true ↔ s.orderly = true ∧ s.assignsOwn = false
      ∧ (∀ n ∈ s.mentions, n ∉ Stmt.declaredEach rest) ∧ Stmt.orderlyScope rest = true := by
  simp [Stmt.orderlyScope, and_assoc]

theorem Routine.orderly_eq (r : Routine) : r.orderly = Stmt.orderlyScope r.body := by
  cases r
  rfl

theorem Routine.orderly_of_mem {r : Routine} {rs : List Routine}
    (h : Routine.orderlyEach rs = true) (hr : r ∈ rs) : r.orderly = true := by
  induction rs with
  | nil => cases hr
  | cons first rest ih =>
    rw [Routine.orderlyEach, Bool.and_eq_true] at h
    rcases List.mem_cons.1 hr with rfl | hr
    · exact h.1
    · exact ih h.2 hr

end Lox
