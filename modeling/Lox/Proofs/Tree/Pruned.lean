import Lox.Proofs.Tree.Recoding

/-!
Code without what follows a `return`. In each list of statements, however deep, what comes after the first
`return` is left out. Of what is left nothing is left out again (`Stmt.prunedEach_prunedEach`), and it
makes no difference to write other lines and numbers before or after (`Stmt.prunedEach_relabelEach`).
-/

namespace Lox

mutual

/-- The statement, in whose lists of statements nothing follows a `return`. -/
def Stmt.pruned : Stmt → Stmt
  | .expression value => .expression value
  | .varDecl name initializer => .varDecl name initializer
  | .block body => .block (Stmt.prunedEach body)
  | .ifThen condition thenBranch => .ifThen condition thenBranch.pruned
  | .ifElse condition thenBranch elseBranch => .ifElse condition thenBranch.pruned elseBranch.pruned
  | .whileLoop condition body => .whileLoop condition body.pruned
  | .funDecl routine => .funDecl routine.pruned
  | .returnValue keyword value => .returnValue keyword value
  | .classDecl name superclass methods => .classDecl name superclass (Routine.prunedEach methods)

/-- The statements up to the first `return` of the list, and so in each list in them. -/
def Stmt.prunedEach : List Stmt → List Stmt
  | [] => []
  | s :: rest => s.pruned :: if s.isReturn then [] else Stmt.prunedEach rest

/-- The function or method, in whose lists of statements nothing follows a `return`. -/
def Routine.pruned : Routine → Routine
  | .mk name params body => .mk name params (Stmt.prunedEach body)

/-- The methods, in whose lists of statements nothing follows a `return`. -/
def Routine.prunedEach : List Routine → List Routine
  | [] => []
  | r :: rest => r.pruned :: Routine.prunedEach rest

end

theorem Routine.prunedEach_eq_map (methods : List Routine) :
    Routine.prunedEach methods = methods.map Routine.pruned := by
  induction methods with
  | nil => rfl
  | cons r rest ih => rw [Routine.prunedEach, ih, List.map_cons]

@[simp] theorem Stmt.pruned_isReturn (s : Stmt) : s.pruned.isReturn = s.isReturn := by
  cases s <;> rfl

@[simp] theorem Stmt.relabel_isReturn (g : Relabel) (s : Stmt) :
    (s.relabel g).isReturn = s.isReturn := by
  cases s <;> rfl

@[simp] theorem Routine.pruned_name (r : Routine) : r.pruned.name = r.name := by
  cases r
  rfl

/-- Nothing is left out of a list without a `return` but what is left out further in. -/
theorem Stmt.prunedEach_eq_map {body : List Stmt} (h : ∀ s ∈ body, s.isReturn = false) :
    Stmt.prunedEach body = body.map Stmt.pruned := by
  induction body with
  | nil => rfl
  | cons s rest ih =>
    obtain ⟨hs, hrest⟩ := List.forall_mem_cons.1 h
    rw [Stmt.prunedEach, hs, if_neg Bool.false_ne_true, ih hrest, List.map_cons]

/-! ### Twice, and with other lines and numbers -/

mutual

theorem Stmt.pruned_pruned : ∀ s : Stmt, s.pruned.pruned = s.pruned
  | .expression _ | .varDecl _ _ | .returnValue _ _ => rfl
  | .block body => by rw [Stmt.pruned, Stmt.pruned, Stmt.prunedEach_prunedEach body]
  | .ifThen _ body | .whileLoop _ body => by rw [Stmt.pruned, Stmt.pruned, body.pruned_pruned]
  | .ifElse _ thenBranch elseBranch => by
    rw [Stmt.pruned, Stmt.pruned, thenBranch.pruned_pruned, elseBranch.pruned_pruned]
  | .funDecl routine => by rw [Stmt.pruned, Stmt.pruned, routine.pruned_pruned]
  | .classDecl _ _ methods => by
    rw [Stmt.pruned, Stmt.pruned, Routine.prunedEach_prunedEach methods]

theorem Stmt.prunedEach_prunedEach :
    ∀ body : List Stmt, Stmt.prunedEach (Stmt.prunedEach body) = Stmt.prunedEach body
  | [] => rfl
  | s :: rest => by
    rw [Stmt.prunedEach, Stmt.prunedEach, s.pruned_pruned, s.pruned_isReturn]
    split
    · rfl
    · rw [Stmt.prunedEach_prunedEach rest]

theorem Routine.pruned_pruned : ∀ r : Routine, r.pruned.pruned = r.pruned
  | .mk _ _ body => by rw [Routine.pruned, Routine.pruned, Stmt.prunedEach_prunedEach body]

theorem Routine.prunedEach_prunedEach :
    ∀ methods : List Routine,
      Routine.prunedEach (Routine.prunedEach methods) = Routine.prunedEach methods
  | [] => rfl
  | r :: rest => by
    rw [Routine.prunedEach, Routine.prunedEach, r.pruned_pruned,
      Routine.prunedEach_prunedEach rest]

end

section

variable (g : Relabel)

mutual

theorem Stmt.pruned_relabel : ∀ s : Stmt, (s.relabel g).pruned = s.pruned.relabel g
  | .expression _ | .varDecl _ _ | .returnValue _ _ => rfl
  | .block body => by
    rw [Stmt.relabel, Stmt.pruned, Stmt.pruned, Stmt.relabel, Stmt.prunedEach_relabelEach body]
  | .ifThen _ body | .whileLoop _ body => by
    rw [Stmt.relabel, Stmt.pruned, Stmt.pruned, Stmt.relabel, body.pruned_relabel]
  | .ifElse _ thenBranch elseBranch => by
    rw [Stmt.relabel, Stmt.pruned, Stmt.pruned, Stmt.relabel, thenBranch.pruned_relabel,
      elseBranch.pruned_relabel]
  | .funDecl routine => by
    rw [Stmt.relabel, Stmt.pruned, Stmt.pruned, Stmt.relabel, routine.pruned_relabel]
  | .classDecl _ _ methods => by
    rw [Stmt.relabel, Stmt.pruned, Stmt.pruned, Stmt.relabel,
      Routine.prunedEach_relabelEach methods]

theorem Stmt.prunedEach_relabelEach :
    ∀ body : List Stmt,
      Stmt.prunedEach (Stmt.relabelEach g body) = Stmt.relabelEach g (Stmt.prunedEach body)
  | [] => rfl
  | s :: rest => by
    rw [Stmt.relabelEach, Stmt.prunedEach, Stmt.prunedEach, Stmt.relabelEach, s.pruned_relabel,
      s.relabel_isReturn]
    split
    · rfl
    · rw [Stmt.prunedEach_relabelEach rest]

theorem Routine.pruned_relabel : ∀ r : Routine, (r.relabel g).pruned = r.pruned.relabel g
  | .mk _ _ body => by
    rw [Routine.relabel, Routine.pruned, Routine.pruned, Routine.relabel,
      Stmt.prunedEach_relabelEach body]

theorem Routine.prunedEach_relabelEach :
    ∀ methods : List Routine, Routine.prunedEach (Routine.relabelEach g methods)
      = Routine.relabelEach g (Routine.prunedEach methods)
  | [] => rfl
  | r :: rest => by
    rw [Routine.relabelEach, Routine.prunedEach, Routine.prunedEach, Routine.relabelEach,
      r.pruned_relabel, Routine.prunedEach_relabelEach rest]

end

end

/-- The same lines and numbers, and nothing after a `return`. -/
def Recoding.pruning : Recoding where
  toRelabel := .refl
  stmt := Stmt.pruned
  body := Stmt.prunedEach
  routine := Routine.pruned
  stmt_eq s := by
    have hoption (e? : Option Expr) : e?.map (Expr.relabel .refl) = e? := by
      cases e? with
      | none => rfl
      | some e => exact congrArg some e.relabel_refl
    cases s <;> simp only [Stmt.pruned, Stmt.rebuild, Expr.relabel_refl, Token.relabel_refl, hoption,
      Routine.prunedEach_eq_map]
  routine_eq name params statements := by
    rw [Token.relabel_refl, Token.map_relabel_refl]
    rfl
  body_nil := rfl
  body_cons s rest := by
    rw [Stmt.prunedEach]
    split
    · exact .inr ⟨‹_›, rfl⟩
    · exact .inl rfl

end Lox
