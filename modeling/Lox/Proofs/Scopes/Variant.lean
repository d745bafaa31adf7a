import Lox.Session

/-!
Variants of the evaluator. A `Variant` finds names in another way, or puts something around calls,
blocks and bodies of functions; everything else it does as `Expr.evaluateBy` and `Stmt.executeBy` say.
A variant that gives what the evaluator gives says something about the latter: that names could be
found in this way too, or that what it looks at was as it should be. `Variants` are one for the
initializer of each variable and one for all other expressions.
-/

namespace Lox

/-- The steps that may be carried out in another way. -/
structure Variant where
  lookUp : Nat → Token → Run Value := Run.lookUp
  assign : Nat → Token → Value → Run Unit := Run.assign
  superMethod : Nat → Token → Token → Run Value := Lox.superMethod
  /-- What is put around a call. -/
  call : Run Value → Run Value := id
  /-- What is put around a block. -/
  block : Run Completion → Run Completion := id
  /-- What is put around the body of a function, inside its scope. -/
  body : Run Completion → Run Completion := id

namespace Variant

section

variable (V : Variant) (evaluate : Expr → Run Value) (execute : Stmt → Run Completion)

/-- Evaluates an expression, given how those in it are evaluated. -/
def evaluateBy : Expr → Run Value
  | .var id name => V.lookUp id name
  | .this id keyword => V.lookUp id keyword
  | .assign id name right => do
    let value ← evaluate right
    V.assign id name value
    return value
  | .call _ callee paren arguments => do
    let value ← evaluate callee
    let values ← arguments.mapM evaluate
    V.call (value.call (fun body => V.body (executeEach execute body)) values paren.line)
  | .super id keyword method => V.superMethod id keyword method
  | e => e.evaluateBy evaluate execute

/-- Executes a statement, given how the expressions and statements in it are evaluated and
executed. -/
def executeBy (rounds : Nat) : Stmt → Run Completion
  | .block body => V.block ((Stmt.block body).executeBy evaluate execute rounds)
  | s => s.executeBy evaluate execute rounds

end

mutual

/-- Evaluates an expression. -/
def evaluate (V : Variant) : Nat → Expr → Run Value
  | 0, _ => throw .outOfFuel
  | fuel + 1, e => V.evaluateBy (V.evaluate fuel) (V.execute fuel) e

/-- Executes a statement. -/
def execute (V : Variant) : Nat → Stmt → Run Completion
  | 0, _ => throw .outOfFuel
  | fuel + 1, s => V.executeBy (V.evaluate fuel) (V.execute fuel) fuel s

end

/-- The variant that does everything as usual is the evaluator. -/
theorem standard (fuel : Nat) :
    ({} : Variant).evaluate fuel = Lox.evaluate fuel ∧
      ({} : Variant).execute fuel = Lox.execute fuel := by
  induction fuel with
  | zero => exact ⟨rfl, rfl⟩
  | succ fuel ih =>
    constructor
    · funext e
      rw [evaluate, Lox.evaluate, ih.1, ih.2]
      cases e <;> rfl
    · funext s
      rw [execute, Lox.execute, ih.1, ih.2]
      cases s <;> rfl

end Variant

/-! ### Variants for initializers -/

/-- The variable whose initializer is evaluated when this statement is executed. -/
def Stmt.initialized? : Stmt → Option String
  | .varDecl name _ => some name.lexeme
  | _ => none

/-- A variant for the initializer of each variable, and one for all other expressions. -/
def Variants := Option String → Variant

namespace Variants

mutual

/-- Evaluates an expression, which may be the initializer of a variable. -/
def evaluate (V : Variants) : Nat → Option String → Expr → Run Value
  | 0, _, _ => throw .outOfFuel
  | fuel + 1, own, e => (V own).evaluateBy (V.evaluate fuel own) (V.execute fuel) e

/-- Executes a statement. -/
def execute (V : Variants) : Nat → Stmt → Run Completion
  | 0, _ => throw .outOfFuel
  | fuel + 1, s => (V none).executeBy (V.evaluate fuel s.initialized?) (V.execute fuel) fuel s

end

/-- The variant that does everything as the one given does, in initializers as elsewhere. -/
def everywhere (V : Variant) : Variants := fun _ => V

theorem everywhere_eq (V : Variant) (fuel : Nat) :
    (∀ own, (everywhere V).evaluate fuel own = V.evaluate fuel)
      ∧ (everywhere V).execute fuel = V.execute fuel := by
  induction fuel with
  | zero => exact ⟨fun _ => rfl, rfl⟩
  | succ fuel ih =>
    constructor
    · intro own
      funext e
      rw [evaluate, Variant.evaluate, ih.1, ih.2]
      rfl
    · funext s
      rw [execute, Variant.execute, ih.1, ih.2]
      rfl

end Variants

end Lox
