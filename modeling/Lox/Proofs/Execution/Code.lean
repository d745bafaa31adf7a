import Lox.Program.Basic

/-!
Conditions on code. `Expr.inner`, `Stmt.evaluated` and `Stmt.executed` list what stands in an expression
or a statement itself and not further in. A `Code` is a condition on parts of programs that passes on to
all that stands in them, the bodies of functions and methods among it, and so to all code that is ever
run when a part that satisfies it is.
-/

namespace Lox

/-! ### What stands in a part -/

/-- The expressions in an expression that are not in another one of them. -/
def Expr.inner : Expr → List Expr
  | .literal _ _ | .var _ _ | .this _ _ | .super _ _ _ => []
  | .unary _ _ e | .grouping _ e | .assign _ _ e | .get _ e _ => [e]
  | .binary _ left _ right | .logical _ left _ right | .set _ left _ right => [left, right]
  | .call _ callee _ arguments => callee :: arguments

/-- The expressions in a statement that are in none of its statements and functions. -/
def Stmt.evaluated : Stmt → List Expr
  | .expression e | .ifThen e _ | .ifElse e _ _ | .whileLoop e _ => [e]
  | .varDecl _ e? | .returnValue _ e? | .classDecl _ e? _ => e?.toList
  | .block _ | .funDecl _ => []

/-- The statements in a statement that are in none of its functions and in no other one of them. -/
def Stmt.executed : Stmt → List Stmt
  | .block body => body
  | .ifThen _ s | .whileLoop _ s => [s]
  | .ifElse _ s s' => [s, s']
  | .expression _ | .varDecl _ _ | .funDecl _ | .returnValue _ _ | .classDecl _ _ _ => []

def Stmt.isReturn : Stmt → Bool
  | .returnValue _ _ => true
  | _ => false

/-! ### Conditions -/

/-- A condition on the parts of programs that holds of all that stands in them. -/
structure Code where
  expr : Expr → Prop
  stmt : Stmt → Prop
  /-- Of a name that is declared or assigned to. -/
  name : String → Prop
  /-- Of what a function executes, and of whether a call of it gives the object that is set up. -/
  function : Bool → Routine → Prop
  /-- The same of what a class has as a method of this name. -/
  method : String → Bool → Routine → Prop
  inner : ∀ {e e'}, expr e → e' ∈ e.inner → expr e'
  evaluated : ∀ {s e}, stmt s → e ∈ s.evaluated → expr e
  executed : ∀ {s s'}, stmt s → s' ∈ s.executed → stmt s'
  assigned : ∀ {id n e}, expr (.assign id n e) → name n.lexeme
  varDeclared : ∀ {n e?}, stmt (.varDecl n e?) → name n.lexeme
  funDeclared : ∀ {r}, stmt (.funDecl r) → name r.name.lexeme ∧ function false r
  classDeclared : ∀ {n e? rs}, stmt (.classDecl n e? rs) →
    name n.lexeme ∧ ∀ r ∈ rs, method r.name.lexeme r.isInitializer r
  bound : ∀ {n initializes r}, method n initializes r → function initializes r
  body : ∀ {initializes r}, function initializes r → ∀ s ∈ r.body, stmt s

/-- All code. -/
def Code.any : Code where
  expr _ := True
  stmt _ := True
  name _ := True
  function _ _ := True
  method _ _ _ := True
  inner _ _ := trivial
  evaluated _ _ := trivial
  executed _ _ := trivial
  assigned _ := trivial
  varDeclared _ := trivial
  funDeclared _ := ⟨trivial, trivial⟩
  classDeclared _ := ⟨trivial, fun _ _ => trivial⟩
  bound _ := trivial
  body _ _ _ := trivial

end Lox
