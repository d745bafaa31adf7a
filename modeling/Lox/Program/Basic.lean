import Lox.Token

/-!
Programs as trees. Every expression has a number of its own, which is how the scope distances of
its names are found while the program runs; statements and functions are made of expressions.
-/

namespace Lox

/-- A constant of a program. -/
inductive Literal where
  | nil
  | boolean (value : Bool)
  | number (value : Float)
  | string (contents : String)
  deriving DecidableEq, Inhabited

/-- An expression. Its first argument is its number, and the tokens it keeps say what it is about
and where it stands. -/
inductive Expr where
  | literal (id : Nat) (value : Literal)
  | unary (id : Nat) (operator : Token) (right : Expr)
  | binary (id : Nat) (left : Expr) (operator : Token) (right : Expr)
  | grouping (id : Nat) (inner : Expr)
  | var (id : Nat) (name : Token)
  | assign (id : Nat) (name : Token) (value : Expr)
  /-- An `and` or an `or`, whose right side is not always evaluated. -/
  | logical (id : Nat) (left : Expr) (operator : Token) (right : Expr)
  /-- A call with its closing parenthesis. -/
  | call (id : Nat) (callee : Expr) (paren : Token) (arguments : List Expr)
  | get (id : Nat) (object : Expr) (name : Token)
  | set (id : Nat) (object : Expr) (name : Token) (value : Expr)
  | this (id : Nat) (keyword : Token)
  | super (id : Nat) (keyword : Token) (method : Token)
  deriving Inhabited

/-- The number of an expression. -/
def Expr.id : Expr → Nat
  | .literal id _ | .unary id _ _ | .binary id _ _ _ | .grouping id _ | .var id _
  | .assign id _ _ | .logical id _ _ _ | .call id _ _ _ | .get id _ _ | .set id _ _ _
  | .this id _ | .super id _ _ => id

/-- The line an expression stands on; constants, in parentheses or not, keep none. -/
def Expr.line? : Expr → Option Nat
  | .literal _ _ => none
  | .grouping _ inner => inner.line?
  | .unary _ operator _ | .binary _ _ operator _ | .logical _ _ operator _ => some operator.line
  | .var _ name | .assign _ name _ | .get _ _ name | .set _ _ name _ => some name.line
  | .call _ _ paren _ => some paren.line
  | .this _ keyword | .super _ keyword _ => some keyword.line

mutual

/-- A statement. -/
inductive Stmt where
  | expression (value : Expr)
  | varDecl (name : Token) (initializer : Option Expr)
  | block (body : List Stmt)
  | ifThen (condition : Expr) (thenBranch : Stmt)
  | ifElse (condition : Expr) (thenBranch elseBranch : Stmt)
  | whileLoop (condition : Expr) (body : Stmt)
  | funDecl (routine : Routine)
  | returnValue (keyword : Token) (value : Option Expr)
  | classDecl (name : Token) (superclass : Option Expr) (methods : List Routine)

/-- A function or method with its name, its parameters and its body. -/
inductive Routine where
  | mk (name : Token) (params : List Token) (body : List Stmt)

end

instance : Inhabited Stmt := ⟨.block []⟩
instance : Inhabited Routine := ⟨.mk default [] []⟩

namespace Routine

def name : Routine → Token
  | mk name _ _ => name

def params : Routine → List Token
  | mk _ params _ => params

def body : Routine → List Stmt
  | mk _ _ body => body

/-- The name of the method that sets up new instances. -/
def initializerName : String := "init"

/-- As a method, this one would set up new instances. -/
def isInitializer (r : Routine) : Bool :=
  r.name.lexeme = initializerName

end Routine

/-- A program is a list of statements. -/
abbrev Program := List Stmt

end Lox
