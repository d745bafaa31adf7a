import Lox.Bindings
import Lox.Diagnostic
import Lox.Program.Basic
import Std.Data.TreeMap

/-!
Scoping: for every occurrence of a local name, the number of scopes between the one it stands in
and the one that binds it; and the faults of names, returns and classes that can be seen without
running the program.

A block, the parameters and body of a function, and the methods of a class each have a scope; the
scope of the methods binds `this`, and in a class with a superclass it stands in one that binds
`super`. Outside of all scopes stand the globals, which may be declared at any time and as often as
one likes, so that nothing is said about them.
-/

namespace Lox

/-- For the numbers of expressions, the number of scopes to go outward. -/
abbrev Distances := Std.TreeMap Nat Nat

/-- The kinds of function body. -/
inductive BodyKind where
  | function
  | method
  | initializer
  deriving DecidableEq, Repr

/-- The kinds of class body. -/
inductive ClassKind where
  | base
  | derived
  deriving DecidableEq, Repr

/-- What surrounds a part of a program. -/
structure Site where
  /-- The scopes, the innermost first. A name is bound to `true` once it may be read. -/
  scopes : List (Bindings Bool) := []
  /-- The function whose body this is. -/
  body : Option BodyKind := none
  /-- The class whose body this is. -/
  classBody : Option ClassKind := none

/-- What is found in a part of a program. -/
structure Findings where
  faults : List Diagnostic := []
  /-- Numbers of expressions with their distances; of two with one number the later counts. -/
  distances : List (Nat × Nat) := []

namespace Findings

/-- Nothing is found. -/
def none : Findings := {}

/-- A fault of a token. -/
def fault (token : Token) (cause : StaticFault) : Findings :=
  { faults := [.static token cause] }

/-- A fault of a token that occurs if a condition holds. -/
def faultIf (condition : Bool) (token : Token) (cause : StaticFault) : Findings :=
  if condition then fault token cause else none

instance : Append Findings where
  append a b := ⟨a.faults ++ b.faults, a.distances ++ b.distances⟩

@[simp] theorem faults_append (a b : Findings) : (a ++ b).faults = a.faults ++ b.faults := rfl

@[simp] theorem distances_append (a b : Findings) :
    (a ++ b).distances = a.distances ++ b.distances := rfl

end Findings

namespace Site

/-- The names that the scope of all methods binds. -/
def thisScope : Bindings Bool := [("this", true)]

/-- The names that the scope around the methods of a class with a superclass binds. -/
def superScope : Bindings Bool := [("super", true)]

/-- A part of the program with a scope of its own. -/
def enter (site : Site) (scope : Bindings Bool) : Site :=
  { site with scopes := scope :: site.scopes }

/-- Binds a name in the innermost scope. -/
def bind (site : Site) (name : Token) (readable : Bool) : Site :=
  match site.scopes with
  | [] => site
  | scope :: outer => { site with scopes := scope.set name.lexeme readable :: outer }

/-- The innermost scope binds the name. -/
def bindsHere (site : Site) (name : Token) : Bool :=
  site.scopes.head?.any (·.binds name.lexeme)

/-- Declares a name that may not be read yet; a second declaration in one scope is a fault. -/
def declare (site : Site) (name : Token) : Site × Findings :=
  if site.bindsHere name then (site, .fault name .alreadyDeclared)
  else (site.bind name false, .none)

/-- Declares a name that may be read at once. -/
def declareReadable (site : Site) (name : Token) : Site × Findings :=
  let (declared, findings) := site.declare name
  (declared.bind name true, findings)

/-- Declares names one after the other. -/
def declareEach (site : Site) : List Token → Site × Findings
  | [] => (site, .none)
  | name :: rest =>
    let (first, found) := site.declareReadable name
    let (last, more) := first.declareEach rest
    (last, found ++ more)

/-- The innermost scope has declared the name, but its initializer is not complete. -/
def isUnreadable (site : Site) (name : Token) : Bool :=
  site.scopes.head?.any (·.get? name.lexeme = some false)

/-- The number of scopes to go outward to the nearest one that binds the name. -/
def distance? (site : Site) (name : Token) : Option Nat :=
  site.scopes.findIdx? (·.binds name.lexeme)

/-- The finding that the expression with this number is an occurrence of the name. -/
def occurrence (site : Site) (id : Nat) (name : Token) : Findings :=
  { distances := ((site.distance? name).map (id, ·)).toList }

end Site

mutual

/-- What is found in an expression. -/
def Expr.findings (site : Site) : Expr → Findings
  | .literal _ _ => .none
  | .unary _ _ right => right.findings site
  | .binary _ left _ right | .logical _ left _ right => left.findings site ++ right.findings site
  | .grouping _ inner => inner.findings site
  | .var id name =>
    .faultIf (site.isUnreadable name) name .readInOwnInitializer ++ site.occurrence id name
  | .assign id name value => value.findings site ++ site.occurrence id name
  | .call _ callee _ arguments => callee.findings site ++ Expr.findingsEach site arguments
  | .get _ object _ => object.findings site
  | .set _ object _ value => value.findings site ++ object.findings site
  | .this id keyword =>
    match site.classBody with
    | none => .fault keyword .thisOutsideClass
    | some _ => site.occurrence id keyword
  | .super id keyword _ =>
    match site.classBody with
    | none => .fault keyword .superOutsideClass
    | some .base => .fault keyword .superWithoutSuperclass
    | some .derived => site.occurrence id keyword

/-- What is found in expressions, one after the other. -/
def Expr.findingsEach (site : Site) : List Expr → Findings
  | [] => .none
  | e :: rest => e.findings site ++ Expr.findingsEach site rest

end

/-- What is found in an expression that may be missing. -/
def Expr.findingsOption (site : Site) : Option Expr → Findings
  | none => .none
  | some e => e.findings site

/-- A superclass that is named like its class is a fault. -/
def Expr.selfInheritance (className : Token) : Expr → Findings
  | .var _ name => .faultIf (name.lexeme = className.lexeme) name .inheritsFromItself
  | _ => .none

/-- The kind of body that a routine has as a method. -/
def Routine.methodKind (r : Routine) : BodyKind :=
  if r.isInitializer then .initializer else .method

mutual

/-- What is found in a statement, and what surrounds the statement after it. -/
def Stmt.findings (site : Site) : Stmt → Site × Findings
  | .expression value => (site, value.findings site)
  | .varDecl name initializer =>
    let (declared, found) := site.declare name
    (declared.bind name true, found ++ Expr.findingsOption declared initializer)
  | .block body => (site, Stmt.findingsEach (site.enter []) body)
  | .ifThen condition thenBranch =>
    let (after, found) := thenBranch.findings site
    (after, condition.findings site ++ found)
  | .ifElse condition thenBranch elseBranch =>
    let (between, found) := thenBranch.findings site
    let (after, more) := elseBranch.findings between
    (after, condition.findings site ++ found ++ more)
  | .whileLoop condition body =>
    let (after, found) := body.findings site
    (after, condition.findings site ++ found)
  | .funDecl routine =>
    let (declared, found) := site.declareReadable routine.name
    (declared, found ++ routine.findings declared .function)
  | .returnValue keyword value =>
    (site, .faultIf site.body.isNone keyword .returnAtTopLevel
      ++ .faultIf (value.isSome && site.body = some .initializer) keyword
        .returnValueFromInitializer
      ++ Expr.findingsOption site value)
  | .classDecl name superclass methods =>
    let (declared, found) := site.declareReadable name
    match superclass with
    | none =>
      let inside := { declared with classBody := some .base }
      (declared, found ++ Routine.findingsEach (inside.enter Site.thisScope) methods)
    | some ancestor =>
      let inside := { declared with classBody := some .derived }
      (declared, found ++ ancestor.selfInheritance name ++ ancestor.findings inside
        ++ Routine.findingsEach ((inside.enter Site.superScope).enter Site.thisScope) methods)

/-- What is found in statements, one after the other. -/
def Stmt.findingsEach (site : Site) : List Stmt → Findings
  | [] => .none
  | s :: rest =>
    let (after, found) := s.findings site
    found ++ Stmt.findingsEach after rest

/-- What is found in a function or method, apart from its name. -/
def Routine.findings (site : Site) (kind : BodyKind) : Routine → Findings
  | .mk _ params body =>
    let inside := { site with body := some kind }
    let (declared, found) := (inside.enter []).declareEach params
    found ++ Stmt.findingsEach declared body

/-- What is found in the methods of a class. -/
def Routine.findingsEach (site : Site) : List Routine → Findings
  | [] => .none
  | r :: rest => r.findings site r.methodKind ++ Routine.findingsEach site rest

end

/-- The distances of the names of a program, or all its static faults. -/
def Program.distances (p : Program) : Except (List Diagnostic) Distances :=
  let found := Stmt.findingsEach {} p
  match found.faults with
  | [] => .ok (found.distances.foldl (fun table entry => table.insert entry.1 entry.2) ∅)
  | faults => .error faults

end Lox
