import Lox.Program.Scoping

/-!
Resolving names in one walk over a program. There is one stack of scopes, which the walk itself
begins and ends; the function and the class it is in are kept aside while it is in another one, and
put back behind that one. A fault is recorded and does not end the walk, but the part in which it is
found may end early. The parts of a program give nothing back: all they do is to change what the
walk keeps.
-/

namespace Lox.Resolver

/-- What the walk keeps. -/
structure State where
  /-- The scopes, the innermost first. A name is bound to `true` once it may be read. -/
  scopes : List (Bindings Bool) := []
  distances : Distances := ∅
  /-- The function whose body the walk is in. -/
  body : Option BodyKind := none
  /-- The class whose body the walk is in. -/
  classBody : Option ClassKind := none
  faults : List Diagnostic := []

/-- A part of the walk. -/
abbrev Resolving := StateM State

/-! ### Scopes -/

/-- Records a fault of a token. -/
def record (token : Token) (cause : StaticFault) : Resolving Unit :=
  modify fun s => { s with faults := s.faults ++ [.static token cause] }

/-- Puts a scope that binds nothing on the stack. -/
def beginScope : Resolving Unit :=
  modify fun s => { s with scopes := [] :: s.scopes }

/-- Takes the innermost scope off the stack. -/
def endScope : Resolving Unit :=
  modify fun s => { s with scopes := s.scopes.tail }

/-- Binds a name in the innermost scope, if there is one. -/
def bindInnermost (name : String) (readable : Bool) : Resolving Unit :=
  modify fun s =>
    match s.scopes with
    | [] => s
    | scope :: outer => { s with scopes := scope.set name readable :: outer }

/-- Declares a name that may not be read yet. Outside of all scopes nothing is declared. -/
def declare (name : Token) : Resolving Unit := do
  match (← get).scopes with
  | [] => return
  | scope :: _ =>
    if scope.binds name.lexeme then
      record name .alreadyDeclared
      return
    bindInnermost name.lexeme false

/-- From here on a name may be read. -/
def define (name : Token) : Resolving Unit :=
  bindInnermost name.lexeme true

/-- Binds `this` or `super` in the innermost scope. -/
def defineKeyword (keyword : String) : Resolving Unit :=
  bindInnermost keyword true

/-! ### Names -/

/-- Goes outward through the scopes, the first of which is at this distance, up to the first one
that binds the name, and records the distance of that one for the expression. -/
def recordNearest (id : Nat) (name : Token) (distance : Nat) :
    List (Bindings Bool) → Resolving Unit
  | [] => return
  | scope :: outer => do
    if scope.binds name.lexeme then
      modify fun s => { s with distances := s.distances.insert id distance }
      return
    recordNearest id name (distance + 1) outer

/-- Records how far it is from an occurrence of a name to its binding, unless the name is global. -/
def resolveLocal (id : Nat) (name : Token) : Resolving Unit := do
  recordNearest id name 0 (← get).scopes

/-- An occurrence of a name that is read. -/
def resolveVariable (id : Nat) (name : Token) : Resolving Unit := do
  if (← get).scopes.head?.any (·.get? name.lexeme = some false) then
    record name .readInOwnInitializer
  resolveLocal id name

def resolveThis (id : Nat) (keyword : Token) : Resolving Unit := do
  if (← get).classBody.isNone then
    record keyword .thisOutsideClass
    return
  resolveLocal id keyword

def resolveSuper (id : Nat) (keyword : Token) : Resolving Unit := do
  match (← get).classBody with
  | none =>
    record keyword .superOutsideClass
    return
  | some .base =>
    record keyword .superWithoutSuperclass
    return
  | some .derived => resolveLocal id keyword

/-! ### Expressions -/

mutual

def resolveExpr : Expr → Resolving Unit
  | .literal _ _ => return
  | .grouping _ inner => resolveExpr inner
  | .unary _ _ right => resolveExpr right
  | .binary _ left _ right | .logical _ left _ right => do
    resolveExpr left
    resolveExpr right
  | .var id name => resolveVariable id name
  | .assign id name value => do
    resolveExpr value
    resolveLocal id name
  | .call _ callee _ arguments => do
    resolveExpr callee
    resolveExprs arguments
  | .get _ object _ => resolveExpr object
  | .set _ object _ value => do
    resolveExpr value
    resolveExpr object
  | .this id keyword => resolveThis id keyword
  | .super id keyword _ => resolveSuper id keyword

/-- Expressions one after the other. -/
def resolveExprs : List Expr → Resolving Unit
  | [] => return
  | e :: rest => do
    resolveExpr e
    resolveExprs rest

end

/-! ### Statements -/

/-- A return, which may have a value. -/
def resolveReturn (keyword : Token) (value : Option Expr) : Resolving Unit := do
  if (← get).body.isNone then
    record keyword .returnAtTopLevel
  if let some e := value then
    if (← get).body == some .initializer then
      record keyword .returnValueFromInitializer
    resolveExpr e

/-- The parameters and the body of a function, in a scope of their own. -/
def resolveFunction (kind : BodyKind) (params : List Token) (body : Resolving Unit) :
    Resolving Unit := do
  let enclosing := (← get).body
  modify fun s => { s with body := some kind }
  beginScope
  params.forM fun name => do
    declare name
    define name
  body
  endScope
  modify fun s => { s with body := enclosing }

/-- A superclass that is named like its class is a fault. -/
def checkAncestor (className : Token) (ancestor : Expr) : Resolving Unit := do
  if let .var _ name := ancestor then
    if name.lexeme == className.lexeme then
      record name .inheritsFromItself

/-- A class. In one with a superclass there is a scope for `super` around the one for `this`. -/
def resolveClass (name : Token) (superclass : Option Expr) (methods : Resolving Unit) :
    Resolving Unit := do
  let enclosing := (← get).classBody
  modify fun s => { s with classBody := some .base }
  declare name
  define name
  if let some ancestor := superclass then
    checkAncestor name ancestor
    modify fun s => { s with classBody := some .derived }
    resolveExpr ancestor
    beginScope
    defineKeyword "super"
  beginScope
  defineKeyword "this"
  methods
  endScope
  if superclass.isSome then
    endScope
  modify fun s => { s with classBody := enclosing }

mutual

def resolveStmt : Stmt → Resolving Unit
  | .block body => do
    beginScope
    resolveStmts body
    endScope
  | .varDecl name initializer => do
    declare name
    if let some e := initializer then
      resolveExpr e
    define name
  | .funDecl routine => do
    -- the name is bound before the body, which may call itself
    declare routine.name
    define routine.name
    resolveRoutine .function routine
  | .expression value => resolveExpr value
  | .ifThen condition thenBranch => do
    resolveExpr condition
    resolveStmt thenBranch
  | .ifElse condition thenBranch elseBranch => do
    resolveExpr condition
    resolveStmt thenBranch
    resolveStmt elseBranch
  | .whileLoop condition body => do
    resolveExpr condition
    resolveStmt body
  | .returnValue keyword value => resolveReturn keyword value
  | .classDecl name superclass methods => resolveClass name superclass (resolveMethods methods)

/-- Statements one after the other. -/
def resolveStmts : List Stmt → Resolving Unit
  | [] => return
  | s :: rest => do
    resolveStmt s
    resolveStmts rest

/-- A function or a method, apart from its name. -/
def resolveRoutine (kind : BodyKind) : Routine → Resolving Unit
  | .mk _ params body => resolveFunction kind params (resolveStmts body)

/-- The methods of a class. -/
def resolveMethods : List Routine → Resolving Unit
  | [] => return
  | r :: rest => do
    resolveRoutine (if r.isInitializer then .initializer else .method) r
    resolveMethods rest

end

/-! ### Whole programs -/

/-- What a part of the walk leaves behind. -/
def after (walk : Resolving Unit) (s : State) : State :=
  (walk.run s).2

/-- The distances of the names of a program, or all the faults that were recorded. -/
def resolve (p : Program) : Except (List Diagnostic) Distances :=
  let s := after (resolveStmts p) {}
  match s.faults with
  | [] => .ok s.distances
  | faults => .error faults

end Lox.Resolver
