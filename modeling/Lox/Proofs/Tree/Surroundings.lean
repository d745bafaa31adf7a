import Lox.Program.Scoping

/-!
Positions in a program. A position is a spot that rules of names, classes and returns are about,
together with all that it stands behind or inside of: the scopes, functions and classes around it and
the names that were declared before it. `Program.positions` lists them. What the rules ask about a
position is read off its surroundings: which scope has declared a name (`Surroundings.Reaches`), and
which function and which class is the innermost one.
-/

namespace Lox

/-! ### Surroundings -/

/-- Something that a position stands behind or inside of. -/
inductive Mark where
  /-- A scope starts: of a block, of the parameters and body of a function, of `this` or of `super`. -/
  | scope
  /-- A name is declared. -/
  | declared (name : String)
  /-- The initializer of a variable starts. -/
  | initializer (name : String)
  /-- The parameters and body of a function or method start. -/
  | body (kind : BodyKind)
  /-- The superclass and methods of a class start. -/
  | classBody (kind : ClassKind)
  deriving DecidableEq

/-- All that a position stands behind or inside of, the nearest first. Scopes that have ended are left
out, with what was declared in them. -/
abbrev Surroundings := List Mark

namespace Surroundings

/-- The position is in a block, a function or a class. -/
def isLocal (around : Surroundings) : Bool :=
  around.contains .scope

/-- The innermost scope around the position has declared the name. -/
def declaresHere (around : Surroundings) (name : String) : Bool :=
  around.isLocal && (around.takeWhile (· ≠ .scope)).contains (.declared name)

/-- The position is in the initializer of a local variable of this name, which the scope had not
declared before. -/
def initializes (around : Surroundings) (name : String) : Bool :=
  match around with
  | .initializer variableName :: .declared _ :: before =>
    variableName = name && isLocal before && !declaresHere before name
  | _ => false

/-- The kind of the innermost function around the position. -/
def body? (around : Surroundings) : Option BodyKind :=
  around.findSome? fun
    | .body kind => some kind
    | _ => none

/-- The kind of the innermost class around the position. -/
def classBody? (around : Surroundings) : Option ClassKind :=
  around.findSome? fun
    | .classBody kind => some kind
    | _ => none

/-- The nearest scope that has declared the name is the one that stands `distance` scopes further out
than the innermost one. -/
def Reaches (around : Surroundings) (name : String) (distance : Nat) : Prop :=
  ∃ nearer farther : Surroundings, around = nearer ++ .declared name :: farther
    ∧ .declared name ∉ nearer ∧ farther.isLocal ∧ nearer.count .scope = distance

/-- A name is declared. -/
def declare (around : Surroundings) (name : Token) : Surroundings :=
  .declared name.lexeme :: around

/-- Names are declared one after the other. -/
def declareEach (around : Surroundings) (names : List Token) : Surroundings :=
  names.foldl declare around

/-- The scope of a block is entered. -/
def enter (around : Surroundings) : Surroundings :=
  .scope :: around

/-- The scope of `this`, or of `super`, is entered. -/
def enterKeyword (around : Surroundings) (keyword : String) : Surroundings :=
  .declared keyword :: .scope :: around

/-- The initializer of a variable starts behind its declaration. -/
def initializing (around : Surroundings) (name : Token) : Surroundings :=
  .initializer name.lexeme :: around.declare name

/-- The scope of a function or method is entered. -/
def enterBody (around : Surroundings) (kind : BodyKind) : Surroundings :=
  .scope :: .body kind :: around

/-- A class starts behind its declaration. -/
def inClass (around : Surroundings) (name : Token) (kind : ClassKind) : Surroundings :=
  .classBody kind :: around.declare name

end Surroundings

/-! ### Positions -/

/-- What rules are about. -/
inductive Spot where
  | declaration (name : Token)
  | read (id : Nat) (name : Token)
  | assignment (id : Nat) (name : Token)
  | this (id : Nat) (keyword : Token)
  | super (id : Nat) (keyword : Token)
  /-- A class has a name as its superclass. -/
  | inheritance (className ancestor : Token)
  /-- A return, with a value or without. -/
  | departure (keyword : Token) (valued : Bool)

/-- The number and the name of an expression that is looked up by its name. -/
def Spot.occurrence? : Spot → Option (Nat × Token)
  | read id name | assignment id name | this id name | super id name => some (id, name)
  | declaration _ | inheritance _ _ | departure _ _ => none

/-- A spot, and what it stands behind or inside of. -/
structure Position where
  spot : Spot
  around : Surroundings

mutual

/-- The positions in an expression. Of an assignment to a field the value comes before the object. -/
def Expr.positions (around : Surroundings) : Expr → List Position
  | .literal _ _ => []
  | .unary _ _ right => right.positions around
  | .binary _ left _ right | .logical _ left _ right =>
    left.positions around ++ right.positions around
  | .grouping _ inner => inner.positions around
  | .var id name => [⟨.read id name, around⟩]
  | .assign id name value => value.positions around ++ [⟨.assignment id name, around⟩]
  | .call _ callee _ arguments => callee.positions around ++ Expr.positionsEach around arguments
  | .get _ object _ => object.positions around
  | .set _ object _ value => value.positions around ++ object.positions around
  | .this id keyword => [⟨.this id keyword, around⟩]
  | .super id keyword _ => [⟨.super id keyword, around⟩]

/-- The positions in expressions. -/
def Expr.positionsEach (around : Surroundings) : List Expr → List Position
  | [] => []
  | e :: rest => e.positions around ++ Expr.positionsEach around rest

end

/-- The positions in an expression that may be missing. -/
def Expr.positionsOption (around : Surroundings) : Option Expr → List Position
  | none => []
  | some e => e.positions around

/-- The position of the clause of a superclass. -/
def Expr.inheritance (around : Surroundings) (className : Token) : Expr → List Position
  | .var _ ancestor => [⟨.inheritance className ancestor, around⟩]
  | _ => []

/-- The positions of the names of parameters, each of which is declared before the next one. -/
def Surroundings.parameters (around : Surroundings) : List Token → List Position
  | [] => []
  | name :: rest => ⟨.declaration name, around⟩ :: (around.declare name).parameters rest

/-- The names that a statement declares in the scope it stands in, also as the branch of a choice or
the body of a loop, in their order. -/
def Stmt.introduces : Stmt → List Token
  | .varDecl name _ | .classDecl name _ _ => [name]
  | .funDecl routine => [routine.name]
  | .ifThen _ body | .whileLoop _ body => body.introduces
  | .ifElse _ thenBranch elseBranch => thenBranch.introduces ++ elseBranch.introduces
  | .expression _ | .block _ | .returnValue _ _ => []

mutual

/-- The positions in a statement. What a statement declares is declared before its initializer, its
superclass and the bodies of its functions. -/
def Stmt.positions (around : Surroundings) : Stmt → List Position
  | .expression value => value.positions around
  | .varDecl name initializer =>
    ⟨.declaration name, around⟩ ::
      Expr.positionsOption (around.initializing name) initializer
  | .block body => Stmt.positionsEach around.enter body
  | .ifThen condition body | .whileLoop condition body =>
    condition.positions around ++ body.positions around
  | .ifElse condition thenBranch elseBranch =>
    condition.positions around ++ thenBranch.positions around
      ++ elseBranch.positions (around.declareEach thenBranch.introduces)
  | .funDecl routine =>
    ⟨.declaration routine.name, around⟩ ::
      routine.positions (around.declare routine.name) .function
  | .returnValue keyword value =>
    ⟨.departure keyword value.isSome, around⟩ :: Expr.positionsOption around value
  | .classDecl name none methods =>
    ⟨.declaration name, around⟩ ::
      Routine.positionsEach ((around.inClass name .base).enterKeyword "this") methods
  | .classDecl name (some ancestor) methods =>
    let inside := around.inClass name .derived
    ⟨.declaration name, around⟩ :: (ancestor.inheritance around name ++ ancestor.positions inside
      ++ Routine.positionsEach ((inside.enterKeyword "super").enterKeyword "this") methods)

/-- The positions in statements, each of which stands behind what those before it declare. -/
def Stmt.positionsEach (around : Surroundings) : List Stmt → List Position
  | [] => []
  | s :: rest => s.positions around ++ Stmt.positionsEach (around.declareEach s.introduces) rest

/-- The positions in a function or method, apart from its name. -/
def Routine.positions (around : Surroundings) (kind : BodyKind) : Routine → List Position
  | .mk _ params body =>
    let inside := around.enterBody kind
    inside.parameters params ++ Stmt.positionsEach (inside.declareEach params) body

/-- The positions in the methods of a class. -/
def Routine.positionsEach (around : Surroundings) : List Routine → List Position
  | [] => []
  | r :: rest => r.positions around r.methodKind ++ Routine.positionsEach around rest

end

/-- The positions in a program. -/
def Program.positions (p : Program) : List Position :=
  Stmt.positionsEach [] p

/-! ### One more mark -/

namespace Surroundings

theorem isLocal_cons (mark : Mark) (outer : Surroundings) :
    isLocal (mark :: outer) = (decide (mark = .scope) || isLocal outer) := by
  simp [isLocal, eq_comm]

theorem declaresHere_declared (around : Surroundings) (known name : String) :
    declaresHere (.declared known :: around) name
      = (isLocal around && decide (known = name) || declaresHere around name) := by
  simp only [declaresHere, isLocal_cons]
  cases isLocal around <;> simp [eq_comm]

theorem declaresHere_scope (around : Surroundings) (name : String) :
    declaresHere (.scope :: around) name = false := by
  simp [declaresHere]

/-- Only a scope and a declaration change what the innermost scope has declared. -/
theorem declaresHere_cons (around : Surroundings) (name : String) {mark : Mark}
    (hscope : mark ≠ .scope) (hname : ∀ n, mark ≠ .declared n) :
    declaresHere (mark :: around) name = declaresHere around name := by
  simp [declaresHere, isLocal_cons, hscope, (hname name).symm]

end Surroundings

/-! ### Addresses -/

namespace Surroundings

/-- The number of scopes to go outward to the nearest one that has declared the name. -/
def address? : Surroundings → String → Option Nat
  | [], _ => none
  | .declared known :: outer, name =>
    if known = name ∧ isLocal outer then some 0 else address? outer name
  | .scope :: outer, name => (address? outer name).map (· + 1)
  | .initializer _ :: outer, name | .body _ :: outer, name | .classBody _ :: outer, name =>
    address? outer name

section

variable {around outer : Surroundings} {name : String} {distance : Nat}

theorem Reaches.isLocal (h : Reaches around name distance) : around.isLocal = true := by
  obtain ⟨nearer, farther, rfl, -, hlocal, -⟩ := h
  simp only [Surroundings.isLocal, List.contains_iff_mem] at hlocal ⊢
  exact List.mem_append_right _ (List.mem_cons_of_mem _ hlocal)

/-- A mark that is neither a scope nor a declaration of the name is passed over. -/
theorem reaches_cons {mark : Mark} (hscope : mark ≠ .scope) (hname : mark ≠ .declared name) :
    Reaches (mark :: outer) name distance ↔ Reaches outer name distance := by
  constructor
  · rintro ⟨nearer, farther, he, hnew, hlocal, hcount⟩
    cases nearer with
    | nil => exact absurd (List.cons.inj he).1 hname
    | cons first nearer =>
      obtain ⟨rfl, rfl⟩ := List.cons.inj he
      refine ⟨nearer, farther, rfl, fun h => hnew (List.mem_cons_of_mem _ h), hlocal, ?_⟩
      rwa [List.count_cons_of_ne hscope] at hcount
  · rintro ⟨nearer, farther, rfl, hnew, hlocal, hcount⟩
    refine ⟨mark :: nearer, farther, rfl, ?_, hlocal, ?_⟩
    · rw [List.mem_cons, not_or]
      exact ⟨hname.symm, hnew⟩
    · rwa [List.count_cons_of_ne hscope]

/-- From inside of one more scope everything is one scope further out. -/
theorem reaches_scope :
    Reaches (.scope :: outer) name distance ↔ ∃ d, Reaches outer name d ∧ d + 1 = distance := by
  constructor
  · rintro ⟨nearer, farther, he, hnew, hlocal, hcount⟩
    cases nearer with
    | nil => cases (List.cons.inj he).1
    | cons first nearer =>
      obtain ⟨rfl, rfl⟩ := List.cons.inj he
      refine ⟨nearer.count .scope, ⟨nearer, farther, rfl, ?_, hlocal, rfl⟩, ?_⟩
      · exact fun h => hnew (List.mem_cons_of_mem _ h)
      · rwa [List.count_cons_self] at hcount
  · rintro ⟨d, ⟨nearer, farther, rfl, hnew, hlocal, hcount⟩, rfl⟩
    exact ⟨.scope :: nearer, farther, rfl, by simpa using hnew, hlocal, by simp [hcount]⟩

/-- A name that the innermost scope has just declared is found there. -/
theorem reaches_declared (hlocal : outer.isLocal = true) :
    Reaches (.declared name :: outer) name distance ↔ 0 = distance := by
  constructor
  · rintro ⟨nearer, farther, he, hnew, -, hcount⟩
    cases nearer with
    | nil => exact hcount
    | cons first nearer =>
      obtain ⟨rfl, -⟩ := List.cons.inj he
      exact absurd List.mem_cons_self hnew
  · rintro rfl
    exact ⟨[], outer, rfl, by simp, hlocal, rfl⟩

/-- The address of a name is the distance of the nearest scope that has declared it. -/
theorem address?_eq_some_iff : around.address? name = some distance ↔ around.Reaches name distance := by
  induction around generalizing distance with
  | nil => exact ⟨nofun, fun h => absurd h.isLocal (by simp [Surroundings.isLocal])⟩
  | cons mark outer ih =>
    cases mark with
    | scope => simp only [address?, Option.map_eq_some_iff, ih, reaches_scope]
    | declared known =>
      rw [address?]
      by_cases hlocal : isLocal outer = true
      · by_cases hname : known = name
        · subst hname
          rw [if_pos ⟨rfl, hlocal⟩, reaches_declared hlocal, Option.some.injEq]
        · rw [if_neg fun h => hname h.1, ih, reaches_cons (by simp) (by simpa using hname)]
      · rw [if_neg fun h => hlocal h.2, ih]
        refine iff_of_false (fun h => hlocal h.isLocal) fun h => hlocal ?_
        simpa [isLocal_cons] using h.isLocal
    | initializer | body | classBody => rw [address?, ih, reaches_cons (by simp) (by simp)]

end

end Surroundings

end Lox
