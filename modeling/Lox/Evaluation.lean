import Lox.Machine

/-!
The meaning of programs. Expressions are evaluated to values and statements are executed, which
leaves a `Completion`: whether the statement after it is next, or a `return` is on its way out of
the function that is running. `Expr.evaluateBy` and `Stmt.executeBy` say what one expression and one
statement do, given how those inside them are evaluated and executed; `evaluate` and `execute` tie
the two together. They are given fuel, one unit for each level of the program and each round of a
loop, since a program need not end.
-/

namespace Lox

/-- How a statement is completed. -/
inductive Completion (E : Type := Environment) where
  /-- The statement after it is next. -/
  | normal
  /-- The end of the function that is running is next, and gives this value. -/
  | returned (value : Value E)

/-! ### Operators -/

section

variable {E : Type}

/-- The value of an operator before an operand. -/
def Value.unary (operator : Token) (right : Value E) : Except RuntimeFault (Value E) :=
  match operator.kind with
  | .minus =>
    match right with
    | .number x => .ok (.number (-x))
    | _ => .error .operandNotNumber
  | .bang => .ok (.boolean !right.isTruthy)
  | _ => .error (.invalidUnaryOperator operator.lexeme)

/-- The value of an operator between numbers. -/
def Value.arithmetic? (operator : Kind) (a b : Float) : Option (Value E) :=
  match operator with
  | .minus => some (.number (a - b))
  | .star => some (.number (a * b))
  | .slash => some (.number (a / b))
  | .greater => some (.boolean (a > b))
  | .greaterEqual => some (.boolean (a ≥ b))
  | .less => some (.boolean (a < b))
  | .lessEqual => some (.boolean (a ≤ b))
  | _ => none

/-- The sum of two numbers, or two texts one after the other. -/
def Value.add : Value E → Value E → Except RuntimeFault (Value E)
  | .number a, .number b => .ok (.number (a + b))
  | .string a, .string b => .ok (.string (a ++ b))
  | _, _ => .error .operandsNotAddable

/-- The value of an operator between operands. -/
def Value.binary (operator : Token) (left right : Value E) : Except RuntimeFault (Value E) :=
  match operator.kind with
  | .plus => left.add right
  | .equalEqual => .ok (.boolean (left.equals right))
  | .bangEqual => .ok (.boolean !left.equals right)
  | kind =>
    match left, right with
    | .number a, .number b =>
      match Value.arithmetic? kind a b with
      | some value => .ok value
      | none => .error (.invalidBinaryOperator operator.lexeme)
    | _, _ => .error .operandsNotNumbers

/-- The left operand of a logical operator is its value, and the right one is not evaluated. -/
def Value.decides (operator : Token) (left : Value E) : Bool :=
  left.isTruthy = decide (operator.kind = .kwOr)

end

/-! ### Calls -/

/-- The scope of a call: the parameters, each bound to its argument. -/
def Closure.frame (c : Closure) (arguments : List Value) : Bindings Value :=
  (c.routine.params.zip arguments).foldl (fun b entry => b.set entry.1.lexeme entry.2) []

/-- Calls a function, whose body `execute` runs. -/
def Closure.call (execute : List Stmt → Run Completion) (c : Closure) (arguments : List Value)
    (line : Nat) : Run Value := do
  let environment ← Run.extend c.environment (c.frame arguments)
  let completion ← Run.within environment (execute c.routine.body)
  if c.isInitializer then Run.getAt c.environment 0 "this" line
  else match completion with
    | .returned value => return value
    | .normal => return .nil

/-- A method as a function of its own, with `this` bound to an object. -/
def Closure.bind (c : Closure) (object : Value) : Run Closure := do
  let environment ← Run.extend c.environment [("this", object)]
  return { c with environment }

/-- Makes an instance of a class and sets it up. -/
def Class.instantiate (execute : List Stmt → Run Completion) (c : Class) (arguments : List Value)
    (line : Nat) : Run Value := do
  let object := Value.object (← Run.newObject) c
  match c.initializer? with
  | none => return object
  | some initializer =>
    let bound ← initializer.bind object
    let _ ← bound.call execute arguments line
    return object

/-- A call whose number of arguments must be `arity`. -/
def Run.withArity (arity : Nat) (arguments : List Value) (line : Nat) (call : Run Value) :
    Run Value :=
  if arguments.length = arity then call
  else Run.fail line (.wrongArgumentCount arity arguments.length)

/-- Calls a value with arguments. -/
def Value.call (execute : List Stmt → Run Completion) (callee : Value) (arguments : List Value)
    (line : Nat) : Run Value :=
  match callee with
  | .native host => Run.withArity host.arity arguments line (Run.ofHost (host.call arguments line))
  | .function _ closure =>
    Run.withArity closure.arity arguments line (closure.call execute arguments line)
  | .classOf _ description =>
    Run.withArity description.arity arguments line (description.instantiate execute arguments line)
  | _ => Run.fail line .notCallable

/-! ### Properties -/

/-- A method of a class as a value, bound to an object. -/
def Class.boundMethod (c : Class) (name : Token) (object : Value) : Run Value :=
  match c.method? name.lexeme with
  | none => Run.fail name.line (.undefinedProperty name.lexeme)
  | some method => do
    let bound ← method.bind object
    return .function (← Run.newIdentity) bound

/-- The property of a value: a field of an object, else a method of its class. -/
def Value.property (value : Value) (name : Token) : Run Value := do
  match value with
  | .object id description =>
    match ← Run.field? id name.lexeme with
    | some field => return field
    | none => description.boundMethod name value
  | _ => Run.fail name.line .notAnObject

/-- The method that `super` gives: that of the class bound around the methods of the class, bound
to the object of the method that is running. -/
def superMethod (id : Nat) (keyword method : Token) : Run Value := do
  match ← Run.distance? id with
  | none => Run.fail keyword.line .superOutsideSubclass
  | some distance =>
    let environment ← Run.environment
    match ← Run.getAt environment distance "super" keyword.line with
    | .classOf _ ancestor =>
      match ← Run.getAt environment (distance - 1) "this" keyword.line with
      | .object object description => ancestor.boundMethod method (.object object description)
      | _ => Run.fail keyword.line .notAnObject
    | _ => Run.fail keyword.line .superclassNotAClass

/-! ### Declarations -/

/-- Declares a function. -/
def declareFunction (routine : Routine) : Run Unit := do
  let closure := ⟨routine, ← Run.environment, false⟩
  Run.define routine.name.lexeme (.function (← Run.newIdentity) closure)

/-- The methods of a class as they are declared in an environment; of two with one name the later
counts. -/
def methodLayer {E : Type} (environment : E) (methods : List Routine) : Bindings (Closure E) :=
  methods.foldl (fun b r => b.set r.name.lexeme ⟨r, environment, r.isInitializer⟩) []

/-- Declares a class, whose superclass, if it has one, has been evaluated. -/
def declareClass (name : Token) (superclass : Option (Value × Class)) (methods : List Routine) :
    Run Unit := do
  Run.define name.lexeme .nil
  let outer ← Run.environment
  let environment ← match superclass with
    | none => pure outer
    | some (value, _) => Run.extend outer [("super", value)]
  let inherited := match superclass with
    | none => []
    | some (_, description) => description.layers
  let description := ⟨name.lexeme, methodLayer environment methods :: inherited⟩
  Run.define name.lexeme (.classOf (← Run.newIdentity) description)

/-- A value that stands as a superclass must be a class. -/
def asSuperclass (line : Nat) (value : Value) : Run (Value × Class) :=
  match value with
  | .classOf _ description => pure (value, description)
  | _ => Run.fail line .superclassNotAClass

/-! ### Expressions and statements -/

/-- Executes statements up to one that returns. -/
def executeEach (execute : Stmt → Run Completion) : List Stmt → Run Completion
  | [] => pure .normal
  | s :: rest => do
    match ← execute s with
    | .normal => executeEach execute rest
    | .returned value => return .returned value

/-- Executes a body as long as a condition holds and nothing returns. -/
def executeWhile (condition : Run Value) (body : Run Completion) : Nat → Run Completion
  | 0 => throw .outOfFuel
  | fuel + 1 => do
    if (← condition).isTruthy then
      match ← body with
      | .normal => executeWhile condition body fuel
      | .returned value => return .returned value
    else return .normal

/-- Evaluates an expression: `evaluate` evaluates those in it, and `execute` executes the statements
of the functions it calls. -/
def Expr.evaluateBy (evaluate : Expr → Run Value) (execute : Stmt → Run Completion) :
    Expr → Run Value
  | .literal _ value => return .ofLiteral value
  | .grouping _ inner => evaluate inner
  | .unary _ operator right => do
    let value ← evaluate right
    Run.ofExcept operator.line (value.unary operator)
  | .binary _ left operator right => do
    let a ← evaluate left
    let b ← evaluate right
    Run.ofExcept operator.line (a.binary operator b)
  | .logical _ left operator right => do
    let value ← evaluate left
    if value.decides operator then return value else evaluate right
  | .var id name => Run.lookUp id name
  | .this id keyword => Run.lookUp id keyword
  | .assign id name right => do
    let value ← evaluate right
    Run.assign id name value
    return value
  | .call _ callee paren arguments => do
    let value ← evaluate callee
    let values ← arguments.mapM evaluate
    value.call (executeEach execute) values paren.line
  | .get _ object name => do
    let value ← evaluate object
    value.property name
  | .set _ object name right => do
    match ← evaluate object with
    | .object id _ =>
      let value ← evaluate right
      Run.setField id name.lexeme value
      return value
    | _ => Run.fail name.line .notAnObject
  | .super id keyword method => superMethod id keyword method

/-- Executes a statement: `evaluate` evaluates the expressions and `execute` executes the statements
in it. Loops go round `rounds` times at most. -/
def Stmt.executeBy (evaluate : Expr → Run Value) (execute : Stmt → Run Completion)
    (rounds : Nat) : Stmt → Run Completion
  | .expression value => do
    let _ ← evaluate value
    return .normal
  | .varDecl name initializer => do
    let value ← match initializer with
      | some e => evaluate e
      | none => pure .nil
    Run.define name.lexeme value
    return .normal
  | .block body => do
    let inside ← Run.extend (← Run.environment) []
    Run.within inside (executeEach execute body)
  | .ifThen condition thenBranch => do
    if (← evaluate condition).isTruthy then execute thenBranch else return .normal
  | .ifElse condition thenBranch elseBranch => do
    if (← evaluate condition).isTruthy then execute thenBranch else execute elseBranch
  | .whileLoop condition body => executeWhile (evaluate condition) (execute body) rounds
  | .funDecl routine => do
    declareFunction routine
    return .normal
  | .returnValue _ value => do
    match value with
    | some e => return .returned (← evaluate e)
    | none => return .returned .nil
  | .classDecl name superclass methods => do
    let ancestor ← match superclass with
      | some e => some <$> (evaluate e >>= asSuperclass (e.line?.getD name.line))
      | none => pure none
    declareClass name ancestor methods
    return .normal

mutual

/-- Evaluates an expression. -/
def evaluate : Nat → Expr → Run Value
  | 0, _ => throw .outOfFuel
  | fuel + 1, e => e.evaluateBy (evaluate fuel) (execute fuel)

/-- Executes a statement. -/
def execute : Nat → Stmt → Run Completion
  | 0, _ => throw .outOfFuel
  | fuel + 1, s => s.executeBy (evaluate fuel) (execute fuel) fuel

end

end Lox
