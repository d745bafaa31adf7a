import Lox.Program.Parser

/-!
Reading tokens by their places. The tokens stay in a list that ends with an end of program and may
hold others before; an index says which one is next, and a place outside of the list holds no token.
Every loop and every function that calls itself is given fuel. A step has no result (`none`) if its
fuel is too little, as it always is for one that would go on for ever, or if it looks outside of the
list. The farthest place that was reached or looked at is kept, so that one can tell how far a run has
gone.
-/

namespace Lox.Indexed

open Lox.Parser (Level Parsed levels startsStatement forLoop)

/-- A list of tokens, the place reached in it, and what has been found so far. -/
structure Buffer where
  tokens : List Token
  /-- The place of the next token. -/
  current : Nat := 0
  /-- The farthest place that was reached or looked at. -/
  reach : Nat := 0
  /-- The number of the next expression. -/
  nextId : Nat
  faults : List Diagnostic := []

/-- The list with an end, which it may have already. -/
def terminated (tokens : List Token) : List Token :=
  if tokens.getLast?.any (·.kind = .eof) then tokens
  else tokens ++ [⟨.eof, "", (tokens.getLast?.map Token.line).getD 1⟩]

/-- The start of a list. -/
def Buffer.new (firstId : Nat) (tokens : List Token) : Buffer where
  tokens := terminated tokens
  nextId := firstId

/-- Steps in a buffer, which may end with a fault. -/
abbrev Scanning := ExceptT Diagnostic (StateT Buffer Option)

namespace Scanning

/-! ### Elementary steps -/

/-- Looks at a place. -/
def tokenAt (place : Nat) : Scanning Token := fun b =>
  match b.tokens[place]? with
  | none => none
  | some t => some (.ok t, { b with reach := max b.reach place })

/-- The next token. -/
def peek : Scanning Token := do
  tokenAt (← get).current

/-- The token before the next one; at the start of the list, the next one. -/
def previous : Scanning Token := do
  tokenAt ((← get).current - 1)

def isAtEnd : Scanning Bool :=
  return (← peek).kind = .eof

/-- Moves on to the next place. -/
def step : Scanning Unit :=
  modify fun b => { b with current := b.current + 1, reach := max b.reach (b.current + 1) }

/-- Takes the next token, unless it ends the program. -/
def advance : Scanning Token := do
  if ← isAtEnd then previous
  else
    step
    previous

/-- The next token is of this kind, and does not end the program. -/
def check (k : Kind) : Scanning Bool := do
  if ← isAtEnd then return false
  else return (← peek).kind = k

/-- Takes the next token if it is of this kind. -/
def accept (k : Kind) : Scanning Bool := do
  if ← check k then
    let _ ← advance
    return true
  else return false

/-- Records a fault. -/
def record (d : Diagnostic) : Scanning Unit :=
  modify fun b => { b with faults := b.faults ++ [d] }

/-- Ends at the next token, where something else was expected. -/
def fail {α : Type} (what : Expectation) : Scanning α := do
  throw (.grammar (← peek) (.expected what))

/-- Takes the next token, which must be of this kind. -/
def expect (k : Kind) (what : Expectation) : Scanning Token := do
  if ← check k then advance else fail what

/-- Makes an expression with the next number. -/
def node (make : Nat → Expr) : Scanning Expr := do
  let id := (← get).nextId
  modify fun b => { b with nextId := id + 1 }
  return make id

/-- One more list entry after `count` others. -/
def checkLimit (limit : Limit) (what : Listing) (count : Nat) : Scanning Unit := do
  if limit.maxArguments ≤ count then
    if limit.strict then record (.grammar (← peek) (.overLimit limit.maxArguments what))
    else let _ ← peek

/-- There is not enough fuel. -/
def stuck {α : Type} : Scanning α := fun _ => none

/-! ### Statement boundaries -/

/-- Takes tokens up to a boundary or the end. -/
def untilBoundary : Nat → Scanning Unit
  | 0 => stuck
  | fuel + 1 => do
    if ← isAtEnd then return
    else if (← previous).kind = .semicolon then return
    else if startsStatement (← peek).kind then return
    else
      let _ ← advance
      untilBoundary fuel

/-- Takes one token, and more up to a boundary or the end. There are no more rounds than tokens. -/
def synchronize : Scanning Unit := do
  let _ ← advance
  untilBoundary (← get).tokens.length

/-- Steps that end with a fault record it and go on at the next boundary. -/
def recovering {α : Type} (q : Scanning α) : Scanning (Option α) :=
  (do
    match ← q.run with
    | .ok a => return .ok (some a)
    | .error d =>
      let _ ← (record d).run
      let _ ← synchronize.run
      return .ok none : StateT Buffer Option (Except Diagnostic (Option α)))

/-! ### Repetition -/

/-- One thing after another, as long as nothing closes. -/
def upTo {α : Type} (closing : Scanning Bool) (entry : Scanning α) : Nat → Scanning (List α)
  | 0 => stuck
  | fuel + 1 => do
    if ← closing then return []
    else
      let first ← entry
      return first :: (← upTo closing entry fuel)

/-- Entries with commas between them, after `count` others. -/
def listed {α : Type} (limit : Limit) (what : Listing) (entry : Scanning α) (count : Nat) :
    Nat → Scanning (List α)
  | 0 => stuck
  | fuel + 1 => do
    checkLimit limit what count
    let first ← entry
    if ← accept .comma then return first :: (← listed limit what entry (count + 1) fuel)
    else return [first]

end Scanning

open Scanning

/-! ### Expressions -/

/-- What is assigned to a target by the token `equals`. -/
def assignTo (target : Expr) (equals : Token) (value : Expr) : Scanning Expr :=
  match target with
  | .var _ name => node (.assign · name value)
  | .get _ object name => node (.set · object name value)
  | _ => do
    record (.grammar equals .invalidAssignmentTarget)
    return target

/-- Goes on from the first operand of one level, as long as its operators follow. -/
def operations (level : Level) (operand : Scanning Expr) (left : Expr) : Nat → Scanning Expr
  | 0 => stuck
  | fuel + 1 => do
    if ← level.operators.anyM check then
      let operator ← advance
      let right ← operand
      let joined ← node (level.make · left operator right)
      operations level operand joined fuel
    else return left

/-- An operation of the given levels, the loosest first. -/
def operation (unary : Scanning Expr) (fuel : Nat) : List Level → Scanning Expr
  | [] => unary
  | level :: tighter => do
    let left ← operation unary fuel tighter
    operations level (operation unary fuel tighter) left fuel

/-- An expression that is a single word or mark, or starts with a word or mark of its own. -/
def primary (expression : Scanning Expr) : Scanning Expr := do
  if ← accept .kwFalse then node (.literal · (.boolean false))
  else if ← accept .kwTrue then node (.literal · (.boolean true))
  else if ← accept .kwNil then node (.literal · .nil)
  else match (← peek).kind with
    | .number value =>
      let _ ← advance
      node (.literal · (.number value))
    | .string contents =>
      let _ ← advance
      node (.literal · (.string contents))
    | _ =>
      if ← accept .kwThis then
        let keyword ← previous
        node (.this · keyword)
      else if ← accept .kwSuper then
        let keyword ← previous
        let _ ← expect .dot .superDot
        let method ← expect .identifier .superMethodName
        node (.super · keyword method)
      else if ← accept .identifier then
        let name ← previous
        node (.var · name)
      else if ← accept .leftParen then
        let inner ← expression
        let _ ← expect .rightParen .groupEnd
        node (.grouping · inner)
      else fail .expression

section

variable (limit : Limit)

/-- A call from its arguments on. -/
def finishCall (argument : Scanning Expr) (callee : Expr) (fuel : Nat) : Scanning Expr := do
  let arguments ←
    if ← check .rightParen then pure [] else listed limit .arguments argument 0 fuel
  let paren ← expect .rightParen .argumentsEnd
  node (.call · callee paren arguments)

/-- Goes on from a callee or an object, as long as calls and properties follow. -/
def accesses (argument : Scanning Expr) (left : Expr) : Nat → Scanning Expr
  | 0 => stuck
  | fuel + 1 => do
    if ← accept .leftParen then
      let call ← finishCall limit argument left fuel
      accesses argument call fuel
    else if ← accept .dot then
      let name ← expect .identifier .propertyName
      let property ← node (.get · left name)
      accesses argument property fuel
    else return left

mutual

/-- An assignment, or an operation of any level. -/
def expression : Nat → Scanning Expr
  | 0 => stuck
  | fuel + 1 => do
    let target ← operation (unary fuel) fuel levels
    if ← accept .equal then
      let equals ← previous
      let value ← expression fuel
      assignTo target equals value
    else return target

/-- Something with signs and negations in front of it. -/
def unary : Nat → Scanning Expr
  | 0 => stuck
  | fuel + 1 => do
    if ← accept .bang <||> accept .minus then
      let operator ← previous
      let right ← unary fuel
      node (.unary · operator right)
    else call fuel

/-- Something with calls and properties behind it. -/
def call : Nat → Scanning Expr
  | 0 => stuck
  | fuel + 1 => do
    let left ← primary (expression fuel)
    accesses limit (expression fuel) left fuel

end

end

/-! ### Statements -/

/-- The declaration of a variable from its name on. -/
def varDecl (expression : Scanning Expr) : Scanning Stmt := do
  let name ← expect .identifier .variableName
  let initializer ← if ← accept .equal then some <$> expression else pure none
  let _ ← expect .semicolon .variableEnd
  return .varDecl name initializer

/-- An expression that stands as a statement. -/
def expressionStatement (expression : Scanning Expr) : Scanning Stmt := do
  let value ← expression
  let _ ← expect .semicolon .statementEnd
  return .expression value

/-- A condition between parentheses. -/
def condition (start : Expectation) (expression : Scanning Expr) : Scanning Expr := do
  let _ ← expect .leftParen start
  let condition ← expression
  let _ ← expect .rightParen .conditionEnd
  return condition

/-- A return, of which the keyword has been taken. -/
def returnStatement (expression : Scanning Expr) : Scanning Stmt := do
  let keyword ← previous
  let value ← if ← check .semicolon then pure none else some <$> expression
  let _ ← expect .semicolon .returnEnd
  return .returnValue keyword value

/-- The first clause of a `for`, if it is not empty. -/
def forInitializer (expression : Scanning Expr) : Scanning (Option Stmt) := do
  if ← accept .semicolon then return none
  else if ← accept .kwVar then some <$> varDecl expression
  else some <$> expressionStatement expression

/-- A `for` from its clauses on. -/
def forStatement (expression : Scanning Expr) (statement : Scanning Stmt) : Scanning Stmt := do
  let _ ← expect .leftParen .forStart
  let initializer ← forInitializer expression
  let condition ← if ← check .semicolon then pure none else some <$> expression
  let _ ← expect .semicolon .forConditionEnd
  let increment ← if ← check .rightParen then pure none else some <$> expression
  let _ ← expect .rightParen .forClausesEnd
  let body ← statement
  let condition ← match condition with
    | some e => pure e
    | none => node (.literal · (.boolean true))
  return forLoop initializer condition increment body

/-- A choice from its condition on. -/
def ifStatement (expression : Scanning Expr) (statement : Scanning Stmt) : Scanning Stmt := do
  let condition ← condition .ifStart expression
  let thenBranch ← statement
  if ← accept .kwElse then return .ifElse condition thenBranch (← statement)
  else return .ifThen condition thenBranch

/-- A loop from its condition on. -/
def whileStatement (expression : Scanning Expr) (statement : Scanning Stmt) : Scanning Stmt := do
  let condition ← condition .whileStart expression
  return .whileLoop condition (← statement)

/-- The next token closes a block or a class, or there is none. -/
def isClosed : Scanning Bool :=
  check .rightBrace <||> isAtEnd

/-- Statements up to the brace that closes a block, which has been opened. -/
def block (declaration : Scanning (Option Stmt)) (fuel : Nat) : Scanning (List Stmt) := do
  let body ← upTo isClosed declaration fuel
  let _ ← expect .rightBrace .blockEnd
  return body.reduceOption

/-- A function or method from its name on. -/
def routine (limit : Limit) (block : Scanning (List Stmt)) (fuel : Nat) (kind : RoutineKind) :
    Scanning Routine := do
  let name ← expect .identifier (.routineName kind)
  let _ ← expect .leftParen (.parametersStart kind)
  let params ← if ← check .rightParen then pure []
    else listed limit .parameters (expect .identifier .parameterName) 0 fuel
  let _ ← expect .rightParen .parametersEnd
  let _ ← expect .leftBrace (.bodyStart kind)
  let body ← block
  return .mk name params body

/-- A class from its name on. -/
def classDecl (method : Scanning Routine) (fuel : Nat) : Scanning Stmt := do
  let name ← expect .identifier .className
  let superclass ←
    if ← accept .colon then
      let ancestor ← expect .identifier .superclassName
      some <$> node (.var · ancestor)
    else pure none
  let _ ← expect .leftBrace .classBodyStart
  let methods ← upTo isClosed method fuel
  let _ ← expect .rightBrace .classBodyEnd
  return .classDecl name superclass methods

section

variable (limit : Limit)

mutual

/-- A declaration or a statement; `none` if it could not be read, which is recorded. -/
def declaration : Nat → Scanning (Option Stmt)
  | 0 => stuck
  | fuel + 1 =>
    let block := block (declaration fuel) fuel
    recovering do
      if ← accept .kwClass then classDecl (routine limit block fuel .method) fuel
      else if ← accept .kwFun then .funDecl <$> routine limit block fuel .function
      else if ← accept .kwVar then varDecl (expression limit fuel)
      else statement fuel

/-- A statement that declares nothing. -/
def statement : Nat → Scanning Stmt
  | 0 => stuck
  | fuel + 1 => do
    let expression := expression limit fuel
    if ← accept .kwFor then forStatement expression (statement fuel)
    else if ← accept .kwIf then ifStatement expression (statement fuel)
    else if ← accept .kwWhile then whileStatement expression (statement fuel)
    else if ← accept .kwReturn then returnStatement expression
    else if ← accept .leftBrace then .block <$> block (declaration fuel) fuel
    else expressionStatement expression

end

/-! ### Whole programs -/

/-- All declarations up to the end. -/
def program (fuel : Nat) : Scanning Program :=
  return (← upTo isAtEnd (declaration limit fuel) fuel).reduceOption

/-- One expression, after which the list must end. -/
def loneExpression (fuel : Nat) : Scanning Expr := do
  let e ← expression limit fuel
  if ← isAtEnd then return e
  else
    record (.grammar (← peek) (.expected .expressionEnd))
    return e

end

/-- What is left when the steps have ended: what was read, if no fault was found. -/
def finish {α : Type} : Except Diagnostic α × Buffer → Parsed α
  | (.ok a, b) => ⟨if b.faults = [] then .ok a else .error b.faults, b.nextId⟩
  | (.error d, b) => ⟨.error (b.faults ++ [d]), b.nextId⟩

end Lox.Indexed
