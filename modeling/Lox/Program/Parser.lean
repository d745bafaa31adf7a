import Lox.Program.Cursor

/-!
From tokens to trees, by recursive descent.

```text
program     → declaration* eof
declaration → classDecl | "fun" function | varDecl | statement
classDecl   → "class" IDENT ( ":" IDENT )? "{" function* "}"
function    → IDENT "(" parameters? ")" block
varDecl     → "var" IDENT ( "=" expression )? ";"
statement   → expression ";" | for | if | return | while | block
for         → "for" "(" ( varDecl | expression ";" | ";" ) expression? ";" expression? ")" statement
if          → "if" "(" expression ")" statement ( "else" statement )?
return      → "return" expression? ";"
while       → "while" "(" expression ")" statement
block       → "{" declaration* "}"
expression  → ( call "." )? IDENT "=" expression | operation
operation   → unary with the binary operators of `levels`
unary       → ( "!" | "-" ) unary | call
call        → primary ( "(" arguments? ")" | "." IDENT )*
primary     → NUMBER | STRING | "true" | "false" | "nil" | "this" | IDENT
            | "(" expression ")" | "super" "." IDENT
```

A declaration that cannot be read is recorded as a fault, and reading goes on at the next statement
boundary. A `for` is read as the `while` it stands for. Numbers are given to expressions when they
are complete, also to those of a declaration that is dropped.
-/

namespace Lox.Parser

/-! ### Expressions -/

/-- Binary operators of one precedence, and the node they make. -/
structure Level where
  operators : List Kind
  make : Nat → Expr → Token → Expr → Expr

/-- The binary operators by precedence, the loosest first; all of them associate to the left. -/
def levels : List Level :=
  [⟨[.kwOr], .logical⟩,
    ⟨[.kwAnd], .logical⟩,
    ⟨[.bangEqual, .equalEqual], .binary⟩,
    ⟨[.greater, .greaterEqual, .less, .lessEqual], .binary⟩,
    ⟨[.minus, .plus], .binary⟩,
    ⟨[.slash, .star], .binary⟩]

/-- Goes on from the first operand of one level, as long as its operators follow. -/
def operations (level : Level) (operand : Reading Expr) (left : Expr) : Nat → Reading Expr
  | 0 => throw .outOfRounds
  | rounds + 1 => do
    match ← takeIf level.operators.contains with
    | none => pure left
    | some operator =>
      let right ← operand
      let joined ← node (level.make · left operator right)
      operations level operand joined rounds

/-- An operation of the given levels, the loosest first, over the operands `unary`. -/
def operation (unary : Reading Expr) (rounds : Nat) : List Level → Reading Expr
  | [] => unary
  | level :: tighter => do
    let left ← operation unary rounds tighter
    operations level (operation unary rounds tighter) left rounds

/-- Goes on from a callee or an object, as long as calls and properties follow. -/
def accesses (limit : Limit) (argument : Reading Expr) (left : Expr) : Nat → Reading Expr
  | 0 => throw .outOfRounds
  | rounds + 1 => do
    if (← accept .leftParen).isSome then
      let arguments ← listedOrNone limit .arguments argument rounds
      let paren ← expect .rightParen .argumentsEnd
      let call ← node (.call · left paren arguments)
      accesses limit argument call rounds
    else if (← accept .dot).isSome then
      let name ← expect .identifier .propertyName
      let property ← node (.get · left name)
      accesses limit argument property rounds
    else pure left

/-- What is assigned to a target by the token `equals`: a variable or a property. Any other target
is recorded as a fault, and the expression is the target alone. -/
def assignTo (target : Expr) (equals : Token) (value : Expr) : Reading Expr :=
  match target with
  | .var _ name => node (.assign · name value)
  | .get _ object name => node (.set · object name value)
  | _ => do
    report equals .invalidAssignmentTarget
    pure target

/-- An expression that is a single word or mark, or starts with a word or mark of its own. -/
def primary (expression : Reading Expr) : Reading Expr := do
  match (← peek?).map Token.kind with
  | some .kwFalse => let _ ← advance; node (.literal · (.boolean false))
  | some .kwTrue => let _ ← advance; node (.literal · (.boolean true))
  | some .kwNil => let _ ← advance; node (.literal · .nil)
  | some (.number value) => let _ ← advance; node (.literal · (.number value))
  | some (.string contents) => let _ ← advance; node (.literal · (.string contents))
  | some .kwThis => let keyword ← advance; node (.this · keyword)
  | some .kwSuper =>
    let keyword ← advance
    let _ ← expect .dot .superDot
    let method ← expect .identifier .superMethodName
    node (.super · keyword method)
  | some .identifier => let name ← advance; node (.var · name)
  | some .leftParen =>
    let _ ← advance
    let inner ← expression
    let _ ← expect .rightParen .groupEnd
    node (.grouping · inner)
  | _ => fail .expression

section

variable (limit : Limit)

mutual

/-- An assignment, or an operation of any level. -/
def expression : Nat → Reading Expr
  | 0 => throw .outOfRounds
  | rounds + 1 => do
    let target ← operation (unary rounds) rounds levels
    match ← accept .equal with
    | none => pure target
    | some equals =>
      let value ← expression rounds
      assignTo target equals value

/-- Something with signs and negations in front of it. -/
def unary : Nat → Reading Expr
  | 0 => throw .outOfRounds
  | rounds + 1 => do
    match ← takeIf (fun k => k = .bang ∨ k = .minus) with
    | some operator =>
      let right ← unary rounds
      node (.unary · operator right)
    | none => call rounds

/-- Something with calls and properties behind it. -/
def call : Nat → Reading Expr
  | 0 => throw .outOfRounds
  | rounds + 1 => do
    let left ← primary (expression rounds)
    accesses limit (expression rounds) left rounds

end

end

/-! ### Statements -/

/-- Statements up to the brace that closes a block, which has been opened. -/
def block (declaration : Reading (Option Stmt)) (rounds : Nat) : Reading (List Stmt) := do
  let body ← upTo (· = .rightBrace) declaration rounds
  let _ ← expect .rightBrace .blockEnd
  return body.reduceOption

/-- A function or method from its name on. -/
def routine (limit : Limit) (block : Reading (List Stmt)) (rounds : Nat) (kind : RoutineKind) :
    Reading Routine := do
  let name ← expect .identifier (.routineName kind)
  let _ ← expect .leftParen (.parametersStart kind)
  let parameter := expect .identifier .parameterName
  let params ← listedOrNone limit .parameters parameter rounds
  let _ ← expect .rightParen .parametersEnd
  let _ ← expect .leftBrace (.bodyStart kind)
  return .mk name params (← block)

/-- A class from its name on. -/
def classDecl (method : Reading Routine) (rounds : Nat) : Reading Stmt := do
  let name ← expect .identifier .className
  let superclass ←
    if (← accept .colon).isSome then
      let ancestor ← expect .identifier .superclassName
      some <$> node (.var · ancestor)
    else pure none
  let _ ← expect .leftBrace .classBodyStart
  let methods ← upTo (· = .rightBrace) method rounds
  let _ ← expect .rightBrace .classBodyEnd
  return .classDecl name superclass methods

/-- The declaration of a variable from its name on. -/
def varDecl (expression : Reading Expr) : Reading Stmt := do
  let name ← expect .identifier .variableName
  let initializer ← if (← accept .equal).isSome then some <$> expression else pure none
  let _ ← expect .semicolon .variableEnd
  return .varDecl name initializer

/-- An expression that stands as a statement. -/
def expressionStatement (expression : Reading Expr) : Reading Stmt := do
  let value ← expression
  let _ ← expect .semicolon .statementEnd
  return .expression value

/-- A condition between parentheses. -/
def condition (start : Expectation) (expression : Reading Expr) : Reading Expr := do
  let _ ← expect .leftParen start
  let condition ← expression
  let _ ← expect .rightParen .conditionEnd
  return condition

/-- A choice from its condition on; an `else` belongs to the nearest one. -/
def ifStatement (expression : Reading Expr) (statement : Reading Stmt) : Reading Stmt := do
  let condition ← condition .ifStart expression
  let thenBranch ← statement
  if (← accept .kwElse).isSome then return .ifElse condition thenBranch (← statement)
  else return .ifThen condition thenBranch

/-- A loop from its condition on. -/
def whileStatement (expression : Reading Expr) (statement : Reading Stmt) : Reading Stmt := do
  let condition ← condition .whileStart expression
  return .whileLoop condition (← statement)

/-- The loop that a `for` with these clauses stands for. -/
def forLoop (initializer : Option Stmt) (condition : Expr) (increment : Option Expr) (body : Stmt) :
    Stmt :=
  let round := match increment with
    | some e => .block [body, .expression e]
    | none => body
  let loop := .whileLoop condition round
  match initializer with
  | some s => .block [s, loop]
  | none => loop

/-- The first clause of a `for`, if it is not empty. -/
def forInitializer (expression : Reading Expr) : Reading (Option Stmt) := do
  if (← accept .semicolon).isSome then pure none
  else if (← accept .kwVar).isSome then some <$> varDecl expression
  else some <$> expressionStatement expression

/-- A `for` from its clauses on; without a condition it goes on for ever. -/
def forStatement (expression : Reading Expr) (statement : Reading Stmt) : Reading Stmt := do
  let _ ← expect .leftParen .forStart
  let initializer ← forInitializer expression
  let condition ← unlessNext .semicolon expression
  let _ ← expect .semicolon .forConditionEnd
  let increment ← unlessNext .rightParen expression
  let _ ← expect .rightParen .forClausesEnd
  let body ← statement
  let condition ← match condition with
    | some e => pure e
    | none => node (.literal · (.boolean true))
  return forLoop initializer condition increment body

/-- A return, of which the keyword has been read. -/
def returnStatement (keyword : Token) (expression : Reading Expr) : Reading Stmt := do
  let value ← unlessNext .semicolon expression
  let _ ← expect .semicolon .returnEnd
  return .returnValue keyword value

section

variable (limit : Limit)

mutual

/-- A declaration or a statement; `none` if it could not be read. -/
def declaration : Nat → Reading (Option Stmt)
  | 0 => throw .outOfRounds
  | rounds + 1 =>
    let block := block (declaration rounds) rounds
    recovering do
      if (← accept .kwClass).isSome then classDecl (routine limit block rounds .method) rounds
      else if (← accept .kwFun).isSome then .funDecl <$> routine limit block rounds .function
      else if (← accept .kwVar).isSome then varDecl (expression limit rounds)
      else statement rounds

/-- A statement that declares nothing. -/
def statement : Nat → Reading Stmt
  | 0 => throw .outOfRounds
  | rounds + 1 => do
    let expression := expression limit rounds
    if (← accept .kwFor).isSome then forStatement expression (statement rounds)
    else if (← accept .kwIf).isSome then ifStatement expression (statement rounds)
    else if (← accept .kwWhile).isSome then whileStatement expression (statement rounds)
    else match ← accept .kwReturn with
      | some keyword => returnStatement keyword expression
      | none =>
        if (← accept .leftBrace).isSome then .block <$> block (declaration rounds) rounds
        else expressionStatement expression

end

end

/-! ### Whole programs -/

/-- The rounds that are enough for a list of tokens: between two tokens that are taken, a reading
goes down at most four levels. -/
def roundsFor (tokens : List Token) : Nat :=
  4 * tokens.length + 8

/-- What reading a list of tokens gives. -/
structure Parsed (α : Type) where
  /-- What was read, or all faults that were met. -/
  result : Except (List Diagnostic) α
  /-- The number after the last one given to an expression. -/
  nextId : Nat

/-- What a reading gives from a place on; it succeeds only if nothing was recorded. -/
def Cursor.parse {α : Type} (s : Cursor) (p : Reading α) : Parsed α :=
  match p s with
  | .ok a s => ⟨if s.faults = [] then .ok a else .error s.faults, s.nextId⟩
  | .error (.fault d) s => ⟨.error (s.faults ++ [d]), s.nextId⟩
  | .error .outOfRounds s => ⟨.error s.faults, s.nextId⟩

/-- All declarations up to the end. -/
def program (limit : Limit) (rounds : Nat) : Reading Program := do
  return (← upTo (fun _ => false) (declaration limit rounds) rounds).reduceOption

/-- One expression, after which the list must end. -/
def loneExpression (limit : Limit) (rounds : Nat) : Reading Expr := do
  let e ← expression limit rounds
  match ← peek? with
  | some t => report t (.expected .expressionEnd)
  | none => pure ()
  return e

end Parser

open Lox.Parser in
/-- Reads a program; its expressions are numbered from `firstId` on. -/
def parseProgram (limit : Limit) (firstId : Nat) (tokens : List Token) : Parsed Program :=
  (Cursor.start firstId tokens).parse (program limit (roundsFor tokens))

open Lox.Parser in
/-- Reads a single expression; expressions are numbered from `firstId` on. -/
def parseExpression (limit : Limit) (firstId : Nat) (tokens : List Token) : Parsed Expr :=
  (Cursor.start firstId tokens).parse (loneExpression limit (roundsFor tokens))

end Lox
