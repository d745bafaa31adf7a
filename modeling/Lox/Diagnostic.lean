import Lox.Token

/-!
Diagnostics: what can be wrong with a program or with a run of it. Each cause is a constructor,
and its wording is said once, in the `message` of its type. A diagnostic also holds the place it
points at: a line, or a token of the program.
-/

namespace Lox

/-! ### Causes -/

/-- What can be wrong with the characters of a program. -/
inductive LexicalFault where
  | unexpectedCharacter (c : Char)
  | unterminatedString
  deriving DecidableEq, Repr

def LexicalFault.message : LexicalFault → String
  | .unexpectedCharacter c => s!"Unexpected character: {c}"
  | .unterminatedString => "Unterminated string."

/-- The two kinds of function that have a name. -/
inductive RoutineKind where
  | function
  | method
  deriving DecidableEq, Repr

def RoutineKind.noun : RoutineKind → String
  | .function => "function"
  | .method => "method"

/-- The lists whose length is limited. -/
inductive Listing where
  | parameters
  | arguments
  deriving DecidableEq, Repr

def Listing.noun : Listing → String
  | .parameters => "parameters"
  | .arguments => "arguments"

/-- What the grammar asks for at one place. -/
inductive Expectation where
  | className
  | superclassName
  | classBodyStart
  | classBodyEnd
  | routineName (kind : RoutineKind)
  | parametersStart (kind : RoutineKind)
  | parameterName
  | parametersEnd
  | bodyStart (kind : RoutineKind)
  | variableName
  | variableEnd
  | forStart
  | forConditionEnd
  | forClausesEnd
  | statementEnd
  | ifStart
  | whileStart
  | conditionEnd
  | returnEnd
  | blockEnd
  | propertyName
  | argumentsEnd
  | superDot
  | superMethodName
  | groupEnd
  | expression
  | expressionEnd
  deriving DecidableEq, Repr

def Expectation.noun : Expectation → String
  | .className => "class name"
  | .superclassName => "superclass name"
  | .classBodyStart => "'\x7b' before class body"
  | .classBodyEnd => "'\x7d' after class body"
  | .routineName kind => kind.noun ++ " name"
  | .parametersStart kind => "'(' after " ++ kind.noun ++ " name"
  | .parameterName => "parameter name"
  | .parametersEnd => "')' after parameters"
  | .bodyStart kind => "'\x7b' before " ++ kind.noun ++ " body"
  | .variableName => "variable name"
  | .variableEnd => "';' after variable declaration"
  | .forStart => "'(' after 'for'"
  | .forConditionEnd => "';' after loop condition"
  | .forClausesEnd => "')' after for clauses"
  | .statementEnd => "';' after expression"
  | .ifStart => "'(' after 'if'"
  | .whileStart => "'(' after 'while'"
  | .conditionEnd => "')' after condition"
  | .returnEnd => "';' after return value"
  | .blockEnd => "'\x7d' after block"
  | .propertyName => "property name after '.'"
  | .argumentsEnd => "')' after arguments"
  | .superDot => "'.' after 'super'"
  | .superMethodName => "superclass method name"
  | .groupEnd => "')' after expression"
  | .expression => "expression"
  | .expressionEnd => "end of expression"

/-- What can be wrong with the tokens of a program. -/
inductive GrammarFault where
  | expected (what : Expectation)
  | invalidAssignmentTarget
  /-- One list entry more than the limit allows. -/
  | overLimit (limit : Nat) (what : Listing)
  deriving DecidableEq, Repr

def GrammarFault.message : GrammarFault → String
  | .expected what => "Expected " ++ what.noun ++ "."
  | .invalidAssignmentTarget => "Invalid assignment target."
  | .overLimit limit what => s!"Can't have more than {limit} {what.noun}."

/-- What can be wrong with the names, classes and returns of a program. -/
inductive StaticFault where
  | alreadyDeclared
  | readInOwnInitializer
  | returnAtTopLevel
  | returnValueFromInitializer
  | inheritsFromItself
  | thisOutsideClass
  | superOutsideClass
  | superWithoutSuperclass
  deriving DecidableEq, Repr

def StaticFault.message : StaticFault → String
  | .alreadyDeclared => "Already a variable with this name in this scope."
  | .readInOwnInitializer => "Can't read local variable in its own initializer."
  | .returnAtTopLevel => "Can't return from top-level code."
  | .returnValueFromInitializer => "Can't return a value from an initializer."
  | .inheritsFromItself => "A class can't inherit from itself."
  | .thisOutsideClass => "Can't use 'this' outside of a class."
  | .superOutsideClass => "Can't use 'super' outside of a class."
  | .superWithoutSuperclass => "Can't use 'super' in a class with no superclass."

/-- Why output could not be written. -/
inductive OutputFault where
  /-- The output took only a part of what was written. -/
  | full
  /-- The output could not be flushed. -/
  | flushFailed
  /-- A fault that the output has a text of its own for. -/
  | other (message : String)
  deriving DecidableEq, Repr

def OutputFault.message : OutputFault → String
  | .full => "failed to write whole buffer"
  | .flushFailed => "flush failed"
  | .other message => message

/-- What can go wrong while a program runs. -/
inductive RuntimeFault where
  | undefinedVariable (name : String)
  | undefinedProperty (name : String)
  | operandNotNumber
  | operandsNotNumbers
  | operandsNotAddable
  | invalidUnaryOperator (lexeme : String)
  | invalidBinaryOperator (lexeme : String)
  | notCallable
  | wrongArgumentCount (expected got : Nat)
  | notAnObject
  | superclassNotAClass
  | superOutsideSubclass
  | scopeChainTooShort
  | notANumeral (text : String)
  | numeralNotAString (typeName : String)
  | unreadableInput
  | unwritableOutput (cause : OutputFault)
  deriving DecidableEq, Repr

def RuntimeFault.message : RuntimeFault → String
  | .undefinedVariable name => s!"Undefined variable '{name}'."
  | .undefinedProperty name => s!"Undefined property '{name}'."
  | .operandNotNumber => "Operand must be a number."
  | .operandsNotNumbers => "Operands must be numbers."
  | .operandsNotAddable => "Operands must be two numbers or two strings."
  | .invalidUnaryOperator lexeme => s!"Invalid unary operator '{lexeme}'."
  | .invalidBinaryOperator lexeme => s!"Invalid binary operator '{lexeme}'."
  | .notCallable => "Can only call functions and classes."
  | .wrongArgumentCount expected got => s!"Expected {expected} arguments but got {got}."
  | .notAnObject => "Not an object."
  | .superclassNotAClass => "Superclass must be a class."
  | .superOutsideSubclass => "Can't use 'super' outside of a subclass."
  | .scopeChainTooShort => "Scope chain is shorter than the resolved distance."
  | .notANumeral text => s!"Cannot parse '{text}' as a number."
  | .numeralNotAString typeName => s!"parseNum expects a string but got a {typeName}."
  | .unreadableInput => "Could not read input: stream did not contain valid UTF-8"
  | .unwritableOutput cause => "Could not write output: " ++ cause.message

/-! ### Diagnostics -/

/-- A fault with the place it points at. -/
inductive Diagnostic where
  | lexical (line : Nat) (fault : LexicalFault)
  | grammar (token : Token) (fault : GrammarFault)
  | static (token : Token) (fault : StaticFault)
  | runtime (line : Nat) (fault : RuntimeFault)
  /-- The output failed when the program had ended. -/
  | output (fault : OutputFault)
  deriving DecidableEq

/-- A token as a place in the program. -/
def Token.place (t : Token) : String :=
  if t.kind = .eof then " at end" else s!" at '{t.lexeme}'"

namespace Diagnostic

/-- The line that a diagnostic points at. -/
def line? : Diagnostic → Option Nat
  | .lexical line _ => some line
  | .grammar token _ => some token.line
  | .static token _ => some token.line
  | .runtime line _ => some line
  | .output _ => none

/-- The stages of a run, in their order. -/
inductive Stage where
  | lexing
  | parsing
  | scoping
  | execution
  deriving DecidableEq, Repr

/-- The stage that found the fault. The output is flushed at the end of the execution. -/
def stage : Diagnostic → Stage
  | .lexical _ _ => .lexing
  | .grammar _ _ => .parsing
  | .static _ _ => .scoping
  | .runtime _ _ | .output _ => .execution

/-- The fault was found before the program was executed. -/
def isEarly : Diagnostic → Bool
  | .lexical _ _ | .grammar _ _ | .static _ _ => true
  | _ => false

theorem isEarly_iff {d : Diagnostic} : d.isEarly = true ↔ d.stage ≠ .execution := by
  cases d <;> simp [isEarly, stage]

/-- The program was running when the fault occurred. -/
def isRuntime : Diagnostic → Bool
  | .runtime _ _ => true
  | _ => false

/-- The text of a diagnostic. -/
def text : Diagnostic → String
  | .lexical line fault => s!"[line {line}] Error: {fault.message}"
  | .grammar token fault => s!"[line {token.line}] Error{token.place}: {fault.message}"
  | .static token fault => s!"[line {token.line}] Error{token.place}: {fault.message}"
  | .runtime line fault => s!"{fault.message}\n[line {line}]"
  | .output fault => "I/O error: " ++ fault.message

end Diagnostic

end Lox
