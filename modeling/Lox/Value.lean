import Lox.Bindings
import Lox.Program.Basic
import Lox.Text.Quoted

/-!
Values of a running program. Numbers, texts and truth values are compared by what they are;
functions, classes and objects have an identity and are compared by it. A value is shown as the
text that a program prints for it.

A function keeps the environment it was declared in. Nothing here looks into it, so that its type
`E` is left open; it is `Environment` where nothing else is said.
-/

namespace Lox

/-- The place of a scope in the store. -/
abbrev ScopeId := Nat

/-- The scopes that a part of a running program sees, the innermost first. -/
abbrev Environment := List ScopeId

/-- The functions that every program finds in its globals. -/
inductive Native where
  | clock
  | print
  | println
  | readln
  | parseNum
  deriving DecidableEq, Repr

namespace Native

/-- All native functions, in the order in which they are bound. -/
def all : List Native :=
  [.clock, .print, .println, .readln, .parseNum]

def name : Native → String
  | .clock => "clock"
  | .print => "print"
  | .println => "println"
  | .readln => "readln"
  | .parseNum => "parseNum"

/-- The number of arguments of a call. -/
def arity : Native → Nat
  | .clock | .readln => 0
  | .print | .println | .parseNum => 1

end Native

/-- A function or method with the environment it was declared in. -/
structure Closure (E : Type := Environment) where
  routine : Routine
  environment : E
  /-- A call gives the object that is set up, whatever the body returns. -/
  isInitializer : Bool

section

variable {E : Type}

def Closure.name (c : Closure E) : String :=
  c.routine.name.lexeme

def Closure.arity (c : Closure E) : Nat :=
  c.routine.params.length

end

/-- A class: its name, and the methods declared in it and in each class it descends from, its own
methods first. -/
structure Class (E : Type := Environment) where
  name : String
  layers : List (Bindings (Closure E))

namespace Class

variable {E : Type}

/-- The method of that name which is declared nearest to the class. -/
def method? (c : Class E) (name : String) : Option (Closure E) :=
  c.layers.findSome? (·.get? name)

/-- The method that sets up new instances. -/
def initializer? (c : Class E) : Option (Closure E) :=
  c.method? Routine.initializerName

/-- The number of arguments that make an instance. -/
def arity (c : Class E) : Nat :=
  (c.initializer?.map Closure.arity).getD 0

end Class

/-- A value of a running program. -/
inductive Value (E : Type := Environment) where
  | nil
  | boolean (value : Bool)
  | number (value : Float)
  | string (text : String)
  | native (host : Native)
  | function (id : Nat) (closure : Closure E)
  | classOf (id : Nat) (description : Class E)
  /-- The object with this place in the store, an instance of a class. -/
  | object (id : Nat) (description : Class E)

instance {E : Type} : Inhabited (Value E) := ⟨.nil⟩

namespace Value

variable {E : Type}

/-- The value of a constant. -/
def ofLiteral : Literal → Value E
  | .nil => nil
  | .boolean value => boolean value
  | .number value => number value
  | .string contents => string contents

/-- Everything counts as true but `nil` and `false`. -/
def isTruthy : Value E → Bool
  | nil | boolean false => false
  | _ => true

/-- The name of a value's type. -/
def typeName : Value E → String
  | nil => "nil"
  | boolean _ => "boolean"
  | number _ => "number"
  | string _ => "string"
  | native _ | function _ _ => "function"
  | classOf _ _ => "class"
  | object _ _ => "instance"

/-- The number of arguments with which a value is called, if it can be called. -/
def arity? : Value E → Option Nat
  | native host => some host.arity
  | function _ closure => some closure.arity
  | classOf _ description => some description.arity
  | _ => none

/-- The two values are equal; values of different types never are, nor is a number that is not one
equal to itself. -/
def equals : Value E → Value E → Bool
  | nil, nil => true
  | boolean a, boolean b => a == b
  | number a, number b => a == b
  | string a, string b => a == b
  | native a, native b => a == b
  | function a _, function b _ => a == b
  | classOf a _, classOf b _ => a == b
  | object a _, object b _ => a == b
  | _, _ => false

/-- The text that a program prints for a value. -/
def display : Value E → String
  | nil => "nil"
  | boolean true => "true"
  | boolean false => "false"
  | number value => Decimal.plain.render value
  | string text => text
  | native host => "<native fn " ++ host.name ++ ">"
  | function _ closure => "<fn " ++ closure.name ++ ">"
  | classOf _ description => description.name
  | object _ description => description.name ++ " instance"

/-- The text of a value for an inspection, where a string is told apart from other values. -/
def inspect : Value E → String
  | string text => Text.quote text
  | value => value.display

/-- What a value with an identity is, between angle brackets. -/
def tag? : Value E → Option String
  | native host => some ("<native fn " ++ host.name ++ ">")
  | function _ closure => some ("<fn " ++ closure.name ++ ">")
  | classOf _ description => some ("<class " ++ description.name ++ ">")
  | object _ description => some ("<" ++ description.name ++ " instance>")
  | _ => none

end Value

end Lox
