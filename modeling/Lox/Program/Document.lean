import Lox.Json
import Lox.Program.Basic

/-!
Programs as JSON documents. A variant with contents is an object with one field, named for the
variant; a variant without is its name.
-/

namespace Lox

/-- The document of a variant with contents. -/
def Json.variant (name : String) (contents : Json) : Json :=
  .object [(name, contents)]

/-- The document of something that may be missing. -/
def Json.ofOption : Option Json → Json
  | some d => d
  | none => .null

/-- The kind of a token as a document. -/
def Kind.document (k : Kind) : Json :=
  match k with
  | .string contents => .variant k.name (.string contents)
  | .number value => .variant k.name (.number value)
  | _ => .string k.name

/-- A token as a document. -/
def Token.document (t : Token) : Json :=
  .object [("token_type", t.kind.document), ("lexeme", .string t.lexeme), ("line", .natural t.line)]

/-- A constant as a document. -/
def Literal.document : Literal → Json
  | .nil => .string "Nil"
  | .boolean true => .string "True"
  | .boolean false => .string "False"
  | .number value => .variant "Number" (.number value)
  | .string contents => .variant "Str" (.string contents)

/-- The document of an expression: its number, and what it is. -/
def Json.node (id : Nat) (name : String) (contents : Json) : Json :=
  .object [("id", .natural id), ("kind", .variant name contents)]

mutual

/-- An expression as a document. -/
def Expr.document : Expr → Json
  | .literal id value => .node id "Literal" value.document
  | .unary id operator right =>
    .node id "Unary" (.object [("operator", operator.document), ("right", right.document)])
  | .binary id left operator right =>
    .node id "Binary" (.object
      [("left", left.document), ("operator", operator.document), ("right", right.document)])
  | .grouping id inner => .node id "Grouping" inner.document
  | .var id name => .node id "Variable" name.document
  | .assign id name value =>
    .node id "Assign" (.object [("name", name.document), ("value", value.document)])
  | .logical id left operator right =>
    .node id "Logical" (.object
      [("left", left.document), ("operator", operator.document), ("right", right.document)])
  | .call id callee paren arguments =>
    .node id "Call" (.object [("callee", callee.document), ("paren", paren.document),
      ("arguments", .array (Expr.documents arguments))])
  | .get id object name =>
    .node id "Get" (.object [("object", object.document), ("name", name.document)])
  | .set id object name value =>
    .node id "Set" (.object
      [("object", object.document), ("name", name.document), ("value", value.document)])
  | .this id keyword => .node id "This" keyword.document
  | .super id keyword method =>
    .node id "Super" (.object [("keyword", keyword.document), ("method", method.document)])

/-- Expressions as documents. -/
def Expr.documents : List Expr → List Json
  | [] => []
  | e :: rest => e.document :: Expr.documents rest

end

/-- An expression that may be missing as a document. -/
def Expr.optionDocument (e : Option Expr) : Json :=
  .ofOption (e.map Expr.document)

mutual

/-- A statement as a document. -/
def Stmt.document : Stmt → Json
  | .expression value => .variant "Expression" value.document
  | .varDecl name initializer =>
    .variant "Var" (.object
      [("name", name.document), ("initializer", Expr.optionDocument initializer)])
  | .block body => .variant "Block" (.array (Stmt.documents body))
  | .ifThen condition thenBranch =>
    .variant "If" (.object [("condition", condition.document),
      ("then_branch", thenBranch.document), ("else_branch", .null)])
  | .ifElse condition thenBranch elseBranch =>
    .variant "If" (.object [("condition", condition.document),
      ("then_branch", thenBranch.document), ("else_branch", elseBranch.document)])
  | .whileLoop condition body =>
    .variant "While" (.object [("condition", condition.document), ("body", body.document)])
  | .funDecl routine => .variant "Function" routine.document
  | .returnValue keyword value =>
    .variant "Return" (.object
      [("keyword", keyword.document), ("value", Expr.optionDocument value)])
  | .classDecl name superclass methods =>
    .variant "Class" (.object [("name", name.document),
      ("superclass", Expr.optionDocument superclass),
      ("methods", .array (Routine.documents methods))])

/-- Statements as documents. -/
def Stmt.documents : List Stmt → List Json
  | [] => []
  | s :: rest => s.document :: Stmt.documents rest

/-- A function as a document. -/
def Routine.document : Routine → Json
  | .mk name params body =>
    .object [("name", name.document), ("params", .array (params.map Token.document)),
      ("body", .array (Stmt.documents body))]

/-- Functions as documents. -/
def Routine.documents : List Routine → List Json
  | [] => []
  | r :: rest => r.document :: Routine.documents rest

end

end Lox
