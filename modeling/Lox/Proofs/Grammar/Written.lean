import Lox.Proofs.Grammar.Precedence
import Lox.Proofs.Grammar.Rules

/-!
How trees are written. `Phrase.Written` says that a list of tokens is a way to write an expression at
a level of precedence, and `Part.Written` says it of statements and of what they are made of; the
numbers of the expressions may be any. An `else` belongs to the nearest choice that can take it: a
statement is marked as open if it takes an `else` that follows it, and only one that is not open may
stand before an `else`.
-/

namespace Lox

namespace Grammar

open Lox.Parser

/-! ### Expressions -/

/-- What expressions are made of. -/
inductive Phrase where
  /-- An expression of any level. -/
  | expression (e : Expr)
  /-- An operation of `levels.drop i`, or something tighter. -/
  | operation (i : Nat) (e : Expr)
  /-- A call, a property, or what may stand before either. -/
  | call (e : Expr)
  /-- Expressions, one or more, with commas between. -/
  | entries (es : List Expr)
  /-- What stands between the parentheses of a call. -/
  | arguments (es : List Expr)

/-- The tokens are a way to write the phrase. -/
inductive Phrase.Written (limit : Limit) : Phrase → List Token → Prop where
  | literal (id : Nat) {t : Token} {value : Literal} :
    literal? t.kind = some value → Written limit (.call (.literal id value)) [t]
  | var (id : Nat) {name : Token} :
    name.kind = .identifier → Written limit (.call (.var id name)) [name]
  | this (id : Nat) {keyword : Token} :
    keyword.kind = .kwThis → Written limit (.call (.this id keyword)) [keyword]
  | super (id : Nat) {keyword dot method : Token} :
    keyword.kind = .kwSuper → dot.kind = .dot → method.kind = .identifier →
      Written limit (.call (.super id keyword method)) [keyword, dot, method]
  | grouping (id : Nat) {inner : Expr} {ts : List Token} {left right : Token} :
    left.kind = .leftParen → Written limit (.expression inner) ts → right.kind = .rightParen →
      Written limit (.call (.grouping id inner)) (left :: (ts ++ [right]))
  | call (id : Nat) {callee : Expr} {args : List Expr} {ts us : List Token} {left paren : Token} :
    Written limit (.call callee) ts → left.kind = .leftParen → Written limit (.arguments args) us →
      paren.kind = .rightParen →
      Written limit (.call (.call id callee paren args)) (ts ++ left :: (us ++ [paren]))
  | get (id : Nat) {object : Expr} {ts : List Token} {dot name : Token} :
    Written limit (.call object) ts → dot.kind = .dot → name.kind = .identifier →
      Written limit (.call (.get id object name)) (ts ++ [dot, name])
  | tightest {e : Expr} {ts : List Token} :
    Written limit (.call e) ts → Written limit (.operation levels.length e) ts
  | unary (id : Nat) {operator : Token} {right : Expr} {ts : List Token} :
    IsSign operator.kind → Written limit (.operation levels.length right) ts →
      Written limit (.operation levels.length (.unary id operator right)) (operator :: ts)
  | tighter {i : Nat} {e : Expr} {ts : List Token} :
    i < levels.length → Written limit (.operation (i + 1) e) ts → Written limit (.operation i e) ts
  | joined (id : Nat) {i : Nat} {level : Level} {left right : Expr} {operator : Token}
      {ts us : List Token} :
    levels[i]? = some level → Written limit (.operation i left) ts →
      operator.kind ∈ level.operators → Written limit (.operation (i + 1) right) us →
      Written limit (.operation i (level.make id left operator right)) (ts ++ operator :: us)
  | loosest {e : Expr} {ts : List Token} :
    Written limit (.operation 0 e) ts → Written limit (.expression e) ts
  | assign (id : Nat) {name equals : Token} {value : Expr} {ts : List Token} :
    name.kind = .identifier → equals.kind = .equal → Written limit (.expression value) ts →
      Written limit (.expression (.assign id name value)) (name :: equals :: ts)
  | set (id : Nat) {object value : Expr} {dot name equals : Token} {ts us : List Token} :
    Written limit (.call object) ts → dot.kind = .dot → name.kind = .identifier →
      equals.kind = .equal → Written limit (.expression value) us →
      Written limit (.expression (.set id object name value)) (ts ++ dot :: name :: equals :: us)
  | entry {e : Expr} {ts : List Token} :
    Written limit (.expression e) ts → Written limit (.entries [e]) ts
  | entries {e : Expr} {es : List Expr} {comma : Token} {ts us : List Token} :
    Written limit (.expression e) ts → comma.kind = .comma → Written limit (.entries es) us →
      Written limit (.entries (e :: es)) (ts ++ comma :: us)
  | noArguments : Written limit (.arguments []) []
  | arguments {es : List Expr} {ts : List Token} :
    Written limit (.entries es) ts → limit.Allows es.length → Written limit (.arguments es) ts

/-- How tight the expression of a phrase is at least. -/
def Phrase.Tight : Phrase → Prop
  | .operation i e => i + 2 ≤ tightness e
  | .call e => tightness e = 9
  | .expression _ | .entries _ | .arguments _ => True

theorem Phrase.Written.tight {limit : Limit} {ph : Phrase} {ts : List Token}
    (h : ph.Written limit ts) : ph.Tight := by
  induction h with
  | tightest _ ih =>
    show levels.length + 2 ≤ tightness _
    rw [ih]
    decide
  | unary => exact Nat.le_refl 8
  | tighter _ _ ih => exact Nat.le_of_succ_le ih
  | joined id hlevel _ hoperator _ _ _ =>
    have hbinding := (mem_operators_iff hlevel).1 hoperator
    exact Nat.le_of_eq ((tightness_make hlevel ..).trans hbinding).symm
  | literal | var | this | super | grouping | call | get => rfl
  | loosest | assign | set | entry | entries | noArguments | arguments => trivial

/-- Something of at least that level. -/
theorem Phrase.Written.of_operation {limit : Limit} {e : Expr} {i j : Nat} {ts : List Token}
    (h : (Phrase.operation j e).Written limit ts) (hle : i ≤ j) (hj : j ≤ levels.length) :
    (Phrase.operation i e).Written limit ts := by
  induction hle with
  | refl => exact h
  | step hle ih => exact ih (.tighter hj h) (Nat.le_of_succ_le hj)

theorem Phrase.Written.operation_of_call {limit : Limit} {e : Expr} {i : Nat} {ts : List Token}
    (h : (Phrase.call e).Written limit ts) (hi : i ≤ levels.length) :
    (Phrase.operation i e).Written limit ts :=
  (Written.tightest h).of_operation hi (Nat.le_refl _)

/-- What is as tight as a call is one also where an operation may stand. -/
theorem Phrase.Written.call_of_operation {limit : Limit} {e : Expr} {i : Nat} {ts : List Token}
    (h : (Phrase.operation i e).Written limit ts) (he : tightness e = 9) :
    (Phrase.call e).Written limit ts := by
  generalize hph : Phrase.operation i e = ph at h
  induction h generalizing i with
  | tightest h =>
    cases hph
    exact h
  | tighter _ _ ih =>
    cases hph
    exact ih rfl
  | unary =>
    cases hph
    cases he
  | joined id hlevel _ hoperator _ _ _ =>
    cases hph
    rw [tightness_make hlevel, (mem_operators_iff hlevel).1 hoperator] at he
    have hi := lt_of_level hlevel
    simp only [levels, List.length_cons, List.length_nil] at hi
    omega
  | _ => cases hph

/-- The tokens are a way to write an expression that may be missing. -/
inductive Optional (limit : Limit) : Option Expr → List Token → Prop where
  | none : Optional limit none []
  | some {e : Expr} {ts : List Token} :
    (Phrase.expression e).Written limit ts → Optional limit (some e) ts

/-! ### Statements -/

/-- The superclass of a class, with the colon before it. -/
inductive Ancestor : Option Expr → List Token → Prop where
  | none : Ancestor none []
  | some (id : Nat) {colon name : Token} :
    colon.kind = .colon → name.kind = .identifier → Ancestor (some (.var id name)) [colon, name]

/-- What stands between the parentheses of a function. -/
inductive Parameters (limit : Limit) : List Token → List Token → Prop where
  | none : Parameters limit [] []
  | some {params ts : List Token} :
    (∀ p ∈ params, p.kind = .identifier) → Separated (params.map fun p => [p]) ts →
      limit.Allows params.length → Parameters limit params ts

/-- Names with commas between: one, or one and then more. -/
theorem separated_cases {p : Token} {params ts : List Token}
    (h : Separated ((p :: params).map fun p => [p]) ts) :
    (params = [] ∧ ts = [p]) ∨ ∃ comma us, comma.kind = .comma
      ∧ Separated (params.map fun p => [p]) us ∧ ts = p :: comma :: us := by
  generalize hparts : (p :: params).map (fun p => [p]) = parts at h
  cases h with
  | one ts =>
    obtain ⟨rfl, hparams⟩ := List.cons.inj hparts
    exact .inl ⟨List.map_eq_nil_iff.1 hparams, rfl⟩
  | more hcomma hus =>
    obtain ⟨rfl, rfl⟩ := List.cons.inj hparts
    exact .inr ⟨_, _, hcomma, hus, rfl⟩

/-- The declaration of a variable, from its name on. -/
inductive Variable (limit : Limit) : Stmt → List Token → Prop where
  | plain {name semicolon : Token} :
    name.kind = .identifier → semicolon.kind = .semicolon →
      Variable limit (.varDecl name none) [name, semicolon]
  | initialized {name equals semicolon : Token} {e : Expr} {ts : List Token} :
    name.kind = .identifier → equals.kind = .equal → (Phrase.expression e).Written limit ts →
      semicolon.kind = .semicolon →
      Variable limit (.varDecl name (some e)) (name :: equals :: (ts ++ [semicolon]))

/-- The first clause of a `for`. -/
inductive Initializer (limit : Limit) : Option Stmt → List Token → Prop where
  | none {semicolon : Token} : semicolon.kind = .semicolon → Initializer limit none [semicolon]
  | declaring {var : Token} {s : Stmt} {ts : List Token} :
    var.kind = .kwVar → Variable limit s ts → Initializer limit (some s) (var :: ts)
  | evaluating {e : Expr} {semicolon : Token} {ts : List Token} :
    (Phrase.expression e).Written limit ts → semicolon.kind = .semicolon →
      Initializer limit (some (.expression e)) (ts ++ [semicolon])

/-- What programs are made of. -/
inductive Part where
  /-- A statement that declares nothing; `isOpen` says that it takes an `else` that follows it. -/
  | statement (isOpen : Bool) (s : Stmt)
  | declaration (s : Stmt)
  | declarations (body : List Stmt)
  /-- A function or method from its name on. -/
  | routine (r : Routine)
  | routines (rs : List Routine)

/-- The tokens are a way to write the part. -/
inductive Part.Written (limit : Limit) : Part → List Token → Prop where
  | expression {e : Expr} {semicolon : Token} {ts : List Token} :
    (Phrase.expression e).Written limit ts → semicolon.kind = .semicolon →
      Written limit (.statement false (.expression e)) (ts ++ [semicolon])
  | block {left right : Token} {body : List Stmt} {ts : List Token} :
    left.kind = .leftBrace → Written limit (.declarations body) ts → right.kind = .rightBrace →
      Written limit (.statement false (.block body)) (left :: (ts ++ [right]))
  | ifThen {o : Bool} {keyword left right : Token} {condition : Expr} {s : Stmt}
      {ts us : List Token} :
    keyword.kind = .kwIf → left.kind = .leftParen → (Phrase.expression condition).Written limit ts →
      right.kind = .rightParen → Written limit (.statement o s) us →
      Written limit (.statement true (.ifThen condition s)) (keyword :: left :: (ts ++ right :: us))
  | ifElse {o : Bool} {keyword left right other : Token} {condition : Expr} {s s' : Stmt}
      {ts us vs : List Token} :
    keyword.kind = .kwIf → left.kind = .leftParen → (Phrase.expression condition).Written limit ts →
      right.kind = .rightParen → Written limit (.statement false s) us → other.kind = .kwElse →
      Written limit (.statement o s') vs →
      Written limit (.statement o (.ifElse condition s s'))
        (keyword :: left :: (ts ++ right :: (us ++ other :: vs)))
  | whileLoop {o : Bool} {keyword left right : Token} {condition : Expr} {s : Stmt}
      {ts us : List Token} :
    keyword.kind = .kwWhile → left.kind = .leftParen →
      (Phrase.expression condition).Written limit ts → right.kind = .rightParen →
      Written limit (.statement o s) us →
      Written limit (.statement o (.whileLoop condition s))
        (keyword :: left :: (ts ++ right :: us))
  | forLoop (id : Nat) {o : Bool} {keyword left semicolon right : Token} {s? : Option Stmt}
      {condition? increment? : Option Expr} {s : Stmt} {ts us vs ws : List Token} :
    keyword.kind = .kwFor → left.kind = .leftParen → Initializer limit s? ts →
      Optional limit condition? us → semicolon.kind = .semicolon → Optional limit increment? vs →
      right.kind = .rightParen → Written limit (.statement o s) ws →
      Written limit
        (.statement o
          (Parser.forLoop s? (condition?.getD (.literal id (.boolean true))) increment? s))
        (keyword :: left :: (ts ++ (us ++ semicolon :: (vs ++ right :: ws))))
  | returnValue {keyword semicolon : Token} {value? : Option Expr} {ts : List Token} :
    keyword.kind = .kwReturn → Optional limit value? ts → semicolon.kind = .semicolon →
      Written limit (.statement false (.returnValue keyword value?))
        (keyword :: (ts ++ [semicolon]))
  | statement {o : Bool} {s : Stmt} {ts : List Token} :
    Written limit (.statement o s) ts → Written limit (.declaration s) ts
  | varDecl {var : Token} {s : Stmt} {ts : List Token} :
    var.kind = .kwVar → Variable limit s ts → Written limit (.declaration s) (var :: ts)
  | funDecl {keyword : Token} {r : Routine} {ts : List Token} :
    keyword.kind = .kwFun → Written limit (.routine r) ts →
      Written limit (.declaration (.funDecl r)) (keyword :: ts)
  | classDecl {keyword name left right : Token} {superclass : Option Expr} {rs : List Routine}
      {ts us : List Token} :
    keyword.kind = .kwClass → name.kind = .identifier → Ancestor superclass ts →
      left.kind = .leftBrace → Written limit (.routines rs) us → right.kind = .rightBrace →
      Written limit (.declaration (.classDecl name superclass rs))
        (keyword :: name :: (ts ++ left :: (us ++ [right])))
  | noDeclarations : Written limit (.declarations []) []
  | declarations {s : Stmt} {body : List Stmt} {ts us : List Token} :
    Written limit (.declaration s) ts → Written limit (.declarations body) us →
      Written limit (.declarations (s :: body)) (ts ++ us)
  | routine {name left right opening closing : Token} {params : List Token} {body : List Stmt}
      {ts us : List Token} :
    name.kind = .identifier → left.kind = .leftParen → Parameters limit params ts →
      right.kind = .rightParen → opening.kind = .leftBrace → Written limit (.declarations body) us →
      closing.kind = .rightBrace →
      Written limit (.routine (.mk name params body))
        (name :: left :: (ts ++ right :: opening :: (us ++ [closing])))
  | noRoutines : Written limit (.routines []) []
  | routines {r : Routine} {rs : List Routine} {ts us : List Token} :
    Written limit (.routine r) ts → Written limit (.routines rs) us →
      Written limit (.routines (r :: rs)) (ts ++ us)

end Grammar

end Lox
