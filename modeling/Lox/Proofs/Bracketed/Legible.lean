import Lox.Proofs.Bracketed.Trees
import Lox.Proofs.Bracketed.Words
import Lox.Proofs.Execution.Code
import Lox.Proofs.Grammar.Disciplined

/-!
Trees that can be read from their bracketed forms. `Legible` says of a tree that its tokens have the
kinds that the grammar gives them and texts of these kinds, that it has no strings, and that its
numbers are finite. All that is written with such tokens is legible (`Part.Written.legible`), and so is
all that stands in a legible tree.
-/

namespace Lox

open Grammar
open Nested (IsWord Worded WordedEach)

/-! ### Legible trees -/

/-- The constant is no string, and no number that is infinite or none. -/
def Literal.Legible : Literal → Prop
  | .nil | .boolean _ => True
  | .number value => Decimal.IsFinite value
  | .string _ => False

mutual

/-- The expression can be read from its bracketed form. -/
def Expr.Legible : Expr → Prop
  | .literal _ value => value.Legible
  | .unary _ operator right => (operator.Spelled ∧ IsSign operator.kind) ∧ right.Legible
  | .binary _ left operator right =>
    (operator.Spelled ∧ IsBinary operator.kind) ∧ left.Legible ∧ right.Legible
  | .logical _ left operator right =>
    (operator.Spelled ∧ IsLogical operator.kind) ∧ left.Legible ∧ right.Legible
  | .grouping _ inner => inner.Legible
  | .var _ name => name.Is .identifier
  | .assign _ name value => name.Is .identifier ∧ value.Legible
  | .call _ callee paren arguments =>
    paren.Is .rightParen ∧ callee.Legible ∧ Expr.LegibleEach arguments
  | .get _ object name => name.Is .identifier ∧ object.Legible
  | .set _ object name value => name.Is .identifier ∧ object.Legible ∧ value.Legible
  | .this _ keyword => keyword.Is .kwThis
  | .super _ keyword method => keyword.Is .kwSuper ∧ method.Is .identifier

/-- The expressions can be read from their bracketed forms. -/
def Expr.LegibleEach : List Expr → Prop
  | [] => True
  | e :: rest => e.Legible ∧ Expr.LegibleEach rest

end

/-- An expression that may be missing can be read from its bracketed form. -/
def Expr.LegibleOption : Option Expr → Prop
  | none => True
  | some e => e.Legible

/-- The superclass, if there is one, is a name. -/
def Expr.LegibleSuperclass : Option Expr → Prop
  | none => True
  | some e => ∃ id name, e = .var id name ∧ name.Is .identifier

mutual

/-- The statement can be read from its bracketed form. -/
def Stmt.Legible : Stmt → Prop
  | .expression value => value.Legible
  | .varDecl name initializer => name.Is .identifier ∧ Expr.LegibleOption initializer
  | .block body => Stmt.LegibleEach body
  | .ifThen condition thenBranch => condition.Legible ∧ thenBranch.Legible
  | .ifElse condition thenBranch elseBranch =>
    condition.Legible ∧ thenBranch.Legible ∧ elseBranch.Legible
  | .whileLoop condition body => condition.Legible ∧ body.Legible
  | .funDecl routine => routine.Legible
  | .returnValue keyword value => keyword.Is .kwReturn ∧ Expr.LegibleOption value
  | .classDecl name superclass methods =>
    name.Is .identifier ∧ Expr.LegibleSuperclass superclass ∧ Routine.LegibleEach methods

/-- The statements can be read from their bracketed forms. -/
def Stmt.LegibleEach : List Stmt → Prop
  | [] => True
  | s :: rest => s.Legible ∧ Stmt.LegibleEach rest

/-- The function can be read from its bracketed form. -/
def Routine.Legible : Routine → Prop
  | .mk name params body =>
    name.Is .identifier ∧ (∀ p ∈ params, p.Is .identifier) ∧ Stmt.LegibleEach body

/-- The methods can be read from their bracketed forms. -/
def Routine.LegibleEach : List Routine → Prop
  | [] => True
  | r :: rest => r.Legible ∧ Routine.LegibleEach rest

end

/-! ### Their words -/

theorem Literal.Legible.isWord : ∀ {value : Literal}, value.Legible → IsWord value.bracketed
  | .nil, _ | .boolean true, _ | .boolean false, _ => by decide
  | .number _, h => isWord_render h

theorem isWord_sign {t : Token} (h : t.Spelled ∧ IsSign t.kind) : IsWord t.lexeme := by
  refine isWord_of_lexeme h.1 ?_
  rcases h.2 with h | h <;> rw [h] <;> rfl

theorem isWord_logical {t : Token} (h : t.Spelled ∧ IsLogical t.kind) : IsWord t.lexeme := by
  refine isWord_of_lexeme h.1 ?_
  rcases h.2 with h | h <;> rw [h] <;> rfl

/-- Parentheses and strings join nothing in the way of a binary operator. -/
theorem isWord_binary {t : Token} (h : t.Spelled ∧ IsBinary t.kind) : IsWord t.lexeme := by
  refine isWord_of_lexeme h.1 ?_
  obtain ⟨-, hleast, hmost⟩ := h
  revert hleast hmost
  cases t.kind <;> simp [binding, Kind.hasDelimiters]

theorem Token.Is.isWord_identifier {name : Token} (h : name.Is .identifier) : IsWord name.lexeme :=
  h.isWord rfl

mutual

/-- The words of a legible expression are words. -/
theorem Expr.Legible.worded : ∀ {e : Expr}, e.Legible → e.nested.Worded
  | .literal _ _, h => Literal.Legible.isWord h
  | .unary _ _ _, ⟨hoperator, hright⟩ => ⟨isWord_sign hoperator, hright.worded, trivial⟩
  | .binary _ _ _ _, ⟨hoperator, hleft, hright⟩ =>
    ⟨isWord_binary hoperator, hleft.worded, hright.worded, trivial⟩
  | .logical _ _ _ _, ⟨hoperator, hleft, hright⟩ =>
    ⟨isWord_logical hoperator, hleft.worded, hright.worded, trivial⟩
  | .grouping _ inner, h => ⟨by decide, Expr.Legible.worded (e := inner) h, trivial⟩
  | .var _ _, h => Token.Is.isWord_identifier h
  | .assign _ _ _, ⟨hname, hvalue⟩ =>
    ⟨by decide, hname.isWord_identifier, hvalue.worded, trivial⟩
  | .call _ _ _ _, ⟨_, hcallee, harguments⟩ =>
    ⟨by decide, hcallee.worded, harguments.worded⟩
  | .get _ _ _, ⟨hname, hobject⟩ =>
    ⟨by decide, hobject.worded, hname.isWord_identifier, trivial⟩
  | .set _ _ _ _, ⟨hname, hobject, hvalue⟩ =>
    ⟨by decide,
      ⟨by decide, hobject.worded, hname.isWord_identifier, trivial⟩, hvalue.worded,
      trivial⟩
  | .this _ _, _ => (by decide : IsWord "this")
  | .super _ _ _, ⟨_, hmethod⟩ => ⟨by decide, hmethod.isWord_identifier, trivial⟩

theorem Expr.LegibleEach.worded : ∀ {es : List Expr}, Expr.LegibleEach es →
    WordedEach (Expr.nestedEach es)
  | [], _ => trivial
  | _ :: _, ⟨he, hrest⟩ => ⟨he.worded, hrest.worded⟩

end

theorem worded_params {params : List Token} (h : ∀ p ∈ params, p.Is .identifier) :
    WordedEach (params.map fun p => .word p.lexeme) := by
  induction params with
  | nil => trivial
  | cons p params ih =>
    obtain ⟨hp, hparams⟩ := List.forall_mem_cons.1 h
    exact ⟨hp.isWord_identifier, ih hparams⟩

mutual

/-- The words of a legible statement are words. -/
theorem Stmt.Legible.worded : ∀ {s : Stmt}, s.Legible → s.nested.Worded
  | .expression value, h => ⟨by decide, Expr.Legible.worded (e := value) h, trivial⟩
  | .varDecl _ (some _), ⟨hname, hvalue⟩ =>
    ⟨by decide, hname.isWord_identifier, Expr.Legible.worded hvalue, trivial⟩
  | .varDecl _ none, ⟨hname, _⟩ => ⟨by decide, hname.isWord_identifier, trivial⟩
  | .block body, h => ⟨by decide, @Stmt.LegibleEach.worded body h⟩
  | .ifThen _ _, ⟨hcondition, hthen⟩ =>
    ⟨by decide, hcondition.worded, hthen.worded, trivial⟩
  | .ifElse _ _ _, ⟨hcondition, hthen, helse⟩ =>
    ⟨by decide, hcondition.worded, hthen.worded, helse.worded, trivial⟩
  | .whileLoop _ _, ⟨hcondition, hbody⟩ =>
    ⟨by decide, hcondition.worded, hbody.worded, trivial⟩
  | .funDecl routine, h => Routine.Legible.worded (r := routine) h
  | .returnValue _ (some _), ⟨_, hvalue⟩ =>
    ⟨by decide, Expr.Legible.worded hvalue, trivial⟩
  | .returnValue _ none, _ => ⟨by decide, trivial⟩
  | .classDecl _ none _, ⟨hname, _, hmethods⟩ =>
    ⟨by decide, hname.isWord_identifier, hmethods.worded⟩
  | .classDecl _ (some _) _, ⟨hname, ⟨_, _, he, hancestor⟩, hmethods⟩ => by
    subst he
    exact ⟨by decide, hname.isWord_identifier, by decide,
      hancestor.isWord_identifier, hmethods.worded⟩

theorem Stmt.LegibleEach.worded : ∀ {body : List Stmt}, Stmt.LegibleEach body →
    WordedEach (Stmt.nestedEach body)
  | [], _ => trivial
  | _ :: _, ⟨hs, hrest⟩ => ⟨hs.worded, hrest.worded⟩

theorem Routine.Legible.worded : ∀ {r : Routine}, r.Legible → r.nested.Worded
  | .mk _ _ _, ⟨hname, hparams, hbody⟩ =>
    ⟨by decide, hname.isWord_identifier, worded_params hparams,
      ⟨by decide, hbody.worded⟩, trivial⟩

theorem Routine.LegibleEach.worded : ∀ {methods : List Routine}, Routine.LegibleEach methods →
    WordedEach (Routine.nestedEach methods)
  | [], _ => trivial
  | _ :: _, ⟨hr, hrest⟩ => ⟨hr.worded, hrest.worded⟩

end

/-! ### What stands in a legible tree -/

theorem Expr.LegibleEach.of_mem : ∀ {es : List Expr}, Expr.LegibleEach es → ∀ e ∈ es, e.Legible
  | [], _ => nofun
  | _ :: _, h => List.forall_mem_cons.2 ⟨h.1, h.2.of_mem⟩

theorem Stmt.LegibleEach.of_mem : ∀ {body : List Stmt}, Stmt.LegibleEach body →
    ∀ s ∈ body, s.Legible
  | [], _ => nofun
  | _ :: _, h => List.forall_mem_cons.2 ⟨h.1, h.2.of_mem⟩

theorem Routine.LegibleEach.of_mem : ∀ {methods : List Routine}, Routine.LegibleEach methods →
    ∀ r ∈ methods, r.Legible
  | [], _ => nofun
  | _ :: _, h => List.forall_mem_cons.2 ⟨h.1, h.2.of_mem⟩

theorem Expr.LegibleSuperclass.legible {e? : Option Expr} (h : Expr.LegibleSuperclass e?) :
    Expr.LegibleOption e? := by
  cases e? with
  | none => trivial
  | some e =>
    obtain ⟨_, _, rfl, hname⟩ := h
    exact hname

theorem Expr.LegibleOption.of_mem {e? : Option Expr} (h : Expr.LegibleOption e?) :
    ∀ e ∈ e?.toList, e.Legible := by
  cases e? with
  | none => exact nofun
  | some e => exact List.forall_mem_singleton.2 h

theorem Expr.Legible.inner {e : Expr} (h : e.Legible) : ∀ e' ∈ e.inner, e'.Legible := by
  cases e with
  | literal | var | this | super => exact nofun
  | grouping _ inner => exact List.forall_mem_singleton.2 h
  | unary | assign | get => exact List.forall_mem_singleton.2 h.2
  | binary | logical | set =>
    exact List.forall_mem_cons.2 ⟨h.2.1, List.forall_mem_singleton.2 h.2.2⟩
  | call => exact List.forall_mem_cons.2 ⟨h.2.1, h.2.2.of_mem⟩

theorem Stmt.Legible.evaluated {s : Stmt} (h : s.Legible) : ∀ e ∈ s.evaluated, e.Legible := by
  cases s with
  | expression value => exact List.forall_mem_singleton.2 h
  | ifThen | ifElse | whileLoop => exact List.forall_mem_singleton.2 h.1
  | varDecl | returnValue => exact Expr.LegibleOption.of_mem h.2
  | classDecl => exact Expr.LegibleOption.of_mem h.2.1.legible
  | block | funDecl => exact nofun

theorem Stmt.Legible.executed {s : Stmt} (h : s.Legible) : ∀ s' ∈ s.executed, s'.Legible := by
  cases s with
  | block body => exact Stmt.LegibleEach.of_mem h
  | ifThen | whileLoop => exact List.forall_mem_singleton.2 h.2
  | ifElse => exact List.forall_mem_cons.2 ⟨h.2.1, List.forall_mem_singleton.2 h.2.2⟩
  | expression | varDecl | funDecl | returnValue | classDecl => exact nofun

theorem Routine.Legible.body {r : Routine} (h : r.Legible) : ∀ s ∈ r.body, s.Legible := by
  cases r
  exact h.2.2.of_mem

/-! ### What is written with legible tokens -/

/-- The token has a text of its kind, and the constant that it may stand for can be read. -/
def Token.Legible (t : Token) : Prop :=
  t.Spelled ∧ ∀ value, literal? t.kind = some value → value.Legible

theorem Token.Legible.is {t : Token} (h : t.Legible) {k : Kind} (hk : t.kind = k) : t.Is k :=
  ⟨h.1, hk⟩

namespace Grammar

open Lox.Parser

variable {limit : Limit} {ts : List Token}

/-- The expressions in the phrase can be read from their bracketed forms. -/
def Phrase.Legible : Phrase → Prop
  | .expression e | .operation _ e | .call e => e.Legible
  | .entries es | .arguments es => Expr.LegibleEach es

theorem legible_make {i : Nat} {level : Level} (hlevel : levels[i]? = some level) (id : Nat)
    {left right : Expr} {operator : Token} (hoperator : operator.kind ∈ level.operators)
    (hspelled : operator.Spelled) (hleft : left.Legible) (hright : right.Legible) :
    (level.make id left operator right).Legible := by
  have hbinding := (mem_operators_iff hlevel).1 hoperator
  obtain rfl | rfl | rfl | rfl | rfl | rfl := level_cases hlevel
  all_goals
    cases hlevel
    simp_all [Expr.Legible, IsBinary, IsLogical]

/-- What is written with legible tokens can be read from its bracketed form. -/
theorem Phrase.Written.legible {ph : Phrase} (h : ph.Written limit ts)
    (hts : ∀ t ∈ ts, t.Legible) : ph.Legible := by
  induction h with
  | literal id hvalue => exact (hts _ List.mem_cons_self).2 _ hvalue
  | var id hname => exact (hts _ List.mem_cons_self).is hname
  | this id hkeyword => exact (hts _ List.mem_cons_self).is hkeyword
  | super id hkeyword _ hmethod =>
    simp only [List.forall_mem_cons] at hts
    exact ⟨hts.1.is hkeyword, hts.2.2.1.is hmethod⟩
  | grouping id _ _ _ ih =>
    simp only [List.forall_mem_cons, List.forall_mem_append] at hts
    exact ih hts.2.1
  | call id _ _ _ hparen ihcallee ihargs =>
    simp only [List.forall_mem_cons, List.forall_mem_append] at hts
    obtain ⟨hcallee, -, hargs, hlast, -⟩ := hts
    exact ⟨hlast.is hparen, ihcallee hcallee, ihargs hargs⟩
  | get id _ _ hname ih =>
    simp only [List.forall_mem_cons, List.forall_mem_append] at hts
    obtain ⟨hobject, -, hlast, -⟩ := hts
    exact ⟨hlast.is hname, ih hobject⟩
  | tightest _ ih | tighter _ _ ih | loosest _ ih | arguments _ _ ih => exact ih hts
  | unary id hsign _ ih =>
    rw [List.forall_mem_cons] at hts
    exact ⟨⟨hts.1.1, hsign⟩, ih hts.2⟩
  | joined id hlevel _ hoperator _ ihleft ihright =>
    simp only [List.forall_mem_cons, List.forall_mem_append] at hts
    obtain ⟨hleft, hmiddle, hright⟩ := hts
    exact legible_make hlevel id hoperator hmiddle.1 (ihleft hleft) (ihright hright)
  | assign id hname _ _ ih =>
    simp only [List.forall_mem_cons] at hts
    exact ⟨hts.1.is hname, ih hts.2.2⟩
  | set id _ _ hname _ _ ihobject ihvalue =>
    simp only [List.forall_mem_cons, List.forall_mem_append] at hts
    obtain ⟨hobject, -, hmiddle, -, hvalue⟩ := hts
    exact ⟨hmiddle.is hname, ihobject hobject, ihvalue hvalue⟩
  | entry _ ih => exact ⟨ih hts, trivial⟩
  | entries _ _ _ ih ihs =>
    simp only [List.forall_mem_cons, List.forall_mem_append] at hts
    exact ⟨ih hts.1, ihs hts.2.2⟩
  | noArguments => trivial

theorem legible_of_expression {e : Expr} (h : (Phrase.expression e).Written limit ts)
    (hts : ∀ t ∈ ts, t.Legible) : e.Legible :=
  h.legible hts

theorem Optional.legible {e? : Option Expr} (h : Optional limit e? ts)
    (hts : ∀ t ∈ ts, t.Legible) : Expr.LegibleOption e? := by
  cases h with
  | none => trivial
  | some h => exact h.legible hts

theorem Variable.legible {s : Stmt} (h : Variable limit s ts) (hts : ∀ t ∈ ts, t.Legible) :
    s.Legible := by
  cases h with
  | plain hname _ => exact ⟨(hts _ List.mem_cons_self).is hname, trivial⟩
  | initialized hname _ h _ =>
    simp only [List.forall_mem_cons, List.forall_mem_append] at hts
    exact ⟨hts.1.is hname, legible_of_expression h hts.2.2.1⟩

theorem Initializer.legible {s? : Option Stmt} (h : Initializer limit s? ts)
    (hts : ∀ t ∈ ts, t.Legible) : ∀ s ∈ s?, s.Legible := by
  rintro s ⟨⟩
  cases h with
  | declaring _ h => exact h.legible (List.forall_mem_cons.1 hts).2
  | evaluating h _ => exact legible_of_expression h (List.forall_mem_append.1 hts).1

theorem Ancestor.legible {superclass : Option Expr} (h : Ancestor superclass ts)
    (hts : ∀ t ∈ ts, t.Legible) : Expr.LegibleSuperclass superclass := by
  cases h with
  | none => trivial
  | some id _ hname => exact ⟨id, _, rfl, (hts _ (by simp)).is hname⟩

theorem legible_separated {params : List Token} (h : Separated (params.map fun p => [p]) ts)
    (hts : ∀ t ∈ ts, t.Legible) : ∀ p ∈ params, p.Legible := by
  induction params generalizing ts with
  | nil => exact nofun
  | cons p params ih =>
    rcases separated_cases h with ⟨rfl, rfl⟩ | ⟨comma, us, -, hus, rfl⟩
    · exact hts
    · simp only [List.forall_mem_cons] at hts ⊢
      exact ⟨hts.1, ih hus hts.2.2⟩

theorem Parameters.legible {params : List Token} (h : Parameters limit params ts)
    (hts : ∀ t ∈ ts, t.Legible) : ∀ p ∈ params, p.Is .identifier := by
  cases h with
  | none => exact nofun
  | some hnames hparts =>
    exact fun p hp => (legible_separated hparts hts p hp).is (hnames p hp)

/-- The loop that a `for` stands for can be read, if its clauses and its body can. -/
theorem legible_forLoop {s? : Option Stmt} {condition : Expr} {increment? : Option Expr} {s : Stmt}
    (hs? : ∀ s ∈ s?, s.Legible) (hcondition : condition.Legible)
    (hincrement : Expr.LegibleOption increment?) (hs : s.Legible) :
    (Parser.forLoop s? condition increment? s).Legible := by
  have hbody (e : Expr) (he : e.Legible) : (Stmt.block [s, .expression e]).Legible :=
    ⟨hs, he, trivial⟩
  cases s? with
  | none =>
    cases increment? with
    | none => exact ⟨hcondition, hs⟩
    | some e => exact ⟨hcondition, hbody e hincrement⟩
  | some s₀ =>
    cases increment? with
    | none => exact ⟨hs? s₀ rfl, ⟨hcondition, hs⟩, trivial⟩
    | some e => exact ⟨hs? s₀ rfl, ⟨hcondition, hbody e hincrement⟩, trivial⟩

/-- All of the part can be read from its bracketed form. -/
def Part.Legible : Part → Prop
  | .statement _ s | .declaration s => s.Legible
  | .declarations body => Stmt.LegibleEach body
  | .routine r => r.Legible
  | .routines rs => Routine.LegibleEach rs

/-- What is written with legible tokens can be read from its bracketed form. -/
theorem Part.Written.legible {part : Part} (h : part.Written limit ts)
    (hts : ∀ t ∈ ts, t.Legible) : part.Legible := by
  induction h with
  | expression h _ => exact legible_of_expression h (List.forall_mem_append.1 hts).1
  | block _ _ _ ih =>
    simp only [List.forall_mem_cons, List.forall_mem_append] at hts
    exact ih hts.2.1
  | ifThen _ _ hcondition _ _ ih =>
    simp only [List.forall_mem_cons, List.forall_mem_append] at hts
    obtain ⟨-, -, hc, -, hs⟩ := hts
    exact ⟨legible_of_expression hcondition hc, ih hs⟩
  | ifElse _ _ hcondition _ _ _ _ ih ih' =>
    simp only [List.forall_mem_cons, List.forall_mem_append] at hts
    obtain ⟨-, -, hc, -, hs, -, hs'⟩ := hts
    exact ⟨legible_of_expression hcondition hc, ih hs, ih' hs'⟩
  | whileLoop _ _ hcondition _ _ ih =>
    simp only [List.forall_mem_cons, List.forall_mem_append] at hts
    obtain ⟨-, -, hc, -, hs⟩ := hts
    exact ⟨legible_of_expression hcondition hc, ih hs⟩
  | forLoop id _ _ hs? hcondition _ hincrement _ _ ih =>
    simp only [List.forall_mem_cons, List.forall_mem_append] at hts
    obtain ⟨-, -, hinit, hc, -, hi, -, hs⟩ := hts
    refine legible_forLoop (hs?.legible hinit) ?_ (hincrement.legible hi) (ih hs)
    cases hcondition with
    | none => trivial
    | some h => exact legible_of_expression h hc
  | returnValue hkeyword hvalue _ =>
    simp only [List.forall_mem_cons, List.forall_mem_append] at hts
    exact ⟨hts.1.is hkeyword, hvalue.legible hts.2.1⟩
  | statement _ ih => exact ih hts
  | varDecl _ h => exact h.legible (List.forall_mem_cons.1 hts).2
  | funDecl _ _ ih => exact ih (List.forall_mem_cons.1 hts).2
  | classDecl _ hname hancestor _ _ _ ih =>
    simp only [List.forall_mem_cons, List.forall_mem_append] at hts
    obtain ⟨-, hn, ha, -, hrs, -⟩ := hts
    exact ⟨hn.is hname, hancestor.legible ha, ih hrs⟩
  | noDeclarations | noRoutines => trivial
  | declarations _ _ ih ih' | routines _ _ ih ih' =>
    rw [List.forall_mem_append] at hts
    exact ⟨ih hts.1, ih' hts.2⟩
  | routine hname _ hparams _ _ _ _ ih =>
    simp only [List.forall_mem_cons, List.forall_mem_append] at hts
    obtain ⟨hn, -, hps, -, -, hbody, -⟩ := hts
    exact ⟨hn.is hname, hparams.legible hps, ih hbody⟩

end Grammar

end Lox
