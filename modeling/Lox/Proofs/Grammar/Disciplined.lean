import Lox.Proofs.Grammar.Written
import Lox.Proofs.Tree.Leaves
import Lox.Proofs.Tree.Proper

/-!
The trees that keep to precedence. `Expr.Disciplined` and `Stmt.Disciplined` say that operands are
joined tightly enough for their operators, that an `else` belongs to the nearest choice that can take
it, and that nodes keep tokens of their own kinds; else a variable could keep the word `this`, and have
the leaves of another tree. Tokens without a `for` that are a way to write a tree stand for its leaves,
and the tree is disciplined (`Phrase.Written.faithful`, `Part.Written.faithful`); a `for` is not put
back from the loop it stands for.
-/

namespace Lox

open Grammar

/-! ### Discipline -/

/-- The operators of comparisons and of arithmetic. -/
def Grammar.IsBinary (k : Kind) : Prop :=
  4 ≤ binding k ∧ binding k ≤ 7

/-- The words `or` and `and`. -/
def Grammar.IsLogical (k : Kind) : Prop :=
  k = .kwOr ∨ k = .kwAnd

mutual

/-- The operands of each operator are joined at least as tightly as it joins them, right operands more
tightly; what is called or has a property is a call itself, or tighter than any operator. -/
def Expr.Disciplined : Expr → Prop
  | .literal _ _ => True
  | .var _ name => name.kind = .identifier
  | .this _ keyword => keyword.kind = .kwThis
  | .super _ keyword method => keyword.kind = .kwSuper ∧ method.kind = .identifier
  | .grouping _ inner => inner.Disciplined
  | .unary _ operator right => IsSign operator.kind ∧ 8 ≤ tightness right ∧ right.Disciplined
  | .binary _ left operator right =>
    IsBinary operator.kind ∧ binding operator.kind ≤ tightness left
      ∧ binding operator.kind < tightness right ∧ left.Disciplined ∧ right.Disciplined
  | .logical _ left operator right =>
    IsLogical operator.kind ∧ binding operator.kind ≤ tightness left
      ∧ binding operator.kind < tightness right ∧ left.Disciplined ∧ right.Disciplined
  | .assign _ name value => name.kind = .identifier ∧ value.Disciplined
  | .call _ callee paren arguments =>
    tightness callee = 9 ∧ callee.Disciplined ∧ Expr.DisciplinedEach arguments
      ∧ paren.kind = .rightParen
  | .get _ object name => tightness object = 9 ∧ object.Disciplined ∧ name.kind = .identifier
  | .set _ object name value =>
    tightness object = 9 ∧ object.Disciplined ∧ name.kind = .identifier ∧ value.Disciplined

/-- The expressions are all disciplined. -/
def Expr.DisciplinedEach : List Expr → Prop
  | [] => True
  | e :: rest => e.Disciplined ∧ Expr.DisciplinedEach rest

end

/-- An expression that may be missing is disciplined. -/
def Expr.DisciplinedOption : Option Expr → Prop
  | none => True
  | some e => e.Disciplined

/-- The superclass, if there is one, is a name. -/
def Expr.IsAncestor : Option Expr → Prop
  | none => True
  | some e => ∃ id name, e = .var id name ∧ name.kind = .identifier

/-- The statement takes an `else` that follows it. -/
def Stmt.takesElse : Stmt → Bool
  | .ifThen _ _ => true
  | .ifElse _ _ elseBranch => elseBranch.takesElse
  | .whileLoop _ body => body.takesElse
  | .expression _ | .varDecl _ _ | .block _ | .funDecl _ | .returnValue _ _ | .classDecl _ _ _ =>
    false

mutual

/-- The expressions in a statement are disciplined, no statement before an `else` takes it, and no
declaration stands where a choice or a loop has a statement. -/
def Stmt.Disciplined : Stmt → Prop
  | .expression value => value.Disciplined
  | .varDecl name initializer => name.kind = .identifier ∧ Expr.DisciplinedOption initializer
  | .block body => Stmt.DisciplinedEach body
  | .ifThen condition thenBranch =>
    condition.Disciplined ∧ thenBranch.Disciplined ∧ thenBranch.declares = false
  | .ifElse condition thenBranch elseBranch =>
    condition.Disciplined ∧ thenBranch.Disciplined ∧ thenBranch.declares = false
      ∧ thenBranch.takesElse = false
      ∧ elseBranch.Disciplined ∧ elseBranch.declares = false
  | .whileLoop condition body =>
    condition.Disciplined ∧ body.Disciplined ∧ body.declares = false
  | .funDecl routine => routine.Disciplined
  | .returnValue keyword value => keyword.kind = .kwReturn ∧ Expr.DisciplinedOption value
  | .classDecl name superclass methods =>
    name.kind = .identifier ∧ Expr.IsAncestor superclass ∧ Routine.DisciplinedEach methods

/-- The statements are all disciplined. -/
def Stmt.DisciplinedEach : List Stmt → Prop
  | [] => True
  | s :: rest => s.Disciplined ∧ Stmt.DisciplinedEach rest

/-- The body of the function or method is disciplined, and its parameters are names. -/
def Routine.Disciplined : Routine → Prop
  | .mk name params body =>
    name.kind = .identifier ∧ (∀ p ∈ params, p.kind = .identifier) ∧ Stmt.DisciplinedEach body

/-- The methods are all disciplined. -/
def Routine.DisciplinedEach : List Routine → Prop
  | [] => True
  | r :: rest => r.Disciplined ∧ Routine.DisciplinedEach rest

end

namespace Grammar

open Lox.Parser

variable {limit : Limit} {ts us : List Token}

theorem literal?_eq_some_iff {k : Kind} {value : Literal} :
    literal? k = some value ↔ k = value.kind := by
  constructor
  · intro h
    unfold literal? at h
    split at h <;> cases h <;> rfl
  · rintro rfl
    unfold Literal.kind
    split <;> rfl

/-! ### The node of a level -/

section

variable {i : Nat} {level : Level} (hlevel : levels[i]? = some level) (id : Nat) (left : Expr)
  (operator : Token) (right : Expr)

include hlevel

theorem leaves_make :
    (level.make id left operator right).leaves = left.leaves ++ .kept operator :: right.leaves := by
  rcases make_eq hlevel with h | h <;> rw [h] <;> rfl

theorem disciplined_make (hoperator : operator.kind ∈ level.operators)
    (hleft : i + 2 ≤ tightness left) (hright : i + 2 < tightness right) (hl : left.Disciplined)
    (hr : right.Disciplined) : (level.make id left operator right).Disciplined := by
  have hbinding := (mem_operators_iff hlevel).1 hoperator
  obtain rfl | rfl | rfl | rfl | rfl | rfl := level_cases hlevel
  all_goals
    cases hlevel
    simp_all [Expr.Disciplined, IsBinary, IsLogical]

end

/-! ### From what is written to its leaves -/

/-- The tokens stand for the leaves of the phrase, which is disciplined. -/
def Phrase.Faithful : Phrase → List Token → Prop
  | .expression e, ts | .operation _ e, ts | .call e, ts => Fit e.leaves ts ∧ e.Disciplined
  | .entries es, ts =>
    es ≠ [] ∧ Fit (Leaf.listed (Expr.leavesEach es)) ts ∧ Expr.DisciplinedEach es
  | .arguments es, ts => Fit (Leaf.listed (Expr.leavesEach es)) ts ∧ Expr.DisciplinedEach es

/-- A token that was kept. -/
theorem fit_kept (t : Token) {ps : List Leaf} (h : Fit ps ts) : Fit (.kept t :: ps) (t :: ts) :=
  .cons rfl h

theorem fit_word {t : Token} {k : Kind} (ht : t.kind = k) {ps : List Leaf} (h : Fit ps ts) :
    Fit (.word k :: ps) (t :: ts) :=
  .cons ht h

theorem fit_append {ps qs : List Leaf} (h : Fit ps ts) (h' : Fit qs us) :
    Fit (ps ++ qs) (ts ++ us) :=
  List.rel_append h h'

theorem Phrase.Written.faithful {ph : Phrase} (h : ph.Written limit ts) : ph.Faithful ts := by
  induction h with
  | literal id hvalue => exact ⟨fit_word (literal?_eq_some_iff.1 hvalue) .nil, trivial⟩
  | var id hname => exact ⟨fit_kept _ .nil, hname⟩
  | this id hkeyword => exact ⟨fit_kept _ .nil, hkeyword⟩
  | super id hkeyword hdot hmethod =>
    exact ⟨fit_kept _ (fit_word hdot (fit_kept _ .nil)), hkeyword, hmethod⟩
  | grouping id hleft _ hright ih =>
    exact ⟨fit_word hleft (fit_append ih.1 (fit_word hright .nil)), ih.2⟩
  | call id hcallee hleft _ hparen ihcallee ihargs =>
    exact ⟨fit_append ihcallee.1 (fit_word hleft (fit_append ihargs.1 (fit_kept _ .nil))),
      hcallee.tight, ihcallee.2, ihargs.2, hparen⟩
  | get id hobject hdot hname ih =>
    exact ⟨fit_append ih.1 (fit_word hdot (fit_kept _ .nil)), hobject.tight, ih.2, hname⟩
  | tightest _ ih => exact ih
  | unary id hsign h ih => exact ⟨fit_kept _ ih.1, hsign, h.tight, ih.2⟩
  | tighter _ _ ih => exact ih
  | joined id hlevel hleft hoperator hright ihleft ihright =>
    refine ⟨?_, disciplined_make hlevel id _ _ _ hoperator hleft.tight hright.tight ihleft.2 ihright.2⟩
    rw [leaves_make hlevel]
    exact fit_append ihleft.1 (fit_kept _ ihright.1)
  | loosest _ ih => exact ih
  | assign id hname hequals _ ih => exact ⟨fit_kept _ (fit_word hequals ih.1), hname, ih.2⟩
  | set id hobject hdot hname hequals _ ihobject ihvalue =>
    exact ⟨fit_append ihobject.1 (fit_word hdot (fit_kept _ (fit_word hequals ihvalue.1))),
      hobject.tight, ihobject.2, hname, ihvalue.2⟩
  | entry _ ih => exact ⟨by simp, listed_single ▸ ih.1, ih.2, trivial⟩
  | @entries e es _ _ _ _ hcomma _ ih ihs =>
    obtain ⟨hne, hfit, hes⟩ := ihs
    have hne' : Expr.leavesEach es ≠ [] := by
      cases es with
      | nil => exact absurd rfl hne
      | cons e es => simp [Expr.leavesEach]
    refine ⟨by simp, ?_, ih.2, hes⟩
    rw [Expr.leavesEach, listed_cons hne']
    exact fit_append ih.1 (fit_word hcomma hfit)
  | noArguments => exact ⟨.nil, trivial⟩
  | arguments _ _ ih => exact ih.2

theorem fit_of_expression {e : Expr} (h : (Phrase.expression e).Written limit ts) :
    Fit e.leaves ts ∧ e.Disciplined :=
  h.faithful

theorem Optional.faithful {e? : Option Expr} (h : Optional limit e? ts) :
    Fit (Expr.leavesOption [] e?) ts ∧ Expr.DisciplinedOption e? := by
  cases h with
  | none => exact ⟨.nil, trivial⟩
  | some h => exact h.faithful

theorem Variable.faithful {s : Stmt} {var : Token} (hvar : var.kind = .kwVar)
    (h : Variable limit s ts) : Fit s.leaves (var :: ts) ∧ s.Disciplined := by
  cases h with
  | plain hname hsemicolon =>
    exact ⟨fit_word hvar (fit_kept _ (fit_word hsemicolon .nil)), hname, trivial⟩
  | initialized hname hequals h hsemicolon =>
    obtain ⟨hfit, he⟩ := fit_of_expression h
    exact ⟨fit_word hvar (fit_kept _ (fit_word hequals (fit_append hfit (fit_word hsemicolon .nil)))),
      hname, he⟩

theorem fit_parameters {params : List Token} (h : Separated (params.map fun p => [p]) ts) :
    Fit (Leaf.listed (params.map fun p => [.kept p])) ts := by
  induction params generalizing ts with
  | nil => cases h
  | cons p params ih =>
    rcases separated_cases h with ⟨rfl, rfl⟩ | ⟨comma, us, hcomma, hus, rfl⟩
    · exact fit_kept p .nil
    · have hne : params.map (fun p => [Leaf.kept p]) ≠ [] := by
        rintro hnil
        rw [List.map_eq_nil_iff.1 hnil] at hus
        cases hus
      rw [List.map_cons, listed_cons hne]
      exact fit_kept p (fit_word hcomma (ih hus))

theorem Parameters.faithful {params : List Token} (h : Parameters limit params ts) :
    Fit (Leaf.listed (params.map fun p => [.kept p])) ts ∧ ∀ p ∈ params, p.kind = .identifier := by
  cases h with
  | none => exact ⟨.nil, by simp⟩
  | some hnames hts =>
    exact ⟨fit_parameters hts, hnames⟩

theorem Ancestor.faithful {superclass : Option Expr} (h : Ancestor superclass ts) :
    Fit (Expr.leavesOption [.word .colon] superclass) ts ∧ Expr.IsAncestor superclass := by
  cases h with
  | none => exact ⟨.nil, trivial⟩
  | some id hcolon hname => exact ⟨fit_word hcolon (fit_kept _ .nil), id, _, rfl, hname⟩

/-- The tokens stand for the leaves of the part, which is disciplined. -/
def Part.Faithful : Part → List Token → Prop
  | .statement o s, ts =>
    Fit s.leaves ts ∧ s.Disciplined ∧ s.declares = false ∧ s.takesElse = o
  | .declaration s, ts => Fit s.leaves ts ∧ s.Disciplined
  | .declarations body, ts => Fit (Stmt.leavesEach body) ts ∧ Stmt.DisciplinedEach body
  | .routine r, ts => Fit r.leaves ts ∧ r.Disciplined
  | .routines rs, ts => Fit (Routine.leavesEach rs) ts ∧ Routine.DisciplinedEach rs

/-- What is written without a `for` stands for its leaves. -/
theorem Part.Written.faithful {part : Part} (h : part.Written limit ts)
    (hts : ∀ t ∈ ts, t.kind ≠ .kwFor) : part.Faithful ts := by
  induction h with
  | expression h hsemicolon =>
    obtain ⟨hfit, he⟩ := fit_of_expression h
    exact ⟨fit_append hfit (fit_word hsemicolon .nil), he, rfl, rfl⟩
  | block hleft _ hright ih =>
    simp only [List.forall_mem_cons, List.forall_mem_append] at hts
    obtain ⟨hfit, hbody⟩ := ih hts.2.1
    exact ⟨fit_word hleft (fit_append hfit (fit_word hright .nil)), hbody, rfl, rfl⟩
  | ifThen hkeyword hleft hcondition hright _ ih =>
    simp only [List.forall_mem_cons, List.forall_mem_append] at hts
    obtain ⟨hc, hcd⟩ := fit_of_expression hcondition
    obtain ⟨hs, hsd, hdeclares, -⟩ := ih hts.2.2.2.2
    exact ⟨fit_word hkeyword (fit_word hleft (fit_append hc (fit_word hright hs))),
      ⟨hcd, hsd, hdeclares⟩, rfl, rfl⟩
  | ifElse hkeyword hleft hcondition hright _ hother _ ih₁ ih₂ =>
    simp only [List.forall_mem_cons, List.forall_mem_append] at hts
    obtain ⟨hc, hcd⟩ := fit_of_expression hcondition
    obtain ⟨hs₁, hsd₁, hdeclares₁, helse⟩ := ih₁ hts.2.2.2.2.1
    obtain ⟨hs₂, hsd₂, hdeclares₂, hopen⟩ := ih₂ hts.2.2.2.2.2.2
    have hbranches := fit_append hs₁ (fit_word hother hs₂)
    exact ⟨fit_word hkeyword (fit_word hleft (fit_append hc (fit_word hright hbranches))),
      ⟨hcd, hsd₁, hdeclares₁, helse, hsd₂, hdeclares₂⟩, rfl, hopen⟩
  | whileLoop hkeyword hleft hcondition hright _ ih =>
    simp only [List.forall_mem_cons, List.forall_mem_append] at hts
    obtain ⟨hc, hcd⟩ := fit_of_expression hcondition
    obtain ⟨hs, hsd, hdeclares, hopen⟩ := ih hts.2.2.2.2
    exact ⟨fit_word hkeyword (fit_word hleft (fit_append hc (fit_word hright hs))),
      ⟨hcd, hsd, hdeclares⟩, rfl, hopen⟩
  | forLoop id hkeyword => exact absurd hkeyword (hts _ List.mem_cons_self)
  | returnValue hkeyword hvalue hsemicolon =>
    obtain ⟨hfit, hv⟩ := hvalue.faithful
    exact ⟨fit_kept _ (fit_append hfit (fit_word hsemicolon .nil)), ⟨hkeyword, hv⟩, rfl, rfl⟩
  | statement _ ih =>
    obtain ⟨hfit, hs, -⟩ := ih hts
    exact ⟨hfit, hs⟩
  | varDecl hvar h => exact h.faithful hvar
  | funDecl hkeyword _ ih =>
    rw [List.forall_mem_cons] at hts
    obtain ⟨hfit, hr⟩ := ih hts.2
    exact ⟨fit_word hkeyword hfit, hr⟩
  | classDecl hkeyword hname hancestor hleft _ hright ih =>
    simp only [List.forall_mem_cons, List.forall_mem_append] at hts
    obtain ⟨hfit, hrs⟩ := ih hts.2.2.2.2.1
    obtain ⟨hsuper, hs⟩ := hancestor.faithful
    have hbody := fit_word hleft (fit_append hfit (fit_word hright .nil))
    exact ⟨fit_word hkeyword (fit_kept _ (fit_append hsuper hbody)), hname, hs, hrs⟩
  | noDeclarations => exact ⟨.nil, trivial⟩
  | declarations _ _ ih ih' =>
    rw [List.forall_mem_append] at hts
    obtain ⟨hfit, hs⟩ := ih hts.1
    obtain ⟨hfit', hbody⟩ := ih' hts.2
    exact ⟨fit_append hfit hfit', hs, hbody⟩
  | routine hname hleft hparams hright hopening _ hclosing ih =>
    simp only [List.forall_mem_cons, List.forall_mem_append] at hts
    obtain ⟨hfit, hbody⟩ := ih hts.2.2.2.2.2.1
    obtain ⟨hps, hnames⟩ := hparams.faithful
    have hblock := fit_word hright (fit_word hopening (fit_append hfit (fit_word hclosing .nil)))
    exact ⟨fit_kept _ (fit_word hleft (fit_append hps hblock)), hname, hnames, hbody⟩
  | noRoutines => exact ⟨.nil, trivial⟩
  | routines _ _ ih ih' =>
    rw [List.forall_mem_append] at hts
    obtain ⟨hfit, hr⟩ := ih hts.1
    obtain ⟨hfit', hrs⟩ := ih' hts.2
    exact ⟨fit_append hfit hfit', hr, hrs⟩

end Grammar

end Lox
