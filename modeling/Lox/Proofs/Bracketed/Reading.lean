import Lox.Proofs.Bracketed.Legible

/-!
Reading trees from their bracketed form. From the nested list of a legible tree the tree is read, with
every line and every number left blank (`Expr.Legible.expr_nested`, `Stmt.Legible.stmt_nested`). What a
list stands for is told by the kind of its first word, and by how many things follow it.
-/

namespace Lox

open Grammar

/-! ### Expressions -/

/-- The number with this text. -/
noncomputable def Literal.ofSpelling (w : String) : Literal :=
  .number (Classical.epsilon fun x => Decimal.IsFinite x ∧ Decimal.pointed.render x = w)

/-- The expression that is a single word. -/
noncomputable def Expr.ofSpelling (w : String) : Expr :=
  match Kind.ofSpelling w with
  | .kwNil => .literal 0 .nil
  | .kwTrue => .literal 0 (.boolean true)
  | .kwFalse => .literal 0 (.boolean false)
  | .kwThis => .this 0 (.ofSpelling w)
  | .identifier => .var 0 (.ofSpelling w)
  | _ => .literal 0 (.ofSpelling w)

/-- The expression that is a list with this word at its head, followed by these expressions. -/
def Expr.ofParts (head : String) (parts : List Expr) : Expr :=
  match Kind.ofSpelling head, parts with
  | .equal, [.var _ name, value] => .assign 0 name value
  | .equal, [.get _ object name, value] => .set 0 object name value
  | .dot, [object, .var _ name] => .get 0 object name
  | .kwSuper, [.var _ method] => .super 0 (.ofSpelling "super") method
  | .identifier, inner :: arguments =>
    if head = "group" then .grouping 0 inner
    else .call 0 inner (.ofSpelling ")") arguments
  | .kwOr, [left, right] | .kwAnd, [left, right] => .logical 0 left (.ofSpelling head) right
  | _, [right] => .unary 0 (.ofSpelling head) right
  | _, [left, right] => .binary 0 left (.ofSpelling head) right
  | _, _ => default

mutual

/-- The expression that a nested list stands for. -/
noncomputable def Nested.expr : Nested → Expr
  | .word w => .ofSpelling w
  | .list [] => default
  | .list (.list _ :: _) => default
  | .list (.word head :: parts) => .ofParts head (exprEach parts)

/-- The expressions that nested lists stand for. -/
noncomputable def Nested.exprEach : List Nested → List Expr
  | [] => []
  | part :: rest => part.expr :: exprEach rest

end

theorem Literal.Legible.ofSpelling {x : Float} (hx : (Literal.number x).Legible) :
    Literal.ofSpelling (Decimal.pointed.render x) = .number x := by
  have h := Classical.epsilon_spec
    (p := fun y => Decimal.IsFinite y ∧ Decimal.pointed.render y = Decimal.pointed.render x) ⟨x, hx, rfl⟩
  exact congrArg Literal.number (Decimal.pointed_injective h.1 hx h.2)

/-- A constant is read from its text. -/
theorem Literal.Legible.expr_bracketed (id : Nat) : ∀ {value : Literal}, value.Legible →
    Expr.ofSpelling value.bracketed = (Expr.literal id value).relabel .blank
  | .nil, _ | .boolean true, _ | .boolean false, _ => rfl
  | .number x, h => by
    have hnumeric := isNumeric_render h
    rw [Literal.bracketed, Expr.ofSpelling, Literal.Legible.ofSpelling h]
    revert hnumeric
    cases Kind.ofSpelling (Decimal.pointed.render x) <;> simp [Kind.isNumeric, Expr.relabel,
      Relabel.blank]

/-- A name is read from its text. -/
theorem Token.Is.expr_lexeme {name : Token} (h : name.Is .identifier) :
    Expr.ofSpelling name.lexeme = .var 0 (name.relabel .blank) := by
  rw [Expr.ofSpelling, Kind.ofSpelling_eq h.1, h.2, Token.ofSpelling_lexeme h.1]

section

variable {operator : Token}

theorem ofParts_sign (h : operator.Spelled ∧ IsSign operator.kind) (right : Expr) :
    Expr.ofParts operator.lexeme [right] = .unary 0 (operator.relabel .blank) right := by
  unfold Expr.ofParts
  rw [Kind.ofSpelling_eq h.1, Token.ofSpelling_lexeme h.1]
  rcases h.2 with hkind | hkind <;> rw [hkind]

theorem ofParts_logical (h : operator.Spelled ∧ IsLogical operator.kind) (left right : Expr) :
    Expr.ofParts operator.lexeme [left, right]
      = .logical 0 left (operator.relabel .blank) right := by
  unfold Expr.ofParts
  rw [Kind.ofSpelling_eq h.1, Token.ofSpelling_lexeme h.1]
  rcases h.2 with hkind | hkind <;> rw [hkind]

theorem ofParts_binary (h : operator.Spelled ∧ IsBinary operator.kind) (left right : Expr) :
    Expr.ofParts operator.lexeme [left, right]
      = .binary 0 left (operator.relabel .blank) right := by
  unfold Expr.ofParts
  rw [Kind.ofSpelling_eq h.1, Token.ofSpelling_lexeme h.1]
  obtain ⟨-, hleast, hmost⟩ := h
  revert hleast hmost
  cases operator.kind <;> simp [binding]

end

mutual

/-- A legible expression is read from its nested list. -/
theorem Expr.Legible.expr_nested : ∀ {e : Expr}, e.Legible → e.nested.expr = e.relabel .blank
  | .literal id _, h => Literal.Legible.expr_bracketed id h
  | .unary _ _ _, ⟨hoperator, hright⟩ => by
    rw [Expr.nested, Nested.expr, Nested.exprEach, Nested.exprEach, hright.expr_nested,
      ofParts_sign hoperator]
    rfl
  | .binary _ _ _ _, ⟨hoperator, hleft, hright⟩ => by
    rw [Expr.nested, Nested.expr, Nested.exprEach, Nested.exprEach, Nested.exprEach,
      hleft.expr_nested, hright.expr_nested, ofParts_binary hoperator]
    rfl
  | .logical _ _ _ _, ⟨hoperator, hleft, hright⟩ => by
    rw [Expr.nested, Nested.expr, Nested.exprEach, Nested.exprEach, Nested.exprEach,
      hleft.expr_nested, hright.expr_nested, ofParts_logical hoperator]
    rfl
  | .grouping _ inner, h => by
    rw [Expr.nested, Nested.expr, Nested.exprEach, Expr.Legible.expr_nested (e := inner) h]
    rfl
  | .var _ _, h => Token.Is.expr_lexeme h
  | .assign _ _ _, ⟨hname, hvalue⟩ => by
    rw [Expr.nested, Nested.expr, Nested.exprEach, Nested.exprEach, Nested.expr,
      hname.expr_lexeme, hvalue.expr_nested]
    rfl
  | .call _ _ _ _, ⟨hparen, hcallee, harguments⟩ => by
    rw [Expr.nested, Nested.expr, Nested.exprEach, hcallee.expr_nested,
      harguments.exprEach_nestedEach, Expr.relabel, hparen.relabel_eq rfl]
    rfl
  | .get _ _ _, ⟨hname, hobject⟩ => by
    rw [Expr.nested, Nested.expr, Nested.exprEach, Nested.exprEach, Nested.expr,
      hname.expr_lexeme, hobject.expr_nested]
    rfl
  | .set _ _ _ _, ⟨hname, hobject, hvalue⟩ => by
    simp only [Expr.nested, Nested.expr, Nested.exprEach, hname.expr_lexeme, hobject.expr_nested,
      hvalue.expr_nested]
    rfl
  | .this _ _, h => by
    rw [Expr.relabel, Token.Is.relabel_eq h rfl]
    rfl
  | .super _ _ _, ⟨hkeyword, hmethod⟩ => by
    rw [Expr.nested, Nested.expr, Nested.exprEach, Nested.expr, hmethod.expr_lexeme, Expr.relabel,
      hkeyword.relabel_eq rfl]
    rfl

theorem Expr.LegibleEach.exprEach_nestedEach : ∀ {es : List Expr}, Expr.LegibleEach es →
    Nested.exprEach (Expr.nestedEach es) = Expr.relabelEach .blank es
  | [], _ => rfl
  | _ :: _, ⟨he, hrest⟩ => by
    rw [Expr.nestedEach, Nested.exprEach, he.expr_nested, hrest.exprEach_nestedEach]
    rfl

end

/-! ### Statements -/

/-- The name that is a single word. -/
def Nested.name : Nested → Token
  | .word w => .ofSpelling w
  | .list _ => default

/-- The names that stand in a list. -/
def Nested.names : Nested → List Token
  | .word _ => []
  | .list parts => parts.map name

/-- The statements of a block. -/
def Stmt.inBlock : Stmt → List Stmt
  | .block body => body
  | _ => []

/-- The function that is declared. -/
def Stmt.routine : Stmt → Routine
  | .funDecl routine => routine
  | _ => default

/-- The statement that is a list with this word at its head, from what follows it. Each of the things
that follow comes with the statement that it stands for, if it stands for one. -/
noncomputable def Stmt.ofParts (head : String) (parts : List (Nested × Stmt)) : Stmt :=
  match Kind.ofSpelling head, parts with
  | .semicolon, [value] => .expression value.1.expr
  | .kwVar, [name] => .varDecl name.1.name none
  | .kwVar, [name, initializer] => .varDecl name.1.name (some initializer.1.expr)
  | .identifier, body => .block (body.map Prod.snd)
  | .kwIf, [condition, thenBranch] => .ifThen condition.1.expr thenBranch.2
  | .kwIf, [condition, thenBranch, elseBranch] =>
    .ifElse condition.1.expr thenBranch.2 elseBranch.2
  | .kwWhile, [condition, body] => .whileLoop condition.1.expr body.2
  | .kwFun, [name, params, body] => .funDecl (.mk name.1.name params.1.names body.2.inBlock)
  | .kwReturn, [] => .returnValue (.ofSpelling "return") none
  | .kwReturn, [value] => .returnValue (.ofSpelling "return") (some value.1.expr)
  | .kwClass, name :: (.word _, _) :: superclass :: methods =>
    .classDecl name.1.name (some superclass.1.expr) (methods.map fun part => part.2.routine)
  | .kwClass, name :: methods =>
    .classDecl name.1.name none (methods.map fun part => part.2.routine)
  | _, _ => default

mutual

/-- The statement that a nested list stands for. -/
noncomputable def Nested.stmt : Nested → Stmt
  | .word _ => default
  | .list [] => default
  | .list (.list _ :: _) => default
  | .list (.word head :: parts) => .ofParts head (stmtEach parts)

/-- The nested lists, each with the statement that it stands for. -/
noncomputable def Nested.stmtEach : List Nested → List (Nested × Stmt)
  | [] => []
  | part :: rest => (part, part.stmt) :: stmtEach rest

end

theorem Token.Is.name_word {name : Token} (h : name.Is .identifier) :
    (Nested.word name.lexeme).name = name.relabel .blank :=
  Token.ofSpelling_lexeme h.1

theorem names_params {params : List Token} (h : ∀ p ∈ params, p.Is .identifier) :
    (Nested.list (params.map fun p => .word p.lexeme)).names
      = params.map (Token.relabel .blank) := by
  rw [Nested.names, List.map_map]
  exact List.map_congr_left fun p hp => (h p hp).name_word

/-- What stands for a method is a list. -/
theorem Routine.exists_nested (r : Routine) : ∃ parts, r.nested = .list parts := by
  cases r
  exact ⟨_, rfl⟩

/-- A class without a superclass is read as such: no method is a word. -/
theorem ofParts_class (name : Nested × Stmt) (methods : List Routine) :
    Stmt.ofParts "class" (name :: Nested.stmtEach (Routine.nestedEach methods))
      = .classDecl name.1.name none
        ((Nested.stmtEach (Routine.nestedEach methods)).map fun part => part.2.routine) := by
  cases methods with
  | nil => rfl
  | cons r methods =>
    obtain ⟨parts, hparts⟩ := r.exists_nested
    rw [Routine.nestedEach, Nested.stmtEach, hparts]
    rfl

mutual

/-- A legible statement is read from its nested list. -/
theorem Stmt.Legible.stmt_nested : ∀ {s : Stmt}, s.Legible → s.nested.stmt = s.relabel .blank
  | .expression value, h => by
    rw [Stmt.relabel, ← Expr.Legible.expr_nested (e := value) h]
    rfl
  | .varDecl _ (some _), ⟨hname, hvalue⟩ => by
    rw [Stmt.relabel, Option.map_some, ← hname.name_word, ← Expr.Legible.expr_nested hvalue]
    rfl
  | .varDecl _ none, ⟨hname, _⟩ => by
    rw [Stmt.relabel, ← hname.name_word]
    rfl
  | .block body, h => by
    rw [Stmt.relabel, ← @Stmt.LegibleEach.stmtEach_nestedEach body h]
    rfl
  | .ifThen _ _, ⟨hcondition, hthen⟩ => by
    rw [Stmt.relabel, ← hcondition.expr_nested, ← hthen.stmt_nested]
    rfl
  | .ifElse _ _ _, ⟨hcondition, hthen, helse⟩ => by
    rw [Stmt.relabel, ← hcondition.expr_nested, ← hthen.stmt_nested, ← helse.stmt_nested]
    rfl
  | .whileLoop _ _, ⟨hcondition, hbody⟩ => by
    rw [Stmt.relabel, ← hcondition.expr_nested, ← hbody.stmt_nested]
    rfl
  | .funDecl routine, h => Routine.Legible.stmt_nested (r := routine) h
  | .returnValue _ (some _), ⟨hkeyword, hvalue⟩ => by
    rw [Stmt.relabel, hkeyword.relabel_eq rfl, Option.map_some, ← Expr.Legible.expr_nested hvalue]
    rfl
  | .returnValue _ none, ⟨hkeyword, _⟩ => by
    rw [Stmt.relabel, hkeyword.relabel_eq rfl]
    rfl
  | .classDecl _ none _, ⟨hname, _, hmethods⟩ => by
    rw [Stmt.relabel, ← hname.name_word, ← hmethods.routines_nestedEach]
    exact ofParts_class _ _
  | .classDecl _ (some _) _, ⟨hname, ⟨_, _, he, hancestor⟩, hmethods⟩ => by
    subst he
    rw [Stmt.relabel, ← hname.name_word, ← hmethods.routines_nestedEach, Option.map_some,
      ← Expr.Legible.expr_nested (e := .var _ _) hancestor]
    rfl

theorem Stmt.LegibleEach.stmtEach_nestedEach : ∀ {body : List Stmt}, Stmt.LegibleEach body →
    (Nested.stmtEach (Stmt.nestedEach body)).map Prod.snd = Stmt.relabelEach .blank body
  | [], _ => rfl
  | _ :: _, ⟨hs, hrest⟩ => by
    rw [Stmt.nestedEach, Nested.stmtEach, List.map_cons, hs.stmt_nested, hrest.stmtEach_nestedEach]
    rfl

theorem Routine.Legible.stmt_nested : ∀ {r : Routine}, r.Legible →
    r.nested.stmt = .funDecl (r.relabel .blank)
  | .mk _ _ _, ⟨hname, hparams, hbody⟩ => by
    rw [Routine.relabel, ← hname.name_word, ← names_params hparams, ← hbody.stmtEach_nestedEach]
    rfl

theorem Routine.LegibleEach.routines_nestedEach : ∀ {methods : List Routine},
    Routine.LegibleEach methods →
    (Nested.stmtEach (Routine.nestedEach methods)).map (fun part => part.2.routine)
      = Routine.relabelEach .blank methods
  | [], _ => rfl
  | _ :: _, ⟨hr, hrest⟩ => by
    rw [Routine.nestedEach, Nested.stmtEach, List.map_cons, hr.stmt_nested,
      hrest.routines_nestedEach]
    rfl

end

/-! ### Same texts, same trees -/

/-- Legible expressions with the same text are the same but for lines and numbers. -/
theorem Expr.Legible.relabel_eq {e e' : Expr} (he : e.Legible) (he' : e'.Legible)
    (h : e.bracketed = e'.bracketed) : e.relabel .blank = e'.relabel .blank := by
  have htext : e.nested.text = e'.nested.text := by rw [e.text_nested, e'.text_nested, h]
  rw [← he.expr_nested, ← he'.expr_nested, Nested.text_injective he.worded he'.worded htext]

/-- Legible statements with the same text are the same but for lines and numbers. -/
theorem Stmt.Legible.relabel_eq {s s' : Stmt} (hs : s.Legible) (hs' : s'.Legible)
    (h : s.bracketed = s'.bracketed) : s.relabel .blank = s'.relabel .blank := by
  have htext : s.nested.text = s'.nested.text := by rw [s.text_nested, s'.text_nested, h]
  rw [← hs.stmt_nested, ← hs'.stmt_nested, Nested.text_injective hs.worded hs'.worded htext]

end Lox
