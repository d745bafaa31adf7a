import Lox.Program.Scoping
import Lox.Proofs.Tree.Orderly
import Mathlib.Data.List.Forall2

/-!
Other names for local variables. A `Renaming` chooses scopes of a program; the variables and parameters
of these scopes that have the old name get the new one, in their declarations and wherever the
distances tie an occurrence to them (`Program.rename`). Functions and classes keep their names, which
can be seen when they are printed.

Wherever a part of a program stands, there are marks that say of the scopes around it, from the inside
outward, which of them are chosen; the globals have no mark.
-/

namespace Lox

/-- Where a scope stands in a program: the positions among the statements, branches and methods that
lead to its block or its function, from the inside outward. -/
abbrev ScopePlace := List Nat

/-- Another name for the local variables of some scopes that have the old one. -/
structure Renaming where
  /-- The distances in the program. -/
  distances : Distances
  old : String
  new : String
  /-- The scopes whose variables are renamed. -/
  chosen : ScopePlace → Bool
  old_ne : old ≠ "this" ∧ old ≠ "super"
  new_ne : new ≠ "this" ∧ new ≠ "super"

namespace Renaming

variable (R : Renaming)

/-- What a name is in a scope, which is chosen if it is marked. -/
def name (marked : Bool) (n : String) : String :=
  if marked = true ∧ n = R.old then R.new else n

def token (marked : Bool) (t : Token) : Token :=
  { t with lexeme := R.name marked t.lexeme }

/-- The mark of the scope at a distance; the globals have none. -/
def markAt (marks : List Bool) (distance : Option Nat) : Bool :=
  (distance.bind (marks[·]?)).getD false

/-- The distances tie the occurrence with this number to a chosen scope. -/
def ties (marks : List Bool) (id : Nat) : Bool :=
  markAt marks R.distances[id]?

end Renaming

/-! ### Trees with other names -/

mutual

/-- The expression with the new name where `ties` says that an occurrence is tied to a chosen scope. -/
def Expr.rename (R : Renaming) (ties : Nat → Bool) : Expr → Expr
  | .literal id value => .literal id value
  | .unary id operator right => .unary id operator (right.rename R ties)
  | .binary id left operator right =>
    .binary id (left.rename R ties) operator (right.rename R ties)
  | .grouping id inner => .grouping id (inner.rename R ties)
  | .var id name => .var id (R.token (ties id) name)
  | .assign id name value => .assign id (R.token (ties id) name) (value.rename R ties)
  | .logical id left operator right =>
    .logical id (left.rename R ties) operator (right.rename R ties)
  | .call id callee paren arguments =>
    .call id (callee.rename R ties) paren (Expr.renameEach R ties arguments)
  | .get id object name => .get id (object.rename R ties) name
  | .set id object name value => .set id (object.rename R ties) name (value.rename R ties)
  | .this id keyword => .this id keyword
  | .super id keyword method => .super id keyword method

/-- Expressions with the new name. -/
def Expr.renameEach (R : Renaming) (ties : Nat → Bool) : List Expr → List Expr
  | [] => []
  | e :: rest => e.rename R ties :: Expr.renameEach R ties rest

end

mutual

/-- The statement at this place with the new name, given the marks of the scopes around it. -/
def Stmt.rename (R : Renaming) (place : ScopePlace) (marks : List Bool) : Stmt → Stmt
  | .expression value => .expression (value.rename R (R.ties marks))
  | .varDecl name initializer =>
    .varDecl (R.token (marks.headD false) name) (initializer.map (Expr.rename R (R.ties marks)))
  | .block body => .block (Stmt.renameEach R place (R.chosen place :: marks) 0 body)
  | .ifThen condition thenBranch =>
    .ifThen (condition.rename R (R.ties marks)) (thenBranch.rename R (0 :: place) marks)
  | .ifElse condition thenBranch elseBranch =>
    .ifElse (condition.rename R (R.ties marks)) (thenBranch.rename R (0 :: place) marks)
      (elseBranch.rename R (1 :: place) marks)
  | .whileLoop condition body =>
    .whileLoop (condition.rename R (R.ties marks)) (body.rename R (0 :: place) marks)
  | .funDecl routine => .funDecl (routine.rename R place marks)
  | .returnValue keyword value => .returnValue keyword (value.map (Expr.rename R (R.ties marks)))
  | .classDecl name none methods =>
    .classDecl name none (Routine.renameEach R place (false :: marks) 0 methods)
  | .classDecl name (some ancestor) methods =>
    .classDecl name (some (ancestor.rename R (R.ties marks)))
      (Routine.renameEach R place (false :: false :: marks) 0 methods)

/-- The statements from this position on with the new name. -/
def Stmt.renameEach (R : Renaming) (place : ScopePlace) (marks : List Bool) :
    Nat → List Stmt → List Stmt
  | _, [] => []
  | i, s :: rest =>
    s.rename R (i :: place) marks :: Stmt.renameEach R place marks (i + 1) rest

/-- The function or method at this place with the new name. -/
def Routine.rename (R : Renaming) (place : ScopePlace) (marks : List Bool) : Routine → Routine
  | .mk name params body =>
    .mk name (params.map (R.token (R.chosen place)))
      (Stmt.renameEach R place (R.chosen place :: marks) 0 body)

/-- The methods from this position on with the new name. -/
def Routine.renameEach (R : Renaming) (place : ScopePlace) (marks : List Bool) :
    Nat → List Routine → List Routine
  | _, [] => []
  | i, r :: rest =>
    r.rename R (i :: place) marks :: Routine.renameEach R place marks (i + 1) rest

end

/-- The program in which the variables of the chosen scopes have the new name. -/
def Program.rename (R : Renaming) (p : Program) : Program :=
  Stmt.renameEach R [] [] 0 p

/-! ### Names of a program -/

mutual

/-- The names of variables, parameters, functions and classes in a statement. -/
def Stmt.names : Stmt → List String
  | .expression value => value.mentions
  | .varDecl name initializer => name.lexeme :: Expr.mentionsOption initializer
  | .block body => Stmt.namesEach body
  | .ifThen condition s | .whileLoop condition s => condition.mentions ++ s.names
  | .ifElse condition thenBranch elseBranch =>
    condition.mentions ++ (thenBranch.names ++ elseBranch.names)
  | .funDecl routine => routine.name.lexeme :: routine.names
  | .returnValue _ value => Expr.mentionsOption value
  | .classDecl name superclass methods =>
    name.lexeme :: (Expr.mentionsOption superclass ++ Routine.namesEach methods)

/-- The names of variables, parameters, functions and classes in statements. -/
def Stmt.namesEach : List Stmt → List String
  | [] => []
  | s :: rest => s.names ++ Stmt.namesEach rest

/-- The names in a function or method; that of the function itself is not one of them. -/
def Routine.names : Routine → List String
  | .mk _ params body => params.map Token.lexeme ++ Stmt.namesEach body

/-- The names in methods. -/
def Routine.namesEach : List Routine → List String
  | [] => []
  | r :: rest => r.names ++ Routine.namesEach rest

end

mutual

/-- In the scope around the statement, if it is marked, and in chosen scopes inside the statement no
function or class has the old name. -/
def Stmt.spared (R : Renaming) (place : ScopePlace) (marked : Bool) : Stmt → Bool
  | .expression _ | .varDecl _ _ | .returnValue _ _ => true
  | .block body => Stmt.sparedEach R place (R.chosen place) 0 body
  | .ifThen _ s | .whileLoop _ s => s.spared R (0 :: place) marked
  | .ifElse _ thenBranch elseBranch =>
    thenBranch.spared R (0 :: place) marked && elseBranch.spared R (1 :: place) marked
  | .funDecl routine => (R.token marked routine.name == routine.name) && routine.spared R place
  | .classDecl name _ methods => (R.token marked name == name) && Routine.sparedEach R place 0 methods

/-- In a scope with these statements, and in those inside it, no function or class has the old name if
the scope is chosen. -/
def Stmt.sparedEach (R : Renaming) (place : ScopePlace) (marked : Bool) : Nat → List Stmt → Bool
  | _, [] => true
  | i, s :: rest => s.spared R (i :: place) marked && Stmt.sparedEach R place marked (i + 1) rest

/-- In chosen scopes of the function or method no function or class has the old name. -/
def Routine.spared (R : Renaming) (place : ScopePlace) : Routine → Bool
  | .mk _ _ body => Stmt.sparedEach R place (R.chosen place) 0 body

/-- In chosen scopes of the methods no function or class has the old name. -/
def Routine.sparedEach (R : Renaming) (place : ScopePlace) : Nat → List Routine → Bool
  | _, [] => true
  | i, r :: rest => r.spared R (i :: place) && Routine.sparedEach R place (i + 1) rest

end

/-! ### Trees that can be renamed -/

section

variable (R : Renaming)

/-- The grammar gives the expression, and it does not mention the new name. -/
def Expr.Suits (e : Expr) : Prop :=
  e.Proper ∧ R.new ∉ e.mentions

/-- The grammar gives the statement, the new name does not occur in it, and no function or class would
have to be renamed. -/
def Stmt.Suits (place : ScopePlace) (marked : Bool) (s : Stmt) : Prop :=
  s.Proper ∧ R.new ∉ s.names ∧ s.spared R place marked = true

/-- All statements from this position on suit. -/
def Stmt.SuitsEach (place : ScopePlace) (marked : Bool) (i : Nat) (body : List Stmt) : Prop :=
  Stmt.ProperEach body ∧ R.new ∉ Stmt.namesEach body ∧ Stmt.sparedEach R place marked i body = true

/-- The grammar gives the function or method, the new name does not occur in it, and no function or
class in it would have to be renamed. -/
def Routine.Suits (place : ScopePlace) (r : Routine) : Prop :=
  r.Proper ∧ R.new ∉ r.names ∧ r.spared R place = true

/-- All methods from this position on suit. -/
def Routine.SuitsEach (place : ScopePlace) (i : Nat) (rs : List Routine) : Prop :=
  Routine.ProperEach rs ∧ R.new ∉ Routine.namesEach rs ∧ Routine.sparedEach R place i rs = true

end

section

variable {R : Renaming} {place : ScopePlace} {marked : Bool} {i : Nat}

namespace Expr.Suits

variable {id : Nat} {left right inner : Expr} {token : Token}

theorem unary (h : (Expr.unary id token right).Suits R) : right.Suits R := h

theorem grouping (h : (Expr.grouping id inner).Suits R) : inner.Suits R := h

theorem get (h : (Expr.get id inner token).Suits R) : inner.Suits R := h

theorem of_both (hp : left.Proper ∧ right.Proper) (hm : R.new ∉ left.mentions ++ right.mentions) :
    left.Suits R ∧ right.Suits R := by
  rw [List.mem_append, not_or] at hm
  exact ⟨⟨hp.1, hm.1⟩, hp.2, hm.2⟩

theorem binary (h : (Expr.binary id left token right).Suits R) : left.Suits R ∧ right.Suits R :=
  of_both h.1 h.2

theorem logical (h : (Expr.logical id left token right).Suits R) : left.Suits R ∧ right.Suits R :=
  of_both h.1 h.2

theorem set (h : (Expr.set id left token right).Suits R) : left.Suits R ∧ right.Suits R :=
  of_both h.1 h.2

theorem var (h : (Expr.var id token).Suits R) : token.lexeme ≠ R.new :=
  fun he => h.2 (List.mem_singleton.2 he.symm)

theorem assign (h : (Expr.assign id token right).Suits R) :
    token.lexeme ≠ R.new ∧ right.Suits R := by
  have hm : R.new ∉ token.lexeme :: right.mentions := h.2
  rw [List.mem_cons, not_or] at hm
  exact ⟨Ne.symm hm.1, h.1.2, hm.2⟩

theorem of_each {es : List Expr} (hp : Expr.ProperEach es) (hm : R.new ∉ Expr.mentionsEach es) :
    ∀ e ∈ es, e.Suits R := by
  induction es with
  | nil => exact fun e he => nomatch he
  | cons first rest ih =>
    replace hm : R.new ∉ first.mentions ++ Expr.mentionsEach rest := hm
    rw [List.mem_append, not_or] at hm
    exact List.forall_mem_cons.2 ⟨⟨hp.1, hm.1⟩, ih hp.2 hm.2⟩

theorem call {arguments : List Expr} (h : (Expr.call id inner token arguments).Suits R) :
    inner.Suits R ∧ ∀ e ∈ arguments, e.Suits R := by
  have hm : R.new ∉ inner.mentions ++ Expr.mentionsEach arguments := h.2
  rw [List.mem_append, not_or] at hm
  exact ⟨⟨h.1.1, hm.1⟩, of_each h.1.2 hm.2⟩

end Expr.Suits

namespace Stmt.Suits

variable {condition : Expr} {value? : Option Expr} {s s' : Stmt} {name : Token}
  {methods : List Routine}

theorem expression (h : (Stmt.expression condition).Suits R place marked) : condition.Suits R :=
  ⟨h.1, h.2.1⟩

theorem of_option (hp : Expr.ProperOption value?) (hm : R.new ∉ Expr.mentionsOption value?) :
    ∀ e ∈ value?, e.Suits R := by
  rintro e rfl
  exact ⟨hp, hm⟩

theorem varDecl (h : (Stmt.varDecl name value?).Suits R place marked) :
    name.lexeme ≠ R.new ∧ ∀ e ∈ value?, e.Suits R := by
  have hm : R.new ∉ name.lexeme :: Expr.mentionsOption value? := h.2.1
  rw [List.mem_cons, not_or] at hm
  exact ⟨Ne.symm hm.1, of_option h.1.2 hm.2⟩

theorem block {body : List Stmt} (h : (Stmt.block body).Suits R place marked) :
    Stmt.SuitsEach R place (R.chosen place) 0 body := h

theorem ifThen (h : (Stmt.ifThen condition s).Suits R place marked) :
    condition.Suits R ∧ s.Suits R (0 :: place) marked := by
  have hm : R.new ∉ condition.mentions ++ s.names := h.2.1
  rw [List.mem_append, not_or] at hm
  exact ⟨⟨h.1.1, hm.1⟩, h.1.2.1, hm.2, h.2.2⟩

theorem whileLoop (h : (Stmt.whileLoop condition s).Suits R place marked) :
    condition.Suits R ∧ s.Suits R (0 :: place) marked :=
  ifThen h

theorem ifElse (h : (Stmt.ifElse condition s s').Suits R place marked) :
    condition.Suits R ∧ s.Suits R (0 :: place) marked ∧ s'.Suits R (1 :: place) marked := by
  obtain ⟨⟨hc, ⟨hs, -⟩, hs', -⟩, hm, hspared⟩ := h
  replace hm : R.new ∉ condition.mentions ++ (s.names ++ s'.names) := hm
  rw [List.mem_append, List.mem_append, not_or, not_or] at hm
  have hboth := Bool.and_eq_true_iff.1 hspared
  exact ⟨⟨hc, hm.1⟩, ⟨hs, hm.2.1, hboth.1⟩, hs', hm.2.2, hboth.2⟩

theorem funDecl {routine : Routine} (h : (Stmt.funDecl routine).Suits R place marked) :
    routine.name.lexeme ≠ R.new ∧ R.token marked routine.name = routine.name
      ∧ routine.Suits R place := by
  obtain ⟨hp, hm, hspared⟩ := h
  replace hm : R.new ∉ routine.name.lexeme :: routine.names := hm
  rw [List.mem_cons, not_or] at hm
  have hboth := Bool.and_eq_true_iff.1 hspared
  exact ⟨Ne.symm hm.1, beq_iff_eq.1 hboth.1, hp, hm.2, hboth.2⟩

theorem returnValue (h : (Stmt.returnValue name value?).Suits R place marked) :
    ∀ e ∈ value?, e.Suits R :=
  of_option h.1 h.2.1

theorem classDecl (h : (Stmt.classDecl name value? methods).Suits R place marked) :
    name.lexeme ≠ R.new ∧ R.token marked name = name ∧ (∀ e ∈ value?, e.Suits R)
      ∧ Routine.SuitsEach R place 0 methods := by
  obtain ⟨⟨-, hancestor, hmethods⟩, hm, hspared⟩ := h
  replace hm : R.new ∉ name.lexeme
    :: (Expr.mentionsOption value? ++ Routine.namesEach methods) := hm
  rw [List.mem_cons, List.mem_append, not_or, not_or] at hm
  obtain ⟨hname, hma, hmm⟩ := hm
  have hboth := Bool.and_eq_true_iff.1 hspared
  refine ⟨Ne.symm hname, beq_iff_eq.1 hboth.1, ?_, hmethods, hmm, hboth.2⟩
  rintro e rfl
  obtain ⟨id, ancestor, rfl, hancestor⟩ := hancestor
  exact ⟨hancestor, hma⟩

end Stmt.Suits

theorem Stmt.SuitsEach.cons {s : Stmt} {rest : List Stmt}
    (h : Stmt.SuitsEach R place marked i (s :: rest)) :
    s.Suits R (i :: place) marked ∧ Stmt.SuitsEach R place marked (i + 1) rest := by
  obtain ⟨hp, hm, hspared⟩ := h
  replace hm : R.new ∉ s.names ++ Stmt.namesEach rest := hm
  rw [List.mem_append, not_or] at hm
  have hboth := Bool.and_eq_true_iff.1 hspared
  exact ⟨⟨hp.1, hm.1, hboth.1⟩, hp.2, hm.2, hboth.2⟩

theorem Routine.SuitsEach.cons {r : Routine} {rest : List Routine}
    (h : Routine.SuitsEach R place i (r :: rest)) :
    r.Suits R (i :: place) ∧ Routine.SuitsEach R place (i + 1) rest := by
  obtain ⟨hp, hm, hspared⟩ := h
  replace hm : R.new ∉ r.names ++ Routine.namesEach rest := hm
  rw [List.mem_append, not_or] at hm
  have hboth := Bool.and_eq_true_iff.1 hspared
  exact ⟨⟨hp.1, hm.1, hboth.1⟩, hp.2, hm.2, hboth.2⟩

theorem Routine.Suits.parts {r : Routine} (h : r.Suits R place) :
    (∀ p ∈ r.params, p.lexeme ≠ R.new) ∧ Stmt.SuitsEach R place (R.chosen place) 0 r.body := by
  obtain ⟨name, params, body⟩ := r
  have hm : R.new ∉ params.map Token.lexeme ++ Stmt.namesEach body := h.2.1
  rw [List.mem_append, not_or] at hm
  refine ⟨fun p hp he => hm.1 ?_, h.1.2.2, hm.2, h.2.2⟩
  exact List.mem_map.2 ⟨p, hp, he⟩

end

/-! ### What a name becomes -/

namespace Renaming

variable (R : Renaming) {marked : Bool} {n k : String}

@[simp] theorem name_false (n : String) : R.name false n = n :=
  if_neg fun h => Bool.noConfusion h.1

theorem name_of_ne (h : n ≠ R.old) : R.name marked n = n :=
  if_neg fun hm => h hm.2

@[simp] theorem token_false (t : Token) : R.token false t = t := by
  rw [token, name_false]

@[simp] theorem token_lexeme (t : Token) : (R.token marked t).lexeme = R.name marked t.lexeme := rfl

@[simp] theorem token_line (t : Token) : (R.token marked t).line = t.line := rfl

theorem token_eq_self {t : Token} : R.token marked t = t ↔ R.name marked t.lexeme = t.lexeme := by
  constructor
  · exact congrArg Token.lexeme
  · intro h
    rw [token, h]

/-- Two names do not become one, in whatever scopes, unless one of them is the new name. -/
theorem name_inj {marked' : Bool} (hk : k ≠ R.new) (hn : n ≠ R.new)
    (h : R.name marked k = R.name marked' n) : k = n := by
  unfold name at h
  split at h <;> split at h
  · rename_i hk' hn'
    rw [hk'.2, hn'.2]
  · exact absurd h.symm hn
  · exact absurd h hk
  · exact h

/-- The word `this` is neither the old name nor the new one. -/
theorem this_ne : "this" ≠ R.old ∧ "this" ≠ R.new := ⟨R.old_ne.1.symm, R.new_ne.1.symm⟩

/-- The word `super` is neither the old name nor the new one. -/
theorem super_ne : "super" ≠ R.old ∧ "super" ≠ R.new := ⟨R.old_ne.2.symm, R.new_ne.2.symm⟩

end Renaming

/-! ### What stays in a tree -/

section

variable (R : Renaming) (ties : Nat → Bool) (place : ScopePlace) (marks : List Bool)

theorem Expr.renameEach_eq_map (es : List Expr) :
    Expr.renameEach R ties es = es.map (Expr.rename R ties) := by
  induction es with
  | nil => rfl
  | cons e rest ih => rw [renameEach, ih, List.map_cons]

theorem Expr.line?_rename (e : Expr) : (e.rename R ties).line? = e.line? := by
  induction e using Expr.line?.induct with
  | case2 id inner ih => rwa [rename, line?, line?]
  | _ => simp only [rename, line?, Renaming.token_line]

theorem Routine.name_rename (r : Routine) : (r.rename R place marks).name = r.name := by
  cases r
  rfl

theorem Routine.params_rename (r : Routine) :
    (r.rename R place marks).params = r.params.map (R.token (R.chosen place)) := by
  cases r
  rfl

theorem Routine.body_rename (r : Routine) : (r.rename R place marks).body
    = Stmt.renameEach R place (R.chosen place :: marks) 0 r.body := by
  cases r
  rfl

theorem Routine.isInitializer_rename (r : Routine) :
    (r.rename R place marks).isInitializer = r.isInitializer := by
  rw [isInitializer, isInitializer, name_rename]

end

/-! ### Bindings with other names -/

/-- The same bindings with the names that `f` gives them, in the same order, and with related
values. -/
def Bindings.Renamed {α β : Type} (f : String → String) (r : α → β → Prop) :
    Bindings α → Bindings β → Prop :=
  List.Forall₂ fun a b => b.1 = f a.1 ∧ r a.2 b.2

namespace Bindings.Renamed

variable {α β : Type} {f : String → String} {r s : α → β → Prop} {b : Bindings α} {c : Bindings β}
  {n : String}

theorem mono (h : ∀ x y, r x y → s x y) (hb : Renamed f r b c) : Renamed f s b c :=
  List.Forall₂.imp (fun _ _ he => ⟨he.1, h _ _ he.2⟩) hb

theorem names (h : Renamed f r b c) : c.names = b.names.map f := by
  induction h with
  | nil => rfl
  | @cons x y b c he _ ih =>
    simp only [Bindings.names, List.map_cons] at ih ⊢
    rw [he.1, ih]

/-- What a name is bound to, if no other name becomes the same as this one. -/
theorem get? (h : Renamed f r b c) (hf : ∀ k ∈ b.names, f k = f n → k = n) :
    Option.Rel r (b.get? n) (c.get? (f n)) := by
  induction h with
  | nil => exact .none
  | @cons x y b c he _ ih =>
    obtain ⟨key, x⟩ := x
    obtain ⟨key', y⟩ := y
    obtain ⟨rfl, hr⟩ : key' = f key ∧ r x y := he
    rw [get?_cons, get?_cons]
    by_cases hk : key = n
    · rw [if_pos hk, if_pos (congrArg f hk)]
      exact .some hr
    · rw [if_neg hk, if_neg fun h => hk (hf key List.mem_cons_self h)]
      exact ih fun k hk => hf k (List.mem_cons_of_mem _ hk)

theorem set (h : Renamed f r b c) (hf : ∀ k ∈ b.names, f k = f n → k = n) {x : α} {y : β}
    (hr : r x y) : Renamed f r (b.set n x) (c.set (f n) y) := by
  induction h with
  | nil => exact .cons ⟨rfl, hr⟩ .nil
  | @cons x' y' b c he hbc ih =>
    obtain ⟨key, x'⟩ := x'
    obtain ⟨key', y'⟩ := y'
    obtain ⟨rfl, hr'⟩ : key' = f key ∧ r x' y' := he
    rw [Bindings.set, Bindings.set]
    by_cases hk : key = n
    · rw [if_pos hk, if_pos (congrArg f hk)]
      exact .cons ⟨rfl, hr⟩ hbc
    · rw [if_neg hk, if_neg fun h => hk (hf key List.mem_cons_self h)]
      exact .cons ⟨rfl, hr'⟩ (ih fun k hk => hf k (List.mem_cons_of_mem _ hk))

end Bindings.Renamed

end Lox
