import Lox.Diagnostic
import Lox.Proofs.Tree.Proper

/-!
Other lines and other numbers. A `Relabel` changes the lines of the tokens in a tree and the numbers
of its expressions, and leaves everything else as it is. Which numbers do not occur in a tree does
not matter (`Stmt.relabelEach_congr`), and a relabelling after another one is a relabelling
(`Stmt.relabelEach_relabelEach`).
-/

namespace Lox

/-- What to write for a line and for the number of an expression. -/
structure Relabel where
  line : Nat → Nat
  number : Nat → Nat

namespace Relabel

/-- Other lines, the same numbers. -/
def lines (f : Nat → Nat) : Relabel := ⟨f, fun id => id⟩

/-- The same lines, other numbers. -/
def numbers (f : Nat → Nat) : Relabel := ⟨fun line => line, f⟩

/-- The same lines and the same numbers. -/
def refl : Relabel := ⟨fun line => line, fun id => id⟩

/-- One relabelling after another. -/
def trans (g h : Relabel) : Relabel where
  line := fun line => h.line (g.line line)
  number := fun id => h.number (g.number id)

end Relabel

/-- The second bound is enough for all that the first one is enough for. -/
def Suffices (exact : Prop) (n n' : Nat) : Prop :=
  n ≤ n' ∧ (exact → n' = n)

namespace Suffices

variable {exact : Prop} {n n' : Nat}

theorem refl (exact : Prop) (n : Nat) : Suffices exact n n := ⟨Nat.le_refl n, fun _ => rfl⟩

theorem exists_succ (h : Suffices exact (n + 1) n') : ∃ k, n' = k + 1 :=
  Nat.exists_eq_add_one.2 (Nat.lt_of_lt_of_le (Nat.succ_pos n) h.1)

theorem pred (h : Suffices exact (n + 1) (n' + 1)) : Suffices exact n n' :=
  ⟨Nat.le_of_succ_le_succ h.1, fun he => Nat.succ.inj (h.2 he)⟩

end Suffices

/-! ### Trees -/

def Token.relabel (g : Relabel) (t : Token) : Token :=
  { t with line := g.line t.line }

mutual

/-- The expression with other lines and numbers. -/
def Expr.relabel (g : Relabel) : Expr → Expr
  | .literal id value => .literal (g.number id) value
  | .unary id operator right => .unary (g.number id) (operator.relabel g) (right.relabel g)
  | .binary id left operator right =>
    .binary (g.number id) (left.relabel g) (operator.relabel g) (right.relabel g)
  | .grouping id inner => .grouping (g.number id) (inner.relabel g)
  | .var id name => .var (g.number id) (name.relabel g)
  | .assign id name value => .assign (g.number id) (name.relabel g) (value.relabel g)
  | .logical id left operator right =>
    .logical (g.number id) (left.relabel g) (operator.relabel g) (right.relabel g)
  | .call id callee paren arguments =>
    .call (g.number id) (callee.relabel g) (paren.relabel g) (Expr.relabelEach g arguments)
  | .get id object name => .get (g.number id) (object.relabel g) (name.relabel g)
  | .set id object name value =>
    .set (g.number id) (object.relabel g) (name.relabel g) (value.relabel g)
  | .this id keyword => .this (g.number id) (keyword.relabel g)
  | .super id keyword method => .super (g.number id) (keyword.relabel g) (method.relabel g)

/-- Expressions with other lines and numbers. -/
def Expr.relabelEach (g : Relabel) : List Expr → List Expr
  | [] => []
  | e :: rest => e.relabel g :: Expr.relabelEach g rest

end

mutual

/-- The statement with other lines and numbers. -/
def Stmt.relabel (g : Relabel) : Stmt → Stmt
  | .expression value => .expression (value.relabel g)
  | .varDecl name initializer => .varDecl (name.relabel g) (initializer.map (Expr.relabel g))
  | .block body => .block (Stmt.relabelEach g body)
  | .ifThen condition thenBranch => .ifThen (condition.relabel g) (thenBranch.relabel g)
  | .ifElse condition thenBranch elseBranch =>
    .ifElse (condition.relabel g) (thenBranch.relabel g) (elseBranch.relabel g)
  | .whileLoop condition body => .whileLoop (condition.relabel g) (body.relabel g)
  | .funDecl routine => .funDecl (routine.relabel g)
  | .returnValue keyword value => .returnValue (keyword.relabel g) (value.map (Expr.relabel g))
  | .classDecl name superclass methods =>
    .classDecl (name.relabel g) (superclass.map (Expr.relabel g)) (Routine.relabelEach g methods)

/-- Statements with other lines and numbers. -/
def Stmt.relabelEach (g : Relabel) : List Stmt → List Stmt
  | [] => []
  | s :: rest => s.relabel g :: Stmt.relabelEach g rest

/-- The function or method with other lines and numbers. -/
def Routine.relabel (g : Relabel) : Routine → Routine
  | .mk name params body =>
    .mk (name.relabel g) (params.map (Token.relabel g)) (Stmt.relabelEach g body)

/-- Methods with other lines and numbers. -/
def Routine.relabelEach (g : Relabel) : List Routine → List Routine
  | [] => []
  | r :: rest => r.relabel g :: Routine.relabelEach g rest

end

/-- The diagnostic with another line. -/
def Diagnostic.relabel (g : Relabel) : Diagnostic → Diagnostic
  | .lexical line fault => .lexical (g.line line) fault
  | .grammar token fault => .grammar (token.relabel g) fault
  | .static token fault => .static (token.relabel g) fault
  | .runtime line fault => .runtime (g.line line) fault
  | .output fault => .output fault

section

variable (g h : Relabel)

@[simp] theorem Token.relabel_kind (t : Token) : (t.relabel g).kind = t.kind := rfl

@[simp] theorem Token.relabel_lexeme (t : Token) : (t.relabel g).lexeme = t.lexeme := rfl

@[simp] theorem Token.relabel_line (t : Token) : (t.relabel g).line = g.line t.line := rfl

theorem Expr.relabelEach_eq_map (es : List Expr) :
    Expr.relabelEach g es = es.map (Expr.relabel g) := by
  induction es with
  | nil => rfl
  | cons e rest ih => rw [Expr.relabelEach, ih, List.map_cons]

theorem Stmt.relabelEach_eq_map (body : List Stmt) :
    Stmt.relabelEach g body = body.map (Stmt.relabel g) := by
  induction body with
  | nil => rfl
  | cons s rest ih => rw [Stmt.relabelEach, ih, List.map_cons]

theorem Routine.relabelEach_eq_map (methods : List Routine) :
    Routine.relabelEach g methods = methods.map (Routine.relabel g) := by
  induction methods with
  | nil => rfl
  | cons r rest ih => rw [Routine.relabelEach, ih, List.map_cons]

@[simp] theorem Routine.relabel_name (r : Routine) : (r.relabel g).name = r.name.relabel g := by
  cases r
  rfl

@[simp] theorem Routine.relabel_params (r : Routine) :
    (r.relabel g).params = r.params.map (Token.relabel g) := by
  cases r
  rfl

@[simp] theorem Routine.relabel_body (r : Routine) :
    (r.relabel g).body = Stmt.relabelEach g r.body := by
  cases r
  rfl

theorem Expr.relabel_line? : ∀ e : Expr, (e.relabel g).line? = e.line?.map g.line
  | .grouping _ inner => inner.relabel_line?
  | .literal _ _ | .unary _ _ _ | .binary _ _ _ _ | .var _ _ | .assign _ _ _ | .logical _ _ _ _
  | .call _ _ _ _ | .get _ _ _ | .set _ _ _ _ | .this _ _ | .super _ _ _ => rfl

end

/-! ### Relabellings that do the same -/

section

variable {g h : Relabel}

theorem Token.relabel_congr (hl : g.line = h.line) (t : Token) : t.relabel g = t.relabel h := by
  rw [Token.relabel, Token.relabel, hl]

mutual

/-- Only the numbers that occur matter. -/
theorem Expr.relabel_congr (hl : g.line = h.line) :
    ∀ e : Expr, (∀ id ∈ e.ids, g.number id = h.number id) → e.relabel g = e.relabel h
  | .literal id _, hn => by simp_all [Expr.relabel, Expr.ids]
  | .unary id _ right, hn => by
    simp only [Expr.ids, List.mem_cons, forall_eq_or_imp] at hn
    simp only [Expr.relabel, hn.1, Token.relabel_congr hl, right.relabel_congr hl hn.2]
  | .binary id left _ right, hn => by
    simp only [Expr.ids, List.mem_cons, forall_eq_or_imp, List.forall_mem_append] at hn
    simp only [Expr.relabel, hn.1, Token.relabel_congr hl, left.relabel_congr hl hn.2.1,
      right.relabel_congr hl hn.2.2]
  | .logical id left _ right, hn => by
    simp only [Expr.ids, List.mem_cons, forall_eq_or_imp, List.forall_mem_append] at hn
    simp only [Expr.relabel, hn.1, Token.relabel_congr hl, left.relabel_congr hl hn.2.1,
      right.relabel_congr hl hn.2.2]
  | .grouping id inner, hn => by
    simp only [Expr.ids, List.mem_cons, forall_eq_or_imp] at hn
    simp only [Expr.relabel, hn.1, inner.relabel_congr hl hn.2]
  | .var id _, hn => by simp_all [Expr.relabel, Expr.ids, Token.relabel_congr hl]
  | .assign id _ value, hn => by
    simp only [Expr.ids, List.mem_cons, forall_eq_or_imp] at hn
    simp only [Expr.relabel, hn.1, Token.relabel_congr hl, value.relabel_congr hl hn.2]
  | .call id callee _ arguments, hn => by
    simp only [Expr.ids, List.mem_cons, forall_eq_or_imp, List.forall_mem_append] at hn
    simp only [Expr.relabel, hn.1, Token.relabel_congr hl, callee.relabel_congr hl hn.2.1,
      Expr.relabelEach_congr hl arguments hn.2.2]
  | .get id object _, hn => by
    simp only [Expr.ids, List.mem_cons, forall_eq_or_imp] at hn
    simp only [Expr.relabel, hn.1, Token.relabel_congr hl, object.relabel_congr hl hn.2]
  | .set id object _ value, hn => by
    simp only [Expr.ids, List.mem_cons, forall_eq_or_imp, List.forall_mem_append] at hn
    simp only [Expr.relabel, hn.1, Token.relabel_congr hl, object.relabel_congr hl hn.2.1,
      value.relabel_congr hl hn.2.2]
  | .this id _, hn => by simp_all [Expr.relabel, Expr.ids, Token.relabel_congr hl]
  | .super id _ _, hn => by simp_all [Expr.relabel, Expr.ids, Token.relabel_congr hl]

theorem Expr.relabelEach_congr (hl : g.line = h.line) :
    ∀ es : List Expr, (∀ id ∈ Expr.idsEach es, g.number id = h.number id) →
      Expr.relabelEach g es = Expr.relabelEach h es
  | [], _ => rfl
  | e :: rest, hn => by
    simp only [Expr.idsEach, List.forall_mem_append] at hn
    rw [Expr.relabelEach, Expr.relabelEach, e.relabel_congr hl hn.1,
      Expr.relabelEach_congr hl rest hn.2]

end

theorem Expr.relabelOption_congr (hl : g.line = h.line) (e? : Option Expr)
    (hn : ∀ id ∈ Expr.idsOption e?, g.number id = h.number id) :
    e?.map (Expr.relabel g) = e?.map (Expr.relabel h) := by
  cases e? with
  | none => rfl
  | some e => exact congrArg some (e.relabel_congr hl hn)

mutual

theorem Stmt.relabel_congr (hl : g.line = h.line) :
    ∀ s : Stmt, (∀ id ∈ s.ids, g.number id = h.number id) → s.relabel g = s.relabel h
  | .expression value, hn => by
    rw [Stmt.relabel, Stmt.relabel, value.relabel_congr hl hn]
  | .varDecl name initializer, hn => by
    rw [Stmt.relabel, Stmt.relabel, Token.relabel_congr hl, Expr.relabelOption_congr hl _ hn]
  | .block body, hn => by
    rw [Stmt.relabel, Stmt.relabel, Stmt.relabelEach_congr hl body hn]
  | .ifThen condition thenBranch, hn => by
    simp only [Stmt.ids, List.forall_mem_append] at hn
    rw [Stmt.relabel, Stmt.relabel, condition.relabel_congr hl hn.1,
      thenBranch.relabel_congr hl hn.2]
  | .ifElse condition thenBranch elseBranch, hn => by
    simp only [Stmt.ids, List.forall_mem_append] at hn
    rw [Stmt.relabel, Stmt.relabel, condition.relabel_congr hl hn.1,
      thenBranch.relabel_congr hl hn.2.1, elseBranch.relabel_congr hl hn.2.2]
  | .whileLoop condition body, hn => by
    simp only [Stmt.ids, List.forall_mem_append] at hn
    rw [Stmt.relabel, Stmt.relabel, condition.relabel_congr hl hn.1, body.relabel_congr hl hn.2]
  | .funDecl routine, hn => by
    rw [Stmt.relabel, Stmt.relabel, routine.relabel_congr hl hn]
  | .returnValue keyword value, hn => by
    rw [Stmt.relabel, Stmt.relabel, Token.relabel_congr hl, Expr.relabelOption_congr hl _ hn]
  | .classDecl name superclass methods, hn => by
    simp only [Stmt.ids, List.forall_mem_append] at hn
    rw [Stmt.relabel, Stmt.relabel, Token.relabel_congr hl, Expr.relabelOption_congr hl _ hn.1,
      Routine.relabelEach_congr hl methods hn.2]

theorem Stmt.relabelEach_congr (hl : g.line = h.line) :
    ∀ body : List Stmt, (∀ id ∈ Stmt.idsEach body, g.number id = h.number id) →
      Stmt.relabelEach g body = Stmt.relabelEach h body
  | [], _ => rfl
  | s :: rest, hn => by
    simp only [Stmt.idsEach, List.forall_mem_append] at hn
    rw [Stmt.relabelEach, Stmt.relabelEach, s.relabel_congr hl hn.1,
      Stmt.relabelEach_congr hl rest hn.2]

theorem Routine.relabel_congr (hl : g.line = h.line) :
    ∀ r : Routine, (∀ id ∈ r.ids, g.number id = h.number id) → r.relabel g = r.relabel h
  | .mk name params body, hn => by
    have hparams : Token.relabel g = Token.relabel h := funext (Token.relabel_congr hl)
    rw [Routine.relabel, Routine.relabel, hparams, Stmt.relabelEach_congr hl body hn]

theorem Routine.relabelEach_congr (hl : g.line = h.line) :
    ∀ methods : List Routine, (∀ id ∈ Routine.idsEach methods, g.number id = h.number id) →
      Routine.relabelEach g methods = Routine.relabelEach h methods
  | [], _ => rfl
  | r :: rest, hn => by
    simp only [Routine.idsEach, List.forall_mem_append] at hn
    rw [Routine.relabelEach, Routine.relabelEach, r.relabel_congr hl hn.1,
      Routine.relabelEach_congr hl rest hn.2]

end

end

/-! ### The relabelling that changes nothing -/

theorem Token.relabel_refl (t : Token) : t.relabel .refl = t := rfl

theorem Token.map_relabel_refl (ts : List Token) : ts.map (Token.relabel .refl) = ts :=
  List.map_id _

mutual

theorem Expr.relabel_refl : ∀ e : Expr, e.relabel .refl = e
  | .literal _ _ | .var _ _ | .this _ _ | .super _ _ _ => rfl
  | .unary _ _ right => by
    rw [Expr.relabel, right.relabel_refl]
    rfl
  | .binary _ left _ right | .logical _ left _ right => by
    rw [Expr.relabel, left.relabel_refl, right.relabel_refl]
    rfl
  | .grouping _ inner => by
    rw [Expr.relabel, inner.relabel_refl]
    rfl
  | .assign _ _ value => by
    rw [Expr.relabel, value.relabel_refl]
    rfl
  | .call _ callee _ arguments => by
    rw [Expr.relabel, callee.relabel_refl, Expr.relabelEach_refl arguments]
    rfl
  | .get _ object _ => by
    rw [Expr.relabel, object.relabel_refl]
    rfl
  | .set _ object _ value => by
    rw [Expr.relabel, object.relabel_refl, value.relabel_refl]
    rfl

theorem Expr.relabelEach_refl : ∀ es : List Expr, Expr.relabelEach .refl es = es
  | [] => rfl
  | e :: rest => by rw [Expr.relabelEach, e.relabel_refl, Expr.relabelEach_refl rest]

end

theorem Expr.relabelOption_refl (e? : Option Expr) : e?.map (Expr.relabel .refl) = e? := by
  cases e? with
  | none => rfl
  | some e => exact congrArg some e.relabel_refl

mutual

theorem Stmt.relabel_refl : ∀ s : Stmt, s.relabel .refl = s
  | .expression value => by rw [Stmt.relabel, value.relabel_refl]
  | .varDecl name initializer => by
    rw [Stmt.relabel, Expr.relabelOption_refl, Token.relabel_refl]
  | .block body => by rw [Stmt.relabel, Stmt.relabelEach_refl body]
  | .ifThen condition thenBranch => by
    rw [Stmt.relabel, condition.relabel_refl, thenBranch.relabel_refl]
  | .ifElse condition thenBranch elseBranch => by
    rw [Stmt.relabel, condition.relabel_refl, thenBranch.relabel_refl, elseBranch.relabel_refl]
  | .whileLoop condition body => by rw [Stmt.relabel, condition.relabel_refl, body.relabel_refl]
  | .funDecl routine => by rw [Stmt.relabel, routine.relabel_refl]
  | .returnValue keyword value => by
    rw [Stmt.relabel, Expr.relabelOption_refl, Token.relabel_refl]
  | .classDecl name superclass methods => by
    rw [Stmt.relabel, Expr.relabelOption_refl, Token.relabel_refl,
      Routine.relabelEach_refl methods]

theorem Stmt.relabelEach_refl : ∀ body : List Stmt, Stmt.relabelEach .refl body = body
  | [] => rfl
  | s :: rest => by rw [Stmt.relabelEach, s.relabel_refl, Stmt.relabelEach_refl rest]

theorem Routine.relabel_refl : ∀ r : Routine, r.relabel .refl = r
  | .mk name params body => by
    rw [Routine.relabel, Token.relabel_refl, Token.map_relabel_refl, Stmt.relabelEach_refl body]

theorem Routine.relabelEach_refl :
    ∀ methods : List Routine, Routine.relabelEach .refl methods = methods
  | [] => rfl
  | r :: rest => by rw [Routine.relabelEach, r.relabel_refl, Routine.relabelEach_refl rest]

end

/-! ### One relabelling after another -/

section

variable (g h : Relabel)

theorem Token.relabel_relabel (t : Token) : (t.relabel g).relabel h = t.relabel (g.trans h) := rfl

mutual

theorem Expr.relabel_relabel : ∀ e : Expr, (e.relabel g).relabel h = e.relabel (g.trans h)
  | .literal _ _ | .var _ _ | .this _ _ | .super _ _ _ => rfl
  | .unary _ _ right => by
    simp only [Expr.relabel, right.relabel_relabel, Token.relabel_relabel]
    rfl
  | .binary _ left _ right | .logical _ left _ right => by
    simp only [Expr.relabel, left.relabel_relabel, right.relabel_relabel, Token.relabel_relabel]
    rfl
  | .grouping _ inner => by
    simp only [Expr.relabel, inner.relabel_relabel]
    rfl
  | .assign _ _ value => by
    simp only [Expr.relabel, value.relabel_relabel, Token.relabel_relabel]
    rfl
  | .call _ callee _ arguments => by
    simp only [Expr.relabel, callee.relabel_relabel, Expr.relabelEach_relabelEach arguments,
      Token.relabel_relabel]
    rfl
  | .get _ object _ => by
    simp only [Expr.relabel, object.relabel_relabel, Token.relabel_relabel]
    rfl
  | .set _ object _ value => by
    simp only [Expr.relabel, object.relabel_relabel, value.relabel_relabel, Token.relabel_relabel]
    rfl

theorem Expr.relabelEach_relabelEach :
    ∀ es : List Expr,
      Expr.relabelEach h (Expr.relabelEach g es) = Expr.relabelEach (g.trans h) es
  | [] => rfl
  | e :: rest => by
    simp only [Expr.relabelEach, e.relabel_relabel, Expr.relabelEach_relabelEach rest]

end

mutual

theorem Stmt.relabel_relabel : ∀ s : Stmt, (s.relabel g).relabel h = s.relabel (g.trans h)
  | .expression value => by simp only [Stmt.relabel, value.relabel_relabel]
  | .varDecl _ initializer => by
    simp [Stmt.relabel, Function.comp_def, Expr.relabel_relabel, Token.relabel_relabel]
  | .block body => by simp only [Stmt.relabel, Stmt.relabelEach_relabelEach body]
  | .ifThen condition thenBranch => by
    simp only [Stmt.relabel, condition.relabel_relabel, thenBranch.relabel_relabel]
  | .ifElse condition thenBranch elseBranch => by
    simp only [Stmt.relabel, condition.relabel_relabel, thenBranch.relabel_relabel,
      elseBranch.relabel_relabel]
  | .whileLoop condition body => by
    simp only [Stmt.relabel, condition.relabel_relabel, body.relabel_relabel]
  | .funDecl routine => by simp only [Stmt.relabel, routine.relabel_relabel]
  | .returnValue _ value => by
    simp [Stmt.relabel, Function.comp_def, Expr.relabel_relabel, Token.relabel_relabel]
  | .classDecl _ superclass methods => by
    simp [Stmt.relabel, Function.comp_def, Expr.relabel_relabel, Token.relabel_relabel,
      Routine.relabelEach_relabelEach methods]

theorem Stmt.relabelEach_relabelEach :
    ∀ body : List Stmt,
      Stmt.relabelEach h (Stmt.relabelEach g body) = Stmt.relabelEach (g.trans h) body
  | [] => rfl
  | s :: rest => by
    simp only [Stmt.relabelEach, s.relabel_relabel, Stmt.relabelEach_relabelEach rest]

theorem Routine.relabel_relabel :
    ∀ r : Routine, (r.relabel g).relabel h = r.relabel (g.trans h)
  | .mk _ params body => by
    simp [Routine.relabel, Function.comp_def, Token.relabel_relabel,
      Stmt.relabelEach_relabelEach body]

theorem Routine.relabelEach_relabelEach :
    ∀ methods : List Routine,
      Routine.relabelEach h (Routine.relabelEach g methods) = Routine.relabelEach (g.trans h) methods
  | [] => rfl
  | r :: rest => by
    simp only [Routine.relabelEach, r.relabel_relabel, Routine.relabelEach_relabelEach rest]

end

end

/-! ### Trees that are alike -/

@[simp] theorem Relabel.numbers_number (f : Nat → Nat) (id : Nat) :
    (Relabel.numbers f).number id = f id := rfl

/-- The same expression but for the numbers. -/
def Expr.Alike (e e' : Expr) : Prop :=
  e.relabel (.numbers fun _ => 0) = e'.relabel (.numbers fun _ => 0)

/-- The same expressions but for the numbers. -/
def Expr.AlikeEach (es es' : List Expr) : Prop :=
  Expr.relabelEach (.numbers fun _ => 0) es = Expr.relabelEach (.numbers fun _ => 0) es'

/-- The same but for the numbers, or both missing. -/
def Expr.AlikeOption (e? e'? : Option Expr) : Prop :=
  e?.map (Expr.relabel (.numbers fun _ => 0)) = e'?.map (Expr.relabel (.numbers fun _ => 0))

/-- The same statement but for the numbers. -/
def Stmt.Alike (s s' : Stmt) : Prop :=
  s.relabel (.numbers fun _ => 0) = s'.relabel (.numbers fun _ => 0)

/-- The same statements but for the numbers. -/
def Stmt.AlikeEach (body body' : List Stmt) : Prop :=
  Stmt.relabelEach (.numbers fun _ => 0) body = Stmt.relabelEach (.numbers fun _ => 0) body'

/-- The same function or method but for the numbers. -/
def Routine.Alike (r r' : Routine) : Prop :=
  r.relabel (.numbers fun _ => 0) = r'.relabel (.numbers fun _ => 0)

/-- The same methods but for the numbers. -/
def Routine.AlikeEach (rs rs' : List Routine) : Prop :=
  Routine.relabelEach (.numbers fun _ => 0) rs = Routine.relabelEach (.numbers fun _ => 0) rs'

end Lox
