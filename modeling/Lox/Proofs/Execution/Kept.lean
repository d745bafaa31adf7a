import Lox.Proofs.Execution.Invariant

/-!
Runs keep invariants. If their code satisfies an invariant, then whatever the table of distances says,
the evaluation of an expression and the execution of a statement keep the invariant wherever their
environment satisfies it, give only values that satisfy it, and leave the machine in the environment it
was in (`Invariant.keeps`), also if a watch stops them (`Invariant.keeps_watched`). A call needs no more
than that the callee and the arguments satisfy the invariant, wherever the machine is
(`Invariant.Keeps.call`).
-/

namespace Lox

namespace Invariant

section

variable (I : Invariant)

/-- Expressions are evaluated so that the invariant is kept. -/
def Evaluates (eval : Expr → Run Lox.Value) : Prop :=
  ∀ env, I.environment env → ∀ e, I.code.expr e → ∀ st, Keeps I st env (eval e) I.Value

/-- Statements are executed so that the invariant is kept. -/
def Executes (exec : Stmt → Run Lox.Completion) : Prop :=
  ∀ env, I.environment env → ∀ s, I.code.stmt s → ∀ st, Keeps I st env (exec s) I.Completion

end

namespace Keeps

variable {I : Invariant} {st : Store} {env : Environment} {exec : Stmt → Run Lox.Completion}

/-! ### Calls -/

/-- Statements are executed one after the other. -/
theorem executeEach (hx : I.Executes exec) (henv : I.environment env) {body : List Stmt}
    (hbody : ∀ s ∈ body, I.code.stmt s) :
    Keeps I st env (Lox.executeEach exec body) I.Completion := by
  induction body generalizing st with
  | nil => exact .pure trivial
  | cons s rest ih =>
    refine (hx env henv s (hbody s List.mem_cons_self) st).bind fun st' c _ hc => ?_
    cases c with
    | normal => exact ih fun t ht => hbody t (List.mem_cons_of_mem s ht)
    | returned v => exact .pure hc

/-- The scope of a call binds nothing but arguments. -/
theorem mem_of_frame {c : Closure} {arguments : List Lox.Value} {name : String} {v : Lox.Value}
    (h : (c.frame arguments).get? name = some v) : v ∈ arguments := by
  rw [Closure.frame, Bindings.get?_foldl_set_eq_find?, Bindings.get?_nil, Option.or_none,
    Option.map_eq_some_iff] at h
  obtain ⟨entry, hentry, rfl⟩ := h
  exact (List.of_mem_zip (List.mem_reverse.1 (List.mem_of_find?_eq_some hentry))).2

section

-- The statements of the body are executed wherever the function was declared.
variable (hx : I.Executes exec)

include hx

theorem callClosure {c : Closure} (hc : c.Satisfies I.code I.environment)
    {arguments : List Lox.Value} (ha : ∀ v ∈ arguments, I.Value st v) (line : Nat) :
    Keeps I st env (c.call (Lox.executeEach exec) arguments line) I.Value := by
  obtain ⟨henv, hcode⟩ := hc
  refine (extend henv fun n v hv => ha v (mem_of_frame (c := c) hv)).bind
    fun st₁ inside _ hinside => ?_
  have hbody : Keeps I st₁ env (Run.within inside (Lox.executeEach exec c.routine.body))
      I.Completion := (executeEach hx hinside (I.code.body hcode)).within
  refine hbody.bind fun st₂ completion _ hcompletion => ?_
  split
  · exact getAt henv 0 "this" line
  · cases completion with
    | normal => exact .pure trivial
    | returned v => exact .pure hcompletion

omit hx in
/-- A method is bound to an object. -/
theorem bindMethod {c : Closure} (hc : c.Satisfies I.code I.environment) {v : Lox.Value}
    (hv : I.Value st v) :
    Keeps I st env (c.bind v) fun _ bound => bound.Satisfies I.code I.environment :=
  (extend_one hc.1 hv).bind fun _ _ _ hinside => .pure ⟨hinside, hc.2⟩

theorem instantiate {c : Class} (hc : c.Satisfies I.code I.environment)
    {arguments : List Lox.Value} (ha : ∀ v ∈ arguments, I.Value st v) (line : Nat) :
    Keeps I st env (c.instantiate (Lox.executeEach exec) arguments line) I.Value := by
  refine newObject.bind fun st₁ id hle₁ hid => ?_
  have hobject : I.Value st₁ (.object id c) := ⟨hid, hc⟩
  cases hm : c.initializer? with
  | none => exact .pure hobject
  | some initializer =>
    refine (bindMethod (hc.function hm) hobject).bind fun st₂ bound hle₂ hbound => ?_
    have ha₂ : ∀ v ∈ arguments, I.Value st₂ v := fun v hv => (ha v hv).later (I.le_trans hle₁ hle₂)
    refine (callClosure hx hbound ha₂ line).bind fun st₃ _ hle₃ _ => ?_
    exact .pure (hobject.later (I.le_trans hle₂ hle₃))

omit hx in
theorem withArity (arity : Nat) (arguments : List Lox.Value) (line : Nat) {call : Run Lox.Value}
    (h : Keeps I st env call I.Value) :
    Keeps I st env (Run.withArity arity arguments line call) I.Value := by
  unfold Run.withArity
  split
  · exact h
  · exact .fail line _

/-- A value is called, whatever the environment of the caller is. -/
theorem call {callee : Lox.Value} (hcallee : I.Value st callee) {arguments : List Lox.Value}
    (ha : ∀ v ∈ arguments, I.Value st v) (line : Nat) :
    Keeps I st env (callee.call (Lox.executeEach exec) arguments line) I.Value := by
  cases callee with
  | native host => exact withArity _ _ line (callNative host arguments line)
  | function id c => exact withArity _ _ line (callClosure hx hcallee ha line)
  | classOf id c => exact withArity _ _ line (instantiate hx hcallee ha line)
  | _ => exact .fail line _

end

/-! ### Properties -/

theorem boundMethod {c : Class} (hc : c.Satisfies I.code I.environment) (name : Token)
    {v : Lox.Value} (hv : I.Value st v) : Keeps I st env (c.boundMethod name v) I.Value := by
  unfold Class.boundMethod
  cases hm : c.method? name.lexeme with
  | none => exact .fail name.line _
  | some method =>
    refine (bindMethod (hc.function hm) hv).bind fun st₁ bound _ hbound => ?_
    exact newIdentity.bind fun _ _ _ _ => .pure hbound

theorem property {v : Lox.Value} (hv : I.Value st v) (name : Token) :
    Keeps I st env (v.property name) I.Value := by
  cases v with
  | object id c =>
    refine (field? hv.1 name.lexeme).bind fun st₁ field hle hfield => ?_
    cases field with
    | none => exact boundMethod hv.2 name (hv.later hle)
    | some u => exact .pure (hfield u rfl)
  | _ => exact .fail name.line _

theorem superMethod (henv : I.environment env) (id : Nat) (keyword method : Token) :
    Keeps I st env (Lox.superMethod id keyword method) I.Value := by
  refine (distance? id).bind fun st₁ distance _ _ => ?_
  cases distance with
  | none => exact .fail keyword.line _
  | some distance =>
    refine environment.bind fun st₂ e _ he => ?_
    subst he
    refine (getAt henv distance "super" keyword.line).bind fun st₃ ancestor _ hancestor => ?_
    cases ancestor with
    | classOf _ c =>
      refine (getAt henv (distance - 1) "this" keyword.line).bind fun st₄ object _ hobject => ?_
      cases object with
      | object id d => exact boundMethod hancestor method hobject
      | _ => exact .fail keyword.line _
    | _ => exact .fail keyword.line _

/-! ### Declarations -/

theorem declareFunction (henv : I.environment env) {routine : Routine}
    (hn : I.code.name routine.name.lexeme) (hcode : I.code.function false routine) :
    Keeps I st env (Lox.declareFunction routine) fun _ _ => True := by
  refine environment.bind fun st₁ e _ he => newIdentity.bind fun st₂ id _ _ => ?_
  subst he
  exact define henv hn ⟨henv, hcode⟩

theorem asSuperclass (line : Nat) {v : Lox.Value} (hv : I.Value st v) :
    Keeps I st env (Lox.asSuperclass line v) fun st' p =>
      I.Value st' p.1 ∧ p.2.Satisfies I.code I.environment := by
  cases v with
  | classOf id c => exact .pure ⟨hv, hv⟩
  | _ => exact .fail line _

theorem declareClass (henv : I.environment env) {name : Token} (hn : I.code.name name.lexeme)
    {superclass : Option (Lox.Value × Class)}
    (hs : ∀ p, superclass = some p → I.Value st p.1 ∧ p.2.Satisfies I.code I.environment)
    {methods : List Routine}
    (hm : ∀ r ∈ methods, I.code.method r.name.lexeme r.isInitializer r) :
    Keeps I st env (Lox.declareClass name superclass methods) fun _ _ => True := by
  -- The class, once it is known in which environment its methods are declared.
  have hclass : ∀ st inside inherited, I.environment inside →
      Class.Satisfies I.code I.environment ⟨name.lexeme, inherited⟩ →
      Keeps I st env (Run.newIdentity >>= fun id =>
        Run.define name.lexeme (.classOf id ⟨name.lexeme, methodLayer inside methods :: inherited⟩))
        fun _ _ => True := by
    intro st inside inherited hinside hinherited
    refine newIdentity.bind fun _ id _ _ => define henv hn ?_
    exact Class.satisfies_declared hinside hm hinherited
  refine (define henv hn (I.value_nil st)).bind fun st₁ _ hle₁ _ => ?_
  refine environment.bind fun st₂ outer hle₂ he => ?_
  subst he
  cases superclass with
  | none =>
    refine (Keeps.pure henv).bind fun st₃ inside _ hinside => hclass st₃ inside [] hinside ?_
    intro layer hlayer
    cases hlayer
  | some p =>
    obtain ⟨hvalue, hdescription⟩ := hs p rfl
    refine (extend_one henv (hvalue.later (I.le_trans hle₁ hle₂))).bind
      fun st₃ inside _ hinside => ?_
    exact hclass st₃ inside p.2.layers hinside hdescription

/-! ### Expressions and statements -/

section

variable {eval : Expr → Run Lox.Value} (hv : I.Evaluates eval) (hx : I.Executes exec)

include hv hx

theorem evaluateBy (henv : I.environment env) {e : Expr} (he : I.code.expr e) :
    Keeps I st env (e.evaluateBy eval exec) I.Value := by
  have hv' (inner : Expr) (hmem : inner ∈ e.inner) (st : Store) :
      Keeps I st env (eval inner) I.Value := hv env henv inner (I.code.inner he hmem) st
  cases e with
  | literal id value => exact .pure (Value.satisfies_ofLiteral value)
  | grouping id inner => exact hv' inner (by simp [Expr.inner]) st
  | unary id operator right =>
    refine (hv' right (by simp [Expr.inner]) st).bind fun st₁ a _ _ => ?_
    exact .ofExcept operator.line fun v h => Value.satisfies_unary h
  | binary id left operator right =>
    refine (hv' left (by simp [Expr.inner]) st).bind fun st₁ a _ _ => ?_
    refine (hv' right (by simp [Expr.inner]) st₁).bind fun st₂ b _ _ => ?_
    exact .ofExcept operator.line fun v h => Value.satisfies_binary h
  | logical id left operator right =>
    refine (hv' left (by simp [Expr.inner]) st).bind fun st₁ v _ hleft => ?_
    split
    · exact .pure hleft
    · exact hv' right (by simp [Expr.inner]) st₁
  | var id name => exact lookUp henv id name
  | this id keyword => exact lookUp henv id keyword
  | assign id name value =>
    refine (hv' value (by simp [Expr.inner]) st).bind fun st₁ v _ hvalue => ?_
    refine (assign henv id (I.code.assigned he) hvalue).bind fun st₂ _ hle _ => ?_
    exact .pure (hvalue.later hle)
  | call id callee paren arguments =>
    refine (hv' callee (by simp [Expr.inner]) st).bind fun st₁ v _ hcallee => ?_
    refine (mapM (fun hle h => h.later hle) arguments fun e he =>
      hv' e (List.mem_cons_of_mem callee he)).bind fun st₂ args hle hargs => ?_
    exact call hx (hcallee.later hle) hargs paren.line
  | get id object name =>
    exact (hv' object (by simp [Expr.inner]) st).bind fun st₁ v _ hobject => property hobject name
  | set id object name value =>
    refine (hv' object (by simp [Expr.inner]) st).bind fun st₁ v _ hobject => ?_
    cases v with
    | object place c =>
      refine (hv' value (by simp [Expr.inner]) st₁).bind fun st₂ u hle hvalue => ?_
      have hplace := I.object_mono hle hobject.1
      refine (setField hplace name.lexeme hvalue).bind fun st₃ _ hle' _ => ?_
      exact .pure (hvalue.later hle')
    | _ => exact .fail name.line _
  | super id keyword method => exact superMethod henv id keyword method

omit hv hx in
theorem executeWhile {condition : Run Lox.Value} {body : Run Lox.Completion}
    (hcondition : ∀ st, Keeps I st env condition I.Value)
    (hbody : ∀ st, Keeps I st env body I.Completion) (rounds : Nat) :
    Keeps I st env (Lox.executeWhile condition body rounds) I.Completion := by
  induction rounds generalizing st with
  | zero => exact .stop .outOfFuel
  | succ rounds ih =>
    refine (hcondition st).bind fun st₁ v _ _ => ?_
    split
    · refine (hbody st₁).bind fun st₂ c _ hc => ?_
      cases c with
      | normal => exact ih
      | returned v => exact .pure hc
    · exact .pure trivial

theorem executeBy (henv : I.environment env) (rounds : Nat) {s : Stmt} (hs : I.code.stmt s) :
    Keeps I st env (s.executeBy eval exec rounds) I.Completion := by
  have hv' (e : Expr) (hmem : e ∈ s.evaluated) (st : Store) : Keeps I st env (eval e) I.Value :=
    hv env henv e (I.code.evaluated hs hmem) st
  have hx' (t : Stmt) (hmem : t ∈ s.executed) (st : Store) :
      Keeps I st env (exec t) I.Completion := hx env henv t (I.code.executed hs hmem) st
  cases s with
  | expression value =>
    exact (hv' value (by simp [Stmt.evaluated]) st).bind fun _ _ _ _ => .pure trivial
  | varDecl name initializer =>
    have hrest (st : Store) (v : Lox.Value) (h : I.Value st v) : Keeps I st env
        (Run.define name.lexeme v >>= fun _ => pure .normal) I.Completion :=
      (define henv (I.code.varDeclared hs) h).bind fun _ _ _ _ => .pure trivial
    cases initializer with
    | none => exact (Keeps.pure (I.value_nil st)).bind fun st₁ v _ h => hrest st₁ v h
    | some e =>
      exact (hv' e (by simp [Stmt.evaluated]) st).bind fun st₁ v _ h => hrest st₁ v h
  | block body =>
    refine environment.bind fun st₁ e _ he => ?_
    subst he
    refine (extend henv fun _ _ h => by cases h).bind fun st₂ inside _ hinside => ?_
    exact (executeEach hx hinside fun t ht => I.code.executed hs ht).within
  | ifThen condition thenBranch =>
    refine (hv' condition (by simp [Stmt.evaluated]) st).bind fun st₁ v _ _ => ?_
    split
    · exact hx' thenBranch (by simp [Stmt.executed]) st₁
    · exact .pure trivial
  | ifElse condition thenBranch elseBranch =>
    refine (hv' condition (by simp [Stmt.evaluated]) st).bind fun st₁ v _ _ => ?_
    split
    · exact hx' thenBranch (by simp [Stmt.executed]) st₁
    · exact hx' elseBranch (by simp [Stmt.executed]) st₁
  | whileLoop condition body =>
    exact executeWhile (hv' condition (by simp [Stmt.evaluated]))
      (hx' body (by simp [Stmt.executed])) rounds
  | funDecl routine =>
    obtain ⟨hn, hcode⟩ := I.code.funDeclared hs
    exact (declareFunction henv hn hcode).bind fun _ _ _ _ => .pure trivial
  | returnValue keyword value =>
    cases value with
    | none => exact .pure trivial
    | some e => exact (hv' e (by simp [Stmt.evaluated]) st).bind fun _ _ _ h => .pure h
  | classDecl name superclass methods =>
    obtain ⟨hn, hm⟩ := I.code.classDeclared hs
    have hrest (st : Store) (p : Option (Lox.Value × Class))
        (hp : ∀ q, p = some q → I.Value st q.1 ∧ q.2.Satisfies I.code I.environment) :
        Keeps I st env (Lox.declareClass name p methods >>= fun _ => pure .normal) I.Completion :=
      (declareClass henv hn hp hm).bind fun _ _ _ _ => .pure trivial
    cases superclass with
    | none =>
      have hnone : Keeps I st env (pure none : Run (Option (Lox.Value × Class)))
          fun _ p => p = none := .pure rfl
      refine hnone.bind fun st₁ p _ hp => hrest st₁ p ?_
      intro q hq
      rw [hp] at hq
      cases hq
    | some e =>
      have hancestor : Keeps I st env
          (eval e >>= Lox.asSuperclass (e.line?.getD name.line))
          (fun st' p => ∀ q, some p = some q →
            I.Value st' q.1 ∧ q.2.Satisfies I.code I.environment) := by
        refine (hv' e (by simp [Stmt.evaluated]) st).bind fun st₁ v _ hvalue => ?_
        refine (asSuperclass _ hvalue).conseq fun st₂ p _ hp q hq => ?_
        cases hq
        exact hp
      exact hancestor.map.bind fun st₁ p _ hp => hrest st₁ p hp

end

end Keeps

/-! ### Programs -/

section

variable (I : Invariant) (fuel : Nat)

/-- Expressions and statements of this code keep an invariant that their environment satisfies. -/
theorem keeps : I.Evaluates (evaluate fuel) ∧ I.Executes (execute fuel) := by
  induction fuel with
  | zero => exact ⟨fun _ _ _ _ _ => .stop .outOfFuel, fun _ _ _ _ _ => .stop .outOfFuel⟩
  | succ fuel ih =>
    obtain ⟨hv, hx⟩ := ih
    exact ⟨fun _ henv _ he _ => .evaluateBy hv hx henv he,
      fun _ henv _ hs _ => .executeBy hv hx henv fuel hs⟩

/-- They do so up to where a watch stops them. -/
theorem keeps_watched (k : Watch) : I.Evaluates (k.evaluate fuel) ∧ I.Executes (k.execute fuel) := by
  induction fuel with
  | zero => exact ⟨fun _ _ _ _ _ => .stop .outOfFuel, fun _ _ _ _ _ => .stop .outOfFuel⟩
  | succ fuel ih =>
    obtain ⟨hv, hx⟩ := ih
    refine ⟨fun env henv e he st => ?_, fun _ henv _ hs _ => .executeBy hv hx henv fuel hs⟩
    have hcheck : Keeps I st env (k.check e) fun _ _ => True := by
      refine .of_steady (fun m => ?_) (fun m => ?_) fun _ _ _ _ _ _ => trivial
      · unfold Watch.check
        split <;> rfl
      · unfold Watch.check
        split <;> rfl
    exact hcheck.bind fun _ _ _ _ => .evaluateBy hv hx henv he

variable {I} {fuel}

/-- So does a whole program. -/
theorem Executes.program {exec : Stmt → Run Lox.Completion} (hx : I.Executes exec)
    {env : Environment} (henv : I.environment env) {p : Program} (hp : ∀ s ∈ p, I.code.stmt s)
    (st : Store) : Keeps I st env (p.forM fun s => discard (exec s)) fun _ _ => True := by
  refine .forM p fun s hs st => ?_
  exact ((hx env henv s (hp s hs) st).conseq fun _ _ _ _ => trivial).map

end

end Invariant

end Lox
