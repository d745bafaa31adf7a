import Lox.Proofs.Execution.Follows
import Lox.Proofs.Execution.Runs

/-!
Programs with other code run as the programs do. Each construct of the language follows if the evaluations
and executions in it do, and so, by induction on the fuel, all expressions and statements (`follows`), also
with more fuel. Where a list of statements is shorter, its last one is a `return`, after which the longer
list goes on no further (`execute_returns`).
-/

namespace Lox

section

variable (g : Recoding) (exact : Prop)

/-- Expressions with other lines and numbers are evaluated as the expressions are. -/
def EvaluateFollows (evaluate evaluate' : Expr → Run Value) : Prop :=
  ∀ e, Follows g exact (Value.recode g) (evaluate e) (evaluate' (e.relabel g.toRelabel))

/-- Statements with other code are executed as the statements are, and a `return` does not let the
statement after it be next. -/
structure ExecuteFollows (execute execute' : Stmt → Run Completion) : Prop where
  stmt : ∀ s, Follows g exact (Completion.recode g) (execute s) (execute' (g.stmt s))
  returns : ∀ s, s.isReturn = true → ∀ m n, execute s m ≠ .ok .normal n

end

namespace Follows

variable {g : Recoding} {exact : Prop} {evaluate evaluate' : Expr → Run Value}
  {execute execute' : Stmt → Run Completion}

/-- Statements are executed one after the other. Those after a `return` may be missing. -/
theorem executeEach (hx : ExecuteFollows g exact execute execute') (body : List Stmt) :
    Follows g exact (Completion.recode g) (Lox.executeEach execute body)
      (Lox.executeEach execute' (g.body body)) := by
  induction body with
  | nil =>
    rw [g.body_nil]
    exact .pure rfl
  | cons s rest ih =>
    rcases g.body_cons s rest with hbody | ⟨hs, hbody⟩
    · rw [hbody]
      refine (hx.stmt s).bind fun c => ?_
      cases c with
      | normal => exact ih
      | returned v => exact .pure rfl
    · rw [hbody]
      refine (hx.stmt s).bind_of_ok fun c m n hc => ?_
      cases c with
      | normal => exact absurd hc (hx.returns s hs m n)
      | returned v => exact .pure rfl

/-! ### Calls -/

theorem callClosure (hx : ExecuteFollows g exact execute execute') (c : Closure)
    (arguments : List Value) (line : Nat) :
    Follows g exact (Value.recode g) (c.call (Lox.executeEach execute) arguments line)
      ((c.recode g).call (Lox.executeEach execute') (arguments.map (Value.recode g))
        (g.line line)) := by
  unfold Closure.call
  rw [Closure.recode_frame]
  refine (Follows.extend _ _).bind fun environment => ?_
  have hbody := Follows.executeEach hx c.routine.body
  rw [← g.routine_body] at hbody
  refine (hbody.within environment).bind fun completion => ?_
  show Follows g exact _ (if c.isInitializer = true then _ else _)
    (if c.isInitializer = true then _ else _)
  split
  · exact .getAt _ _ _ line
  · cases completion with
    | normal => exact .pure rfl
    | returned v => exact .pure rfl

theorem bindMethod (c : Closure) (object : Value) :
    Follows g exact (Closure.recode g) (c.bind object) ((c.recode g).bind (object.recode g)) :=
  (Follows.extend c.environment [("this", object)]).bind fun _ => .pure rfl

theorem instantiate (hx : ExecuteFollows g exact execute execute') (c : Class)
    (arguments : List Value) (line : Nat) :
    Follows g exact (Value.recode g) (c.instantiate (Lox.executeEach execute) arguments line)
      ((c.recode g).instantiate (Lox.executeEach execute') (arguments.map (Value.recode g))
        (g.line line)) := by
  refine Follows.newObject.bind fun id => ?_
  rw [Class.initializer?_recode]
  cases c.initializer? with
  | none => exact .pure rfl
  | some initializer =>
    refine (Follows.bindMethod initializer (.object id c)).bind fun bound => ?_
    exact (Follows.callClosure hx bound arguments line).bind fun _ => .pure rfl

theorem print (text : String) (line : Nat) :
    Follows g exact (Value.recode g) (Run.ofHost (Host.print text line >>= fun _ => pure .nil))
      (Run.ofHost (Host.print text (g.line line) >>= fun _ => pure (.nil : Value))) := by
  refine ofHost fun host => ?_
  simp only [Bind.bind, EStateM.bind, Host.print]
  cases (host.console.print text).1 <;> rfl

theorem callNative (native : Native) (arguments : List Value) (line : Nat) :
    Follows g exact (Value.recode g) (Run.ofHost (native.call arguments line))
      (Run.ofHost (native.call (arguments.map (Value.recode g)) (g.line line))) := by
  have harg : (arguments.map (Value.recode g)).headD .nil
      = (arguments.headD .nil).recode g := by
    cases arguments <;> rfl
  unfold Native.call
  rw [harg]
  generalize arguments.headD .nil = argument
  cases native with
  | clock => exact ofHost fun host => rfl
  | print =>
    dsimp only
    rw [Value.recode_display]
    exact .print _ line
  | println =>
    dsimp only
    rw [Value.recode_display]
    exact .print _ line
  | readln =>
    refine ofHost fun host => ?_
    simp only [Bind.bind, EStateM.bind, Host.readLine]
    cases host.console.readLine.1 <;> rfl
  | parseNum =>
    refine ofHost fun host => ?_
    dsimp only
    rw [Value.recode_parseNum]
    cases argument.parseNum <;> rfl

theorem withArity (arity : Nat) (arguments : List Value) (line : Nat) {call call' : Run Value}
    (h : Follows g exact (Value.recode g) call call') :
    Follows g exact (Value.recode g) (Run.withArity arity arguments line call)
      (Run.withArity arity (arguments.map (Value.recode g)) (g.line line) call') := by
  unfold Run.withArity
  rw [List.length_map]
  split
  · exact h
  · exact .fail line _

theorem call (hx : ExecuteFollows g exact execute execute') (callee : Value)
    (arguments : List Value) (line : Nat) :
    Follows g exact (Value.recode g) (callee.call (Lox.executeEach execute) arguments line)
      ((callee.recode g).call (Lox.executeEach execute') (arguments.map (Value.recode g))
        (g.line line)) := by
  cases callee with
  | native host => exact .withArity _ _ line (.callNative host arguments line)
  | function id c =>
    simp only [Value.call, Value.recode, Closure.recode_arity]
    exact .withArity _ _ line (.callClosure hx c arguments line)
  | classOf id c =>
    simp only [Value.call, Value.recode, Class.recode_arity]
    exact .withArity _ _ line (.instantiate hx c arguments line)
  | _ => exact .fail line _

/-! ### Properties -/

theorem boundMethod (c : Class) (name : Token) (object : Value) :
    Follows g exact (Value.recode g) (c.boundMethod name object)
      ((c.recode g).boundMethod (name.relabel g.toRelabel) (object.recode g)) := by
  unfold Class.boundMethod
  rw [Token.relabel_lexeme, Class.method?_recode]
  cases c.method? name.lexeme with
  | none => exact .fail name.line _
  | some method =>
    refine (Follows.bindMethod method object).bind fun bound => ?_
    exact Follows.newIdentity.bind fun id => .pure rfl

theorem property (v : Value) (name : Token) :
    Follows g exact (Value.recode g) (v.property name)
      ((v.recode g).property (name.relabel g.toRelabel)) := by
  cases v with
  | object id c =>
    refine (Follows.field? id name.lexeme).bind fun field => ?_
    cases field with
    | none => exact .boundMethod c name (.object id c)
    | some field => exact .pure rfl
  | _ => exact .fail name.line _

theorem superMethod (id : Nat) (keyword method : Token) :
    Follows g exact (Value.recode g) (Lox.superMethod id keyword method)
      (Lox.superMethod (g.number id) (keyword.relabel g.toRelabel) (method.relabel g.toRelabel)) := by
  refine (Follows.distance? id).bind fun distance => ?_
  cases distance with
  | none => exact .fail keyword.line _
  | some distance =>
    refine Follows.environment.bind fun environment => ?_
    refine (Follows.getAt environment distance "super" keyword.line).bind fun ancestor => ?_
    cases ancestor with
    | classOf _ ancestor =>
      refine (Follows.getAt environment (distance - 1) "this" keyword.line).bind fun object => ?_
      cases object with
      | object id c => exact .boundMethod ancestor method (.object id c)
      | _ => exact .fail keyword.line _
    | _ => exact .fail keyword.line _

/-! ### Declarations -/

theorem declareFunction (routine : Routine) :
    Follows g exact (fun u : Unit => u) (Lox.declareFunction routine)
      (Lox.declareFunction (g.routine routine)) := by
  unfold Lox.declareFunction
  rw [Recoding.routine_name]
  refine Follows.environment.bind fun environment => Follows.newIdentity.bind fun id => ?_
  exact .define _ (.function id ⟨routine, environment, false⟩)

/-- A superclass and its value with other code. -/
def recodeSuperclass (g : Recoding) (p : Value × Class) : Value × Class :=
  (p.1.recode g, p.2.recode g)

theorem declareClass (name : Token) (superclass : Option (Value × Class))
    (methods : List Routine) :
    Follows g exact (fun u : Unit => u) (Lox.declareClass name superclass methods)
      (Lox.declareClass (name.relabel g.toRelabel) (superclass.map (recodeSuperclass g))
        (methods.map g.routine)) := by
  have hrest : ∀ (environment : Environment) (layers : List (Bindings Closure)),
      Follows g exact (fun u : Unit => u)
        (Run.newIdentity >>= fun id => Run.define name.lexeme
          (.classOf id ⟨name.lexeme, methodLayer environment methods :: layers⟩))
        (Run.newIdentity >>= fun id => Run.define name.lexeme
          (.classOf id ⟨name.lexeme, methodLayer environment (methods.map g.routine)
            :: layers.map (Bindings.mapValues (Closure.recode g))⟩)) := by
    intro environment layers
    rw [recode_methodLayer]
    exact Follows.newIdentity.bind fun id =>
      .define _ (.classOf id ⟨name.lexeme, methodLayer environment methods :: layers⟩)
  refine (Follows.define name.lexeme .nil).bind fun _ => Follows.environment.bind fun outer => ?_
  cases superclass with
  | none => exact (Follows.pure rfl).bind fun environment => hrest environment []
  | some p =>
    refine (Follows.extend outer [("super", p.1)]).bind fun environment => ?_
    exact hrest environment p.2.layers

theorem asSuperclass (line : Nat) (v : Value) :
    Follows g exact (recodeSuperclass g) (Lox.asSuperclass line v)
      (Lox.asSuperclass (g.line line) (v.recode g)) := by
  cases v with
  | classOf id c => exact .pure rfl
  | _ => exact .fail line _

/-! ### Expressions -/

theorem evaluateBy (hv : EvaluateFollows g exact evaluate evaluate')
    (hx : ExecuteFollows g exact execute execute') (e : Expr) :
    Follows g exact (Value.recode g) (e.evaluateBy evaluate execute)
      ((e.relabel g.toRelabel).evaluateBy evaluate' execute') := by
  cases e with
  | literal id value => exact .pure (Value.recode_ofLiteral g value).symm
  | grouping id inner => exact hv inner
  | unary id operator right =>
    refine (hv right).bind fun v => ?_
    rw [Value.recode_unary]
    exact .ofExcept operator.line _
  | binary id left operator right =>
    refine (hv left).bind fun a => (hv right).bind fun b => ?_
    rw [Value.recode_binary]
    exact .ofExcept operator.line _
  | logical id left operator right =>
    refine (hv left).bind fun v => ?_
    rw [Value.recode_decides]
    split
    · exact .pure rfl
    · exact hv right
  | var id name => exact .lookUp id name
  | this id keyword => exact .lookUp id keyword
  | assign id name value =>
    exact (hv value).bind fun v => (Follows.assign id name v).bind fun _ => .pure rfl
  | call id callee paren arguments =>
    refine (hv callee).bind fun v => ?_
    rw [Expr.relabelEach_eq_map]
    refine (Follows.mapM (Expr.relabel g.toRelabel) arguments fun e _ => hv e).bind fun args => ?_
    exact .call hx v args paren.line
  | get id object name => exact (hv object).bind fun v => .property v name
  | set id object name value =>
    refine (hv object).bind fun v => ?_
    cases v with
    | object place c =>
      exact (hv value).bind fun u => (Follows.setField place name.lexeme u).bind fun _ => .pure rfl
    | _ => exact .fail name.line _
  | super id keyword method => exact .superMethod id keyword method

/-! ### Statements -/

theorem executeWhile {condition condition' : Run Value} {body body' : Run Completion}
    (hcondition : Follows g exact (Value.recode g) condition condition')
    (hbody : Follows g exact (Completion.recode g) body body') {rounds rounds' : Nat}
    (hrounds : Suffices exact rounds rounds') :
    Follows g exact (Completion.recode g) (Lox.executeWhile condition body rounds)
      (Lox.executeWhile condition' body' rounds') := by
  induction rounds generalizing rounds' with
  | zero => exact .outOfFuel fun he => by rw [hrounds.2 he]; rfl
  | succ rounds ih =>
    obtain ⟨rounds', rfl⟩ := hrounds.exists_succ
    refine hcondition.bind fun v => ?_
    rw [Value.recode_isTruthy]
    split
    · refine hbody.bind fun c => ?_
      cases c with
      | normal => exact ih hrounds.pred
      | returned v => exact .pure rfl
    · exact .pure rfl

theorem executeBy (hv : EvaluateFollows g exact evaluate evaluate')
    (hx : ExecuteFollows g exact execute execute') {rounds rounds' : Nat}
    (hrounds : Suffices exact rounds rounds') (s : Stmt) :
    Follows g exact (Completion.recode g) (s.executeBy evaluate execute rounds)
      ((g.stmt s).executeBy evaluate' execute' rounds') := by
  rw [g.stmt_eq]
  cases s with
  | expression value => exact (hv value).bind fun _ => .pure rfl
  | varDecl name initializer =>
    have hrest : ∀ v : Value, Follows g exact (Completion.recode g)
        (Run.define name.lexeme v >>= fun _ => pure (.normal : Completion))
        (Run.define name.lexeme (v.recode g) >>= fun _ => pure (.normal : Completion)) :=
      fun v => (Follows.define name.lexeme v).bind fun _ => .pure rfl
    cases initializer with
    | none => exact Follows.bind (f := Value.recode g) (.pure rfl) (hrest ·)
    | some e => exact (hv e).bind hrest
  | block body =>
    refine Follows.environment.bind fun environment => ?_
    refine (Follows.extend environment []).bind fun inside => ?_
    exact (Follows.executeEach hx body).within inside
  | ifThen condition thenBranch =>
    refine (hv condition).bind fun v => ?_
    rw [Value.recode_isTruthy]
    split
    · exact hx.stmt thenBranch
    · exact .pure rfl
  | ifElse condition thenBranch elseBranch =>
    refine (hv condition).bind fun v => ?_
    rw [Value.recode_isTruthy]
    split
    · exact hx.stmt thenBranch
    · exact hx.stmt elseBranch
  | whileLoop condition body => exact .executeWhile (hv condition) (hx.stmt body) hrounds
  | funDecl routine => exact (Follows.declareFunction routine).bind fun _ => .pure rfl
  | returnValue keyword value =>
    cases value with
    | none => exact .pure rfl
    | some e => exact (hv e).bind fun v => .pure rfl
  | classDecl name superclass methods =>
    have hrest : ∀ p : Option (Value × Class), Follows g exact (Completion.recode g)
        (Lox.declareClass name p methods >>= fun _ => pure (.normal : Completion))
        (Lox.declareClass (name.relabel g.toRelabel) (p.map (recodeSuperclass g))
          (methods.map g.routine) >>= fun _ => pure (.normal : Completion)) :=
      fun p => (Follows.declareClass name p methods).bind fun _ => .pure rfl
    cases superclass with
    | none => exact Follows.bind (f := Option.map (recodeSuperclass g)) (.pure rfl) (hrest ·)
    | some e =>
      have hline : ((e.relabel g.toRelabel).line?.getD (g.line name.line))
          = g.line (e.line?.getD name.line) := by
        rw [Expr.relabel_line?]
        cases e.line? <;> rfl
      have hsuper : Follows g exact (Option.map (recodeSuperclass g))
          (some <$> (evaluate e >>= Lox.asSuperclass (e.line?.getD name.line)))
          (some <$> (evaluate' (e.relabel g.toRelabel) >>=
            Lox.asSuperclass ((e.relabel g.toRelabel).line?.getD (g.line name.line)))) := by
        rw [hline]
        exact ((hv e).bind fun v => Follows.asSuperclass _ v).map fun _ => rfl
      exact hsuper.bind hrest

end Follows

/-- Executing a `return` does not let the statement after it be next. -/
theorem execute_returns (fuel : Nat) {s : Stmt} (hs : s.isReturn = true) (m n : Machine) :
    execute fuel s m ≠ .ok .normal n := by
  intro h
  cases s with
  | returnValue keyword value =>
    cases fuel with
    | zero => cases h
    | succ fuel =>
      cases value with
      | none => cases h
      | some e =>
        obtain ⟨v, m', -, h⟩ := exists_of_bind_ok h
        cases h
  | _ => cases hs

/-- Expressions and statements with other code are evaluated and executed as those that they stand
for. -/
theorem follows (g : Recoding) {exact : Prop} {fuel fuel' : Nat} (h : Suffices exact fuel fuel') :
    EvaluateFollows g exact (evaluate fuel) (evaluate fuel')
      ∧ ExecuteFollows g exact (execute fuel) (execute fuel') := by
  induction fuel generalizing fuel' with
  | zero =>
    have hzero : exact → fuel' = 0 := h.2
    refine ⟨fun e => .outOfFuel fun he => ?_, fun s => .outOfFuel fun he => ?_,
      fun _ hs => execute_returns 0 hs⟩
    · rw [hzero he]
      rfl
    · rw [hzero he]
      rfl
  | succ fuel ih =>
    obtain ⟨fuel', rfl⟩ := h.exists_succ
    obtain ⟨hv, hx⟩ := ih h.pred
    exact ⟨fun e => .evaluateBy hv hx e, fun s => .executeBy hv hx h.pred s,
      fun _ hs => execute_returns (fuel + 1) hs⟩

/-- A program with other code runs as the program does. -/
theorem Follows.program (g : Recoding) {exact : Prop} {fuel fuel' : Nat}
    (h : Suffices exact fuel fuel') (p : Program) :
    Follows g exact (fun u : Unit => u) (p.forM fun s => discard (execute fuel s))
      ((p.map g.stmt).forM fun s => discard (execute fuel' s)) :=
  .forM g.stmt p fun s _ => ((follows g h).2.stmt s).discard

end Lox
