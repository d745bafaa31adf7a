import Lox.Proofs.Lexical.Names

/-!
Calls. A call runs the body of a function in a scope of its own, inside the environment that the
function keeps; the lexical meaning runs it with the parameters declared among the names that it
keeps. That the two stay in step is assumed here of the statements of the body (`Executes`), and
proved of functions, methods, classes and native functions.
-/

namespace Lox

namespace Lexical

section

variable (t : Table)

/-- The two statements are completed in the same way. -/
inductive CompletionRel (w : World) : Completion → Completion Names → Prop where
  | normal : CompletionRel w .normal .normal
  | returned {v : Value} {v' : Value Names} (h : ValueRel t w v v') :
      CompletionRel w (.returned v) (.returned v')

/-- The statement is completed in the same way on both sides, and the place after it is current if
it is the next one. -/
def Executed (site : Site) (env : Environment) (s : Stmt) (w : World) (c : Completion)
    (c' : Names × Completion Names) : Prop :=
  CompletionRel t w c c'.2 ∧ (c = .normal → Current w (s.after site).scopes env c'.1)

/-- Linked statements are executed in step. -/
def Executes (k : Watch) (watched run : Stmt → Lox.Run Completion) (spec : Executor) : Prop :=
  ∀ {site : Site} {env : Environment} {names : Names} {w : World} {s : Stmt}, s.Linked t site →
    Current w site.scopes env names →
    Simulates k t env env.head? w (watched s) (run s) (spec names s) (Executed t site env s)

end

section

variable {k : Watch} {t : Table} {w : World} {env : Environment} {names : Names}
  {scopes : List (Bindings Bool)} {watched run : Stmt → Lox.Run Completion} {spec : Executor}

/-- Statements are executed in step one after the other. -/
theorem Simulates.executeEach (hx : Executes t k watched run spec) {site : Site} {body : List Stmt}
    (hl : Stmt.LinkedEach t site body) (hc : Current w site.scopes env names) :
    Simulates k t env env.head? w (Lox.executeEach watched body) (Lox.executeEach run body)
      (Lexical.executeEach spec names body) (CompletionRel t) := by
  induction body generalizing site names w with
  | nil => exact .pure .normal
  | cons s rest ih =>
    refine (hx hl.1 hc).bind fun w' c c' _ hpost => ?_
    obtain ⟨names', c'⟩ := c'
    obtain ⟨hrel, hcurrent⟩ := hpost
    cases hrel with
    | normal => exact ih hl.2 (hcurrent rfl)
    | returned hv => exact .pure (.returned hv)

/-! ### Functions and methods -/

/-- A scope that binds one name, and no more later. -/
theorem Simulates.extend_one {name : String} {v : Value} {v' : Value Names} {outer : Environment}
    (hf : InForce w scopes outer names) (hv : ValueRel t w v v') (hfits : Fits name v) :
    Simulates k t env none w (Run.extend outer [(name, v)]) (Run.extend outer [(name, v)])
      (declareEach names.enter [(name, v')])
      fun w' e names' => InForce w' ([(name, true)] :: scopes) e names' := by
  refine Simulates.frame (of_ok fun m st ha he => ?_) (Nat.le_refl _)
  obtain ⟨names', st', w', hdeclare, hext, ha', hc⟩ := ha.enter_step hf hv hfits
  exact ⟨w.scopes :: outer, _, names', st', w', by rw [Run.extend, ha.scopes], hdeclare, hext, ha',
    he, hc.inForce⟩

/-- The scope of a call. -/
theorem Simulates.extend_frame (site : Site) {c : Closure} {args : List Value}
    {args' : List (Value Names)} (hf : InForce w site.scopes c.environment names)
    (hargs : List.Forall₂ (ValueRel t w) args args') (hlength : args.length = c.arity)
    (hnames : ∀ p ∈ c.routine.params, p.IsName)
    (hdistinct : (c.routine.params.map Token.lexeme).Nodup) :
    Simulates k t env (some w.scopes) w (Run.extend c.environment (c.frame args))
      (Run.extend c.environment (c.frame args))
      (declareEach names.enter ((c.routine.params.map Token.lexeme).zip args'))
      fun w' e names' => e = w.scopes :: c.environment
        ∧ Current w' ((site.enter []).declareEach c.routine.params).1.scopes e names' := by
  refine of_ok fun m st ha he => ?_
  have hgrow : w.Extends none w.grow := World.extends_grow w
  have hcurrent := Current.enter ha hf
  rw [ha.scopes] at hcurrent ⊢
  obtain ⟨names', st', w', hdeclare, hext, ha', hc⟩ :=
    ha.grow.declareEach_step (hargs.imp fun _ _ hr => hr.mono (.refl t) hgrow.toLe) hlength
      (show (site.enter []).scopes = [] :: site.scopes from rfl) hnames hdistinct (fun _ _ => rfl)
      hcurrent
  exact ⟨_, _, names', st', w', rfl, hdeclare, hgrow.weaken.trans hext, ha', he, rfl, hc⟩

variable {args : List Value} {args' : List (Value Names)}

/-- A function is called. -/
theorem Simulates.callClosure (hx : Executes t k watched run spec) {c : Closure}
    {c' : Closure Names} (hc : FunctionRel t w c c') (hargs : List.Forall₂ (ValueRel t w) args args')
    (hlength : args.length = c.arity) (line : Nat) :
    Simulates k t env none w (c.call (Lox.executeEach watched) args line)
      (c.call (Lox.executeEach run) args line) (Lexical.callClosure spec c' args' line)
      (ValueRel t) := by
  obtain ⟨site, kind, hl, hf, hinit⟩ := hc.linked
  obtain ⟨hnames, hdistinct, hbody⟩ := Routine.linked_iff.1 hl
  refine Simulates.frame (i := w.scopes) ?_ (Nat.le_refl _)
  unfold Closure.call Lexical.callClosure
  rw [hc.routine, hc.isInitializer]
  refine (Simulates.extend_frame { site with body := some kind } hf hargs hlength hnames
    hdistinct).bind fun w₁ e names₁ hext₁ hmid => ?_
  obtain ⟨rfl, hcurrent⟩ := hmid
  refine (Simulates.executeEach hx hbody hcurrent).within.bind fun w₂ _ _ hext₂ hcompletion => ?_
  -- An initializer gives the object that `this` is bound to around its body.
  by_cases hi : c.isInitializer = true
  · rw [if_pos hi, if_pos hi]
    obtain ⟨outer, hs⟩ : ∃ outer, site.scopes = Site.thisScope :: outer :=
      List.head?_eq_some_iff.1 (hinit hi)
    rw [hs] at hf
    have hf₂ := (hf.mono hext₁.toLe).mono hext₂.toLe
    refine (Simulates.getAt hf₂ ?_ ?_).conseq fun _ _ _ _ hpost => hpost.1
    · simp [List.findIdx?_cons, Site.thisScope, Bindings.binds, Bindings.get?_cons]
    · simp [Site.thisScope, Bindings.get?_cons]
  · rw [if_neg hi, if_neg hi]
    cases hcompletion with
    | normal => exact .pure .nil
    | returned hv => exact .pure hv

/-- A method is bound to an object. -/
theorem Simulates.bindMethod {c : Closure} {c' : Closure Names} (hc : MethodRel t w c c') {id : Nat}
    {d : Class} {d' : Class Names} (hd : ClassRel t w d d') :
    Simulates k t env none w (c.bind (.object id d)) (c.bind (.object id d))
      (Lexical.bind c' (.object id d')) fun w' b b' => FunctionRel t w' b b'
        ∧ b.arity = c.arity := by
  obtain ⟨site, kind, hl, hf⟩ := hc.linked
  have hfits : Fits "this" (.object id d) := ⟨fun _ => ⟨id, d, rfl⟩, fun h => by simp at h⟩
  refine (Simulates.extend_one hf (.object id hd) hfits).bind fun w' e names' _ hf' => ?_
  refine .pure ⟨⟨hc.routine, hc.isInitializer, site.enter Site.thisScope, kind, hl, hf', ?_⟩, rfl⟩
  exact fun _ => rfl

/-- An instance of a class is made and set up. -/
theorem Simulates.instantiate (hx : Executes t k watched run spec) {c : Class} {c' : Class Names}
    (hc : ClassRel t w c c') (hargs : List.Forall₂ (ValueRel t w) args args')
    (hlength : args.length = c.arity) (line : Nat) :
    Simulates k t env none w (c.instantiate (Lox.executeEach watched) args line)
      (c.instantiate (Lox.executeEach run) args line) (Lexical.instantiate spec c' args' line)
      (ValueRel t) := by
  refine Simulates.newObject.bind fun w₁ id _ hext₁ hid => ?_
  subst hid
  have hc₁ := hc.mono (.refl t) hext₁.toLe
  have hm := hc₁.method? Routine.initializerName
  unfold Class.initializer?
  rcases eq_none_or_eq_some_of_rel hm with ⟨hnone, hnone'⟩ | ⟨f, f', hsome, hsome', hf⟩
  · simp only [hnone, hnone']
    exact .pure (.object _ hc₁)
  · simp only [hsome, hsome']
    have harity : c.arity = f.arity := by simp [Class.arity, Class.initializer?, hsome]
    refine (Simulates.bindMethod hf hc₁).bind fun w₂ b b' hext₂ hb => ?_
    have hargs₂ := hargs.imp fun _ _ hr => hr.mono (.refl t) (hext₁.toLe.trans hext₂.toLe)
    refine (Simulates.callClosure hx hb.1 hargs₂ (by rw [hlength, harity, hb.2]) line).bind
      fun w₃ _ _ hext₃ _ => ?_
    exact .pure (.object _ (hc₁.mono (.refl t) (hext₂.toLe.trans hext₃.toLe)))

/-! ### Native functions -/

/-- A native function is called. -/
theorem Simulates.callNative (native : Native) (hargs : List.Forall₂ (ValueRel t w) args args')
    (line : Nat) :
    Simulates k t env none w (Run.ofHost (native.call args line))
      (Run.ofHost (native.call args line)) (Lexical.ofHost (native.call args' line))
      (ValueRel t) := by
  have hargs := hargs.imp fun _ _ => valueRel_iff.1
  have hcall := native.call_alike (fun hc => Closure.name_eq_of_routine hc.routine) hargs line
  exact ofHost (hcall.imp fun _ _ => valueRel_iff.2)

/-! ### Calls -/

theorem Simulates.withArity {arity : Nat} {line : Nat} {x x' : Lox.Run Value}
    {y : Run (Value Names)} (hargs : List.Forall₂ (ValueRel t w) args args')
    (h : args.length = arity → Simulates k t env none w x x' y (ValueRel t)) :
    Simulates k t env none w (Run.withArity arity args line x) (Run.withArity arity args line x')
      (Lexical.withArity arity args' line y) (ValueRel t) := by
  unfold Run.withArity Lexical.withArity
  rw [← hargs.length_eq]
  split
  · exact h (by assumption)
  · exact .fail id

/-- A value is called. -/
theorem Simulates.call (hx : Executes t k watched run spec) {v : Value} {v' : Value Names}
    (hv : ValueRel t w v v') (hargs : List.Forall₂ (ValueRel t w) args args') (line : Nat) :
    Simulates k t env none w (v.call (Lox.executeEach watched) args line)
      (v.call (Lox.executeEach run) args line) (Lexical.call spec v' args' line) (ValueRel t) := by
  cases hv with
  | native host => exact .withArity hargs fun _ => .callNative host hargs line
  | @function _ c c' hc =>
    simp only [Value.call, Lexical.call, hc.arity]
    exact .withArity hargs fun hlength => .callClosure hx hc hargs hlength line
  | @classOf _ c c' hc =>
    simp only [Value.call, Lexical.call, hc.arity]
    exact .withArity hargs fun hlength => .instantiate hx hc hargs hlength line
  | _ => exact .fail id

end

end Lexical

end Lox
