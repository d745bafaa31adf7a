import Lox.Proofs.Lexical.Declarations

/-!
The two meanings of programs in step. One expression and one statement are evaluated and executed in
step if those inside them are (`Evaluates.evaluateBy`, `Executes.executeBy`), so that, by induction on
the fuel, all linked ones are, watched or not (`simulates`); and the program that a machine runs in
its globals is followed from its first statement to its last (`Simulates.program`).
-/

namespace Lox

namespace Lexical

/-- Linked expressions are evaluated in step. -/
def Evaluates (t : Table) (k : Watch) (watched run : Expr → Lox.Run Value)
    (spec : Names → Expr → Run (Value Names)) : Prop :=
  ∀ {site : Site} {env : Environment} {names : Names} {w : World} {e : Expr}, e.Linked t site →
    InForce w site.scopes env names →
    Simulates k t env none w (watched e) (run e) (spec names e) (ValueRel t)

section

variable {k : Watch} {t : Table} {w : World} {env : Environment} {names : Names} {site : Site}
  {evaluated evaluate : Expr → Lox.Run Value} {evaluate' : Names → Expr → Run (Value Names)}
  {executed execute : Stmt → Lox.Run Completion} {execute' : Executor}

/-! ### Expressions -/

/-- An evaluation that keeps the place that is current. -/
theorem Evaluates.current (hv : Evaluates t k evaluated evaluate evaluate') {e : Expr}
    (hl : e.Linked t site) (hc : Current w site.scopes env names) :
    Simulates k t env env.head? w (evaluated e) (evaluate e) (evaluate' names e)
      fun w' v v' => ValueRel t w' v v' ∧ Current w' site.scopes env names :=
  ((hv hl hc.inForce).conseq fun _ _ _ hext h => And.intro h (hc.extend hext)).weaken

theorem Evaluates.mapM (hv : Evaluates t k evaluated evaluate evaluate') {es : List Expr}
    (hl : Expr.LinkedEach t site es) (hf : InForce w site.scopes env names) :
    Simulates k t env none w (es.mapM evaluated) (es.mapM evaluate) (es.mapM (evaluate' names))
      fun w' vs vs' => List.Forall₂ (ValueRel t w') vs vs' :=
  .mapM (fun hw hr => hr.mono (.refl t) hw) es fun _ he _ hext =>
    hv (hl.of_mem he) (hf.mono hext.toLe)

/-- An expression is evaluated in step if those in it are. -/
theorem Evaluates.evaluateBy (hv : Evaluates t k evaluated evaluate evaluate')
    (hx : Executes t k executed execute execute') {e : Expr} (hl : e.Linked t site)
    (hf : InForce w site.scopes env names) (hc : Checked k t w e) :
    Simulates k t env none w (e.evaluateBy evaluated executed) (e.evaluateBy evaluate execute)
      (Lexical.evaluateBy evaluate' execute' names e) (ValueRel t) := by
  cases e with
  | literal id value => exact .pure (.ofLiteral value)
  | grouping id inner => exact hv hl hf
  | unary id operator right =>
    exact (hv (e := right) hl hf).bind fun _ _ _ _ h => .ofExcept (h.unary operator)
  | binary id left operator right =>
    refine (hv hl.1 hf).bind fun w₁ a a' hext₁ ha => ?_
    refine (hv hl.2 (hf.mono hext₁.toLe)).bind fun w₂ b b' hext₂ hb => ?_
    exact .ofExcept ((ha.mono (.refl t) hext₂.toLe).binary operator hb)
  | logical id left operator right =>
    refine (hv hl.1 hf).bind fun w₁ a a' hext₁ ha => ?_
    rw [ha.decides operator]
    split
    · exact .pure ha
    · exact hv hl.2 (hf.mono hext₁.toLe)
  | var id name => exact .lookUp hl.2.1 hl.2.2 hl.1 hf hc
  | this id keyword =>
    obtain ⟨hk, hr, d, hg, hd⟩ := hl
    rw [← hk] at hr hd
    exact .lookUp_local hg hd hr hf
  | assign id name value =>
    refine (hv hl.2.1 hf).bind fun w₁ v v' hext₁ hrel => ?_
    refine (Simulates.assign hl.2.2 hl.1 (hf.mono hext₁.toLe) hrel (hc.mono hext₁.toLe)).bind
      fun w₂ _ _ hext₂ _ => ?_
    exact .pure (hrel.mono (.refl t) hext₂.toLe)
  | call id callee paren arguments =>
    refine (hv hl.1 hf).bind fun w₁ v v' hext₁ hrel => ?_
    refine (hv.mapM hl.2 (hf.mono hext₁.toLe)).bind fun w₂ args args' hext₂ hargs => ?_
    exact .call hx (hrel.mono (.refl t) hext₂.toLe) hargs paren.line
  | get id object name => exact (hv (e := object) hl hf).bind fun _ _ _ _ h => .property h name
  | set id object name value =>
    refine (hv hl.1 hf).bind fun w₁ v v' hext₁ hrel => ?_
    cases hrel with
    | object identity hd =>
      refine (hv hl.2 (hf.mono hext₁.toLe)).bind fun w₂ u u' hext₂ hu => ?_
      refine (Simulates.setField identity name.lexeme hu).bind fun w₃ _ _ hext₃ _ => ?_
      exact .pure (hu.mono (.refl t) hext₃.toLe)
    | _ => exact .fail fun h => h
  | super id keyword method => exact .superMethod hl hf

/-! ### Statements -/

/-- After a statement that declares nothing the same names are in force. -/
theorem Executes.undeclaring (hx : Executes t k executed execute execute') {s : Stmt}
    (hl : s.Linked t site) (hs : s.declares = false) (hc : Current w site.scopes env names) :
    Simulates k t env env.head? w (executed s) (execute s) (execute' names s)
      fun w' c c' => CompletionRel t w' c c'.2 ∧ (c = .normal → Current w' site.scopes env names) := by
  have hafter : s.after site = site := by
    cases s with
    | varDecl | funDecl | classDecl => cases hs
    | _ => rfl
  refine (hx hl hc).conseq fun w' c c' hext hpost => ⟨hpost.1, fun hn => ?_⟩
  exact ⟨hc.inForce.mono hext.toLe, hafter ▸ (hpost.2 hn).tight⟩

/-- A loop is executed in step if its condition and its body are. -/
theorem Simulates.executeWhile {cw c : Lox.Run Value} {c' : Run (Value Names)}
    {bw b : Lox.Run Completion} {b' : Run (Names × Completion Names)}
    (hcondition : ∀ w, Current w site.scopes env names →
      Simulates k t env env.head? w cw c c'
        fun w' v v' => ValueRel t w' v v' ∧ Current w' site.scopes env names)
    (hbody : ∀ w, Current w site.scopes env names →
      Simulates k t env env.head? w bw b b'
        fun w' x x' => CompletionRel t w' x x'.2 ∧ (x = .normal → Current w' site.scopes env names))
    (rounds : Nat) (hc : Current w site.scopes env names) :
    Simulates k t env env.head? w (Lox.executeWhile cw bw rounds) (Lox.executeWhile c b rounds)
      (Lexical.executeWhile c' b' rounds)
      fun w' x x' => CompletionRel t w' x x' ∧ (x = .normal → Current w' site.scopes env names) := by
  induction rounds generalizing w with
  | zero => exact .outOfFuel
  | succ rounds ih =>
    refine (hcondition w hc).bind fun w₁ v v' _ hpost => ?_
    obtain ⟨hv, hc₁⟩ := hpost
    rw [hv.isTruthy]
    split
    · refine (hbody w₁ hc₁).bind fun w₂ x x' _ hpost => ?_
      obtain ⟨names', x'⟩ := x'
      obtain ⟨hx, hc₂⟩ := hpost
      cases hx with
      | normal => exact ih (hc₂ rfl)
      | returned hu => exact .pure ⟨.returned hu, fun h => by cases h⟩
    · exact .pure ⟨.normal, fun _ => hc₁⟩

/-- A statement after which the same names are in force has been executed. -/
theorem Executed.same {s : Stmt} {c : Completion} {c' : Completion Names}
    (hafter : s.after site = site) (hrel : CompletionRel t w c c')
    (hc : c = .normal → Current w site.scopes env names) :
    Executed t site env s w c (names, c') :=
  ⟨hrel, fun h => hafter.symm ▸ hc h⟩

/-- A block is executed in a scope of its own. -/
theorem Simulates.block (hx : Executes t k executed execute execute') {body : List Stmt}
    (hl : Stmt.LinkedEach t (site.enter []) body) (hc : Current w site.scopes env names) :
    Simulates k t env none w
      (Run.extend env [] >>= fun e => Run.within e (Lox.executeEach executed body))
      (Run.extend env [] >>= fun e => Run.within e (Lox.executeEach execute body))
      (Lexical.executeEach execute' names.enter body)
      fun w' c c' => CompletionRel t w' c c' ∧ Current w' site.scopes env names := by
  refine (Simulates.frame (i := w.scopes) ?_ (Nat.le_refl _)).conseq
    fun _ _ _ hext h => ⟨h, hc.extend hext⟩
  intro m st ha he
  have hgrow : w.Extends none w.grow := World.extends_grow w
  have hinside := Simulates.executeEach hx hl (Current.enter ha hc.inForce)
  have := hinside.within { m with store := m.store.push [] } st ha.grow he
  simp only [Bind.bind, EStateM.bind, Run.extend, ← ha.scopes]
  exact this.imp (fun _ => hgrow.weaken.trans) fun _ _ _ _ => id

/-- A variable that is declared is settled to what its initializer yields. -/
theorem Simulates.initialized {name : Token} (hn : name.IsName) {x y : Lox.Run Value}
    {z : Run (Value Names)}
    (h : Simulates k t env env.head? w x y z fun w' v v' =>
      ValueRel t w' v v' ∧ Current w' (site.bind name false).scopes env names) :
    Simulates k t env env.head? w
      (x >>= fun v => Run.define name.lexeme v >>= fun _ => pure .normal)
      (y >>= fun v => Run.define name.lexeme v >>= fun _ => pure .normal)
      (z >>= fun v => settle names name.lexeme v >>= fun _ => pure (names, .normal))
      fun w' c c' => CompletionRel t w' c c'.2
        ∧ (c = .normal → Current w' (site.bind name true).scopes env c'.1) := by
  refine h.bind fun w₁ v v' _ hpost => ?_
  obtain ⟨hrel, hc⟩ := hpost
  have hbind : w₁.Extends none (w₁.bind (env.headD 0) name.lexeme) := World.extends_bind _ _
  refine (Simulates.define hc hn (hrel.mono (.refl t) hbind.toLe)).weaken.bind
    fun w₂ _ _ _ hc₂ => ?_
  exact .pure ⟨.normal, fun _ => hc₂⟩

/-- The superclass of a class is evaluated in step, at the place of the declaration. -/
theorem Evaluates.superclass (hv : Evaluates t k evaluated evaluate evaluate') {ancestor : Expr}
    (hl : ancestor.Linked t site) (hc : Current w site.scopes env names) (line : Nat) :
    Simulates k t env env.head? w
      (some <$> (evaluated ancestor >>= Lox.asSuperclass line))
      (some <$> (evaluate ancestor >>= Lox.asSuperclass line))
      (some <$> (evaluate' names ancestor >>= Lexical.asSuperclass line))
      fun w' p p' => (∃ q q', p = some q ∧ p' = some q' ∧ SuperclassRel t w' q q')
        ∧ Current w' site.scopes env names := by
  have hevaluated := (hv hl hc.inForce).bind fun w₁ v v' _ h => Simulates.asSuperclass line h
  exact (hevaluated.conseq fun _ q q' hext h =>
    ⟨⟨q, q', rfl, rfl, h⟩, hc.extend hext⟩).map.weaken

/-- A statement is executed in step if the expressions and statements in it are. -/
theorem Executes.executeBy (hv : Evaluates t k evaluated evaluate evaluate')
    (hx : Executes t k executed execute execute') (rounds : Nat) {s : Stmt} (hl : s.Linked t site)
    (hc : Current w site.scopes env names) :
    Simulates k t env env.head? w (s.executeBy evaluated executed rounds)
      (s.executeBy evaluate execute rounds)
      (Lexical.executeBy evaluate' execute' rounds names s) (Executed t site env s) := by
  cases s with
  | expression value =>
    refine (hv.current hl hc).bind fun w₁ _ _ _ hpost => ?_
    exact .pure (.same rfl .normal fun _ => hpost.2)
  | varDecl name initializer =>
    obtain ⟨ha, hl⟩ := hl
    rw [Site.declare_of_admits ha] at hl
    have hafter : (Stmt.varDecl name initializer).after site = site.bind name true := by
      rw [Stmt.after, Site.declareReadable_of_admits ha]
    refine Simulates.declare_bind hc ha fun w₁ names₁ _ hc₁ => ?_
    unfold Executed
    rw [hafter]
    cases initializer with
    | none => exact .initialized ha.1 (.pure ⟨.nil, hc₁⟩)
    | some e => exact .initialized ha.1 (hv.current hl hc₁)
  | block body =>
    refine Simulates.environment_bind ?_
    refine Simulates.spec_map ((Simulates.block hx hl hc).weaken.conseq fun w' c c' _ hpost => ?_)
    exact .same rfl hpost.1 fun _ => hpost.2
  | ifThen condition thenBranch =>
    obtain ⟨hcondition, hthen, hdeclares⟩ := hl
    refine (hv.current hcondition hc).bind fun w₁ v v' _ hpost => ?_
    rw [hpost.1.isTruthy]
    split
    · refine Simulates.spec_map ((hx.undeclaring hthen hdeclares hpost.2).conseq
        fun w' c c' _ hpost => ?_)
      exact .same rfl hpost.1 hpost.2
    · exact .pure (.same rfl .normal fun _ => hpost.2)
  | ifElse condition thenBranch elseBranch =>
    obtain ⟨hcondition, hthen, helse⟩ := hl
    refine (hv.current hcondition hc).bind fun w₁ v v' _ hpost => ?_
    rw [hpost.1.isTruthy]
    split
    · refine Simulates.spec_map ((hx.undeclaring hthen.1 hthen.2 hpost.2).conseq
        fun w' c c' _ hpost => ?_)
      exact .same rfl hpost.1 hpost.2
    · refine Simulates.spec_map ((hx.undeclaring helse.1 helse.2 hpost.2).conseq
        fun w' c c' _ hpost => ?_)
      exact .same rfl hpost.1 hpost.2
  | whileLoop condition body =>
    obtain ⟨hcondition, hbody, hdeclares⟩ := hl
    refine Simulates.spec_map ((Simulates.executeWhile
      (fun w' hc => hv.current hcondition hc) (fun w' hc => hx.undeclaring hbody hdeclares hc)
      rounds hc).conseq fun w' c c' _ hpost => ?_)
    exact .same rfl hpost.1 hpost.2
  | funDecl routine =>
    obtain ⟨ha, hl⟩ := hl
    rw [Site.declareReadable_of_admits ha] at hl
    refine (Simulates.declareFunction hc ha hl).bind fun w₁ _ names₁ _ hc₁ => ?_
    refine .pure ⟨.normal, fun _ => ?_⟩
    rwa [Stmt.after, Site.declareReadable_of_admits ha]
  | returnValue keyword value =>
    cases value with
    | none => exact .pure ⟨.returned .nil, fun h => by cases h⟩
    | some e =>
      refine (hv.current hl hc).bind fun w₁ v v' _ hpost => ?_
      exact .pure ⟨.returned hpost.1, fun h => by cases h⟩
  | classDecl name superclass methods =>
    obtain ⟨ha, hl⟩ := hl
    have hafter : (Stmt.classDecl name superclass methods).after site = site.bind name true := by
      rw [Stmt.after, Site.declareReadable_of_admits ha]
    cases superclass with
    | none =>
      simp only [Site.declareReadable_of_admits ha] at hl
      have hnone : Simulates k t env env.head? w (pure none) (pure none) (pure none)
          fun w' (p : Option (Value × Class)) (p' : Option (Value Names × Class Names)) =>
            p = none ∧ p' = none ∧ Current w' site.scopes env names := .pure ⟨rfl, rfl, hc⟩
      refine hnone.bind fun w₁ _ _ _ hpost => ?_
      obtain ⟨rfl, rfl, hc₁⟩ := hpost
      refine (Simulates.declareClass_base hc₁ ha hl).bind fun w₂ _ names₂ _ hc₂ => ?_
      exact .pure ⟨.normal, fun _ => hafter.symm ▸ hc₂⟩
    | some ancestor =>
      simp only [Site.declareReadable_of_admits ha] at hl
      have hsuper := hv.superclass hl.1 hc (ancestor.line?.getD name.line)
      refine hsuper.bind fun w₁ _ _ _ hpost => ?_
      obtain ⟨⟨q, q', rfl, rfl, hq⟩, hc₁⟩ := hpost
      refine (Simulates.declareClass_derived hc₁ ha hq hl.2).bind fun w₂ _ names₂ _ hc₂ => ?_
      exact .pure ⟨.normal, fun _ => hafter.symm ▸ hc₂⟩

/-! ### Whole runs -/

/-- What an expression reads at a distance is bound there. -/
theorem Agrees.readsSafely {m : Machine} {st : State} (h : Agrees t w m st) {e : Expr}
    (hl : e.Linked t site) (hf : InForce w site.scopes m.environment names) :
    m.readsSafely e = true := by
  have hread : ∀ {n : String} {d : Nat}, site.distanceOf? n = some d → site.MayRead n →
      ∃ v, m.bound? d n = some v ∧ Fits n v := by
    intro n d hd hr
    obtain ⟨v, v', hv, -, -, hfits⟩ := h.read_local hf hd hr 0
    exact ⟨v, hv, hfits⟩
  cases e with
  | var id name =>
    obtain ⟨-, hg, hr⟩ := hl
    cases hd : site.distanceOf? name.lexeme with
    | none => simp [Machine.readsSafely, h.distances, hg.2, hd]
    | some d =>
      obtain ⟨v, hv, -⟩ := hread hd hr
      simp [Machine.readsSafely, h.distances, hg.2, hd, hv]
  | this id keyword =>
    obtain ⟨-, hr, d, hg, hd⟩ := hl
    obtain ⟨v, hv, hfits⟩ := hread hd hr
    obtain ⟨object, c, rfl⟩ := hfits.1 rfl
    simp [Machine.readsSafely, h.distances, hg.2, hv, Value.isObject]
  | super id keyword method =>
    obtain ⟨-, hsuper, hthis, d, hg, hd, hd'⟩ := hl
    obtain ⟨v, hv, hfits⟩ := hread hd hsuper
    obtain ⟨identity, c, rfl⟩ := hfits.2 rfl
    obtain ⟨u, hu, hfits⟩ := hread hd' hthis
    obtain ⟨object, c', rfl⟩ := hfits.1 rfl
    simp [Machine.readsSafely, h.distances, hg.2, hv, hu, Value.isClass, Value.isObject]
  | _ => rfl

/-- A run before which the condition of the watch is checked. Where it fails, the run itself goes on
unwatched. -/
theorem Simulates.check {α β : Type} {e : Expr} {watched : Watch → Lox.Run α} {run : Lox.Run α}
    {spec : Run β} {post : World → α → β → Prop} {inside : Option ScopeId}
    (hsafe : ∀ m st, Agrees t w m st → m.environment = env → m.readsSafely e = true)
    (h : ∀ k, Checked k t w e → Simulates k t env inside w (watched k) run spec post) (k : Watch) :
    Simulates k t env inside w (k.check e >>= fun _ => watched k) run spec post := by
  intro m st ha he
  have hchecked : ∀ k : Watch, k.holds m e = true → Checked k t w e := fun k hk =>
    ⟨m, ha.distances, fun _ hn => ha.known hn, hk⟩
  by_cases hk : k.holds m e = true
  · have hcheck : k.check e m = .ok () m := by simp [Watch.check, hk]
    rw [bind_ok hcheck]
    exact h k (hchecked k hk) m st ha he
  · have hcheck : k.check e m = .error k.stop m := by simp [Watch.check, hk]
    have hstopped : k.Stopped ((k.check e >>= fun _ => watched k) m) :=
      ⟨⟨m, bind_error hcheck⟩, m, e, hsafe m st ha he, by simpa using hk⟩
    exact (h ⟨fun _ _ => true, .outOfFuel⟩ (hchecked _ rfl) m st ha he).stopped hstopped

/-- Linked expressions and statements are evaluated and executed in step, however they are
watched. -/
theorem simulates (t : Table) (fuel : Nat) :
    (∀ k : Watch, Evaluates t k (k.evaluate fuel) (Lox.evaluate fuel) (Lexical.evaluate fuel))
      ∧ ∀ k : Watch, Executes t k (k.execute fuel) (Lox.execute fuel) (Lexical.execute fuel) := by
  induction fuel with
  | zero => exact ⟨fun _ _ _ _ _ _ _ _ => .outOfFuel, fun _ _ _ _ _ _ _ _ => .outOfFuel⟩
  | succ fuel ih =>
    constructor
    · intro k site env names w e hl hf
      refine Simulates.check (fun m st ha he => ?_)
        (fun k hchecked => Evaluates.evaluateBy (ih.1 k) (ih.2 k) hl hf hchecked) k
      subst he
      exact ha.readsSafely hl hf
    · intro k site env names w s hl hc
      exact Executes.executeBy (ih.1 k) (ih.2 k) fuel hl hc

theorem Stmt.after_scopes {site : Site} (hs : site.scopes = []) (s : Stmt) :
    (s.after site).scopes = [] := by
  have hdeclare : ∀ name, (site.declareReadable name).1.scopes = [] := by
    intro name
    simp [Site.declareReadable, Site.declare, Site.bindsHere, Site.bind, hs]
  cases s <;> first | exact hdeclare _ | exact hs

/-- A program is run in step in the globals. -/
theorem Simulates.program (k : Watch) (fuel : Nat) {program : Program}
    (hl : Stmt.LinkedEach t site program) (hs : site.scopes = []) :
    Simulates k t .globals (some 0) w (program.forM fun s => discard (k.execute fuel s))
      (program.forM fun s => discard (Lox.execute fuel s))
      (program.forM fun s => discard (Lexical.execute fuel none s)) fun _ _ _ => True := by
  induction program generalizing site w with
  | nil => exact .pure trivial
  | cons s rest ih =>
    have hc : Current w site.scopes .globals none := by
      rw [hs]
      exact ⟨.globals, trivial⟩
    exact ((simulates t fuel).2 k hl.1 hc).discard.bind fun w₁ _ _ _ _ =>
      ih hl.2 (Stmt.after_scopes hs s)

end

end Lexical

end Lox
