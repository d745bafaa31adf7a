import Lox.Proofs.Scopes.Declarations
import Lox.Proofs.Scopes.Evaluation
import Lox.Proofs.Session.Restored

/-!
Programs match. Each statement does if the expressions and statements in it do, so that, by induction
on the fuel, all linked ones do (`all_match`), and a program that is run in the globals adds only the
names that its own statements declare (`Matches.program`).
-/

namespace Lox

namespace Scopes

section

variable {ordered : Prop} {t : Table} {w w' : World} {env : Environment} {site : Site}
  {new : Additions} {V : Variants} {own : Option String} {e : Expr} {declared later : List String}
  {minded : String → Prop} {evaluated : Option String → Expr → Run Value}
  {evaluate : Expr → Run Value}
  {executed execute : Stmt → Run Completion}

/-! ### Expressions of statements -/

/-- What an expression can rely on at a place between statements. -/
theorem Current.fit (hc : Current ordered w site env declared minded) (hw : ordered → w.Within)
    (hl : e.Linked t site) (hm : ordered → ∀ n, Minded e.mentions n → minded n) :
    Fit ordered t own w site env nothing e where
  linked := hl
  chain := hc.chain
  targets n _ := .inl (hc.readable.mayRead n)
  order ho := ⟨rfl, hc.known_binds (hw ho) ho (hm ho)⟩

/-- An evaluation that leaves the place as it is. -/
theorem Evaluates.current (hv : Evaluates ordered t evaluated evaluate) (own : Option String)
    (hc : Current ordered w site env declared minded) (hl : e.Linked t site)
    (hm : ordered → ∀ n, Minded e.mentions n → minded n) :
    Matches ordered t nothing env w (evaluated own e) (evaluate e) fun w' v =>
      Conforming ordered t w' v v ∧ Current ordered w' site env declared minded :=
  Matches.of_conforms fun ⟨_, hconforms⟩ =>
    (hv (hc.fit hconforms.allowed hl hm)).conseq fun _ _ hext h => ⟨h, hc.extend hext fun _ => rfl⟩

/-- Where order is minded, the initializer of a variable does not assign it. -/
theorem Current.fit_initializer {name : Token}
    (hc : Current ordered w site env (name.lexeme :: later) minded) (hw : ordered → w.Within)
    (hordered : ordered) (hl : e.Linked t (site.bind name false))
    (hm : ∀ n, Minded e.mentions n → minded n)
    (hassigned : site.scopes ≠ [] → name.lexeme ∉ e.assigned) :
    Fit ordered t (some name.lexeme) w (site.bind name false) env nothing e := by
  refine ⟨hl, hc.chain.unreadable name, fun n hn => .inl ?_, fun _ => ⟨rfl, ?_⟩⟩
  · by_cases hne : name.lexeme = n
    · have hglobal : site.scopes = [] := by
        by_contra hs
        exact hassigned hs (hne ▸ hn)
      exact hne ▸ Site.mayRead_bind_global hglobal name
    · exact hc.readable.mayRead_unreadable hne
  · have hknown := hc.known_binds (hw hordered) hordered hm
    rw [Site.bind_scopes]
    generalize site.scopes = scopes at hknown
    unfold Known at hknown ⊢
    cases scopes with
    | nil => trivial
    | cons scope outer =>
      cases env with
      | nil => trivial
      | cons i env =>
        refine ⟨fun n hn hb => ?_, hknown.2⟩
        rw [Bindings.binds_set, hknown.1 n hn hb, Bool.or_true]

/-- Otherwise it may assign the variable, which is then new in the innermost scope. -/
theorem Current.fit_initializer_unordered {name : Token}
    (hc : Current ordered w site env (name.lexeme :: later) minded) (hordered : ¬ ordered)
    (hl : e.Linked t (site.bind name false)) :
    Fit ordered t (some name.lexeme) w (site.bind name false) env (inside env [name.lexeme]) e := by
  refine ⟨hl, hc.chain.unreadable name, fun n hn => ?_, fun h => absurd h hordered⟩
  by_cases hne : name.lexeme = n
  · by_cases hglobal : site.scopes = []
    · exact .inl (hne ▸ Site.mayRead_bind_global hglobal name)
    · refine .inr ⟨⟨hordered, fun i hi => ⟨?_, List.mem_singleton.2 hne.symm⟩⟩,
        congrArg some hne, ?_⟩
      · rwa [List.head?_eq_getElem?]
      · -- The variable is found in the innermost scope, where it is declared.
        obtain ⟨scope, outer, hs⟩ := List.exists_cons_of_ne_nil hglobal
        rw [Site.distanceOf?, Site.bind_scopes, hs]
        simp [List.findIdx?_cons, Bindings.binds_set, hne]
  · exact .inl (hc.readable.mayRead_unreadable hne)

/-- The initializer of a variable, which may only be new where it is declared. -/
theorem Evaluates.initializer (hv : Evaluates ordered t evaluated evaluate) {name : Token}
    (hc : Current ordered w site env (name.lexeme :: later) minded)
    (hl : e.Linked t (site.bind name false))
    (ho : ordered → (∀ n, Minded e.mentions n → minded n)
      ∧ (site.scopes ≠ [] → name.lexeme ∉ e.assigned)) :
    Matches ordered t (inside env [name.lexeme]) env w (evaluated (some name.lexeme) e) (evaluate e)
      fun w' v =>
      Conforming ordered t w' v v
        ∧ Current ordered w' site env (name.lexeme :: later) minded := by
  by_cases hordered : ordered
  · refine Matches.of_conforms fun ⟨_, hconforms⟩ => ?_
    have hfit := hc.fit_initializer hconforms.allowed hordered hl (ho hordered).1 (ho hordered).2
    exact ((hv hfit).conseq fun _ _ hext h => ⟨h, hc.extend hext fun _ => rfl⟩).weaken
  · have hfit := hc.fit_initializer_unordered hordered hl
    exact (hv hfit).conseq fun _ _ hext h => ⟨h, hc.extend hext fun h => absurd h hordered⟩

/-! ### Statements -/

/-- Nothing is new where no name is declared. -/
theorem inside_nil {i : ScopeId} {n : String} (h : inside env [] i n) : nothing i n := by
  cases h.2

/-- A branch or the body of a loop is in order if the statement around it is. -/
theorem InOrder.branch {isLocal : Prop} {s s' : Stmt} (h : InOrder isLocal s later minded)
    (horderly : s'.orderly = true) (hm : s'.mentions ⊆ s.mentions) (hd : s'.declares = false) :
    InOrder isLocal s' later minded where
  orderly := horderly
  minded n hn := h.minded n (hn.mono hm)
  own _ := by
    cases s' with
    | varDecl => cases hd
    | _ => rfl
  late hlocal n hn := h.late hlocal n (hn.mono hm)

/-- A statement that declares nothing leaves the place as it is. -/
theorem Executes.undeclaring (hx : Executes ordered t executed execute) {s : Stmt}
    (hl : s.Linked t site) (hs : s.declares = false)
    (hc : Current ordered w site env later minded)
    (ho : ordered → InOrder (site.scopes ≠ []) s later minded) :
    Matches ordered t nothing env w (executed s) (execute s) fun w' c => Completed ordered t w' c
      ∧ (c = .normal → Current ordered w' site env later minded) := by
  have hnone := Stmt.declared?_eq_none hs
  have hafter : s.after site = site := by
    cases s with
    | varDecl | funDecl | classDecl => cases hs
    | _ => rfl
  have hdeclared : Current ordered w site env (s.declared?.toList ++ later) minded := by
    rw [hnone]
    exact hc
  have hmatch := hx hl hdeclared ho
  rw [hnone, hafter] at hmatch
  exact hmatch.imp (fun _ _ _ => inside_nil) fun _ _ _ => id

/-- A loop matches if its condition and its body do. -/
theorem Matches.executeWhile {cv c : Run Value} {bv b : Run Completion}
    (hcondition : ∀ w, Current ordered w site env declared minded →
      Matches ordered t nothing env w cv c
        fun w' _ => Current ordered w' site env declared minded)
    (hbody : ∀ w, Current ordered w site env declared minded →
      Matches ordered t nothing env w bv b fun w' x => Completed ordered t w' x
        ∧ (x = .normal → Current ordered w' site env declared minded))
    (rounds : Nat) (hc : Current ordered w site env declared minded) :
    Matches ordered t nothing env w (Lox.executeWhile cv bv rounds) (Lox.executeWhile c b rounds)
      fun w' x => Completed ordered t w' x
        ∧ (x = .normal → Current ordered w' site env declared minded) := by
  induction rounds generalizing w with
  | zero => exact .outOfFuel
  | succ rounds ih =>
    refine (hcondition w hc).bind fun w₁ v _ hc₁ => ?_
    split
    · refine (hbody w₁ hc₁).bind fun w₂ x _ hpost => ?_
      cases x with
      | normal => exact ih (hpost.2 rfl)
      | returned u => exact .pure ⟨hpost.1, fun h => by cases h⟩
    · exact .pure ⟨trivial, fun _ => hc₁⟩

/-- A block is executed in a scope of its own, which the variant may look at. -/
theorem Matches.block (hV : Faithful ordered V) (hx : Executes ordered t executed execute)
    {body : List Stmt} (hl : Stmt.LinkedEach t (site.enter []) body)
    (hc : Current ordered w site env later minded)
    (ho : ordered → InOrder (site.scopes ≠ []) (.block body) later minded) :
    Matches ordered t nothing env w
      ((V none).block (Run.environment >>= fun e => Run.extend e [] >>= fun i =>
        Run.within i (Lox.executeEach executed body)))
      (Run.environment >>= fun e => Run.extend e [] >>= fun i =>
        Run.within i (Lox.executeEach execute body))
      fun w' c => Completed ordered t w' c ∧ Current ordered w' site env later minded := by
  have hblock : Matches ordered t nothing env w
      (Run.extend env [] >>= fun i => Run.within i (Lox.executeEach executed body))
      (Run.extend env [] >>= fun i => Run.within i (Lox.executeEach execute body))
      (Completed ordered t) := by
    refine Matches.of_conforms fun ⟨m, hm⟩ => ?_
    refine Matches.forget env (Stmt.declaredEach body) ?_
    refine (Matches.extend .nil (· ∈ Stmt.declaredEach body) fun _ n hn => nomatch hn).bind
      fun w₁ inner _ hw₁ => ?_
    obtain ⟨rfl, rfl⟩ := hw₁
    have hin : Current ordered (w.grow [] (· ∈ Stmt.declaredEach body)) (site.enter [])
        (w.scopes :: env) (Stmt.declaredEach body) (Minded (Stmt.mentionsEach body)) :=
      hc.enter hm.positive fun h => ⟨(ho h).minded, (ho h).late⟩
    have hbody := Matches.executeEach hx hl hin (fun _ => trivial)
      fun h => allInOrder_of_scope hl (ho h).orderly (fun _ => id) True
    exact hbody.within
  have hread : Matches ordered t nothing env w
      (Run.environment >>= fun e => Run.extend e [] >>= fun i =>
        Run.within i (Lox.executeEach executed body))
      (Run.environment >>= fun e => Run.extend e [] >>= fun i =>
        Run.within i (Lox.executeEach execute body))
      (Completed ordered t) := Matches.environment_bind hblock
  exact (hread.guarded none (fun _ => hV.block) fun _ _ _ h => h).conseq
    fun _ _ hext h => ⟨h, hc.extend hext fun _ => rfl⟩

/-- A variable is bound to what its initializer yields, and can be read from there on. -/
theorem Matches.initialized {name : Token} {x y : Run Value}
    (h : Matches ordered t (inside env [name.lexeme]) env w x y fun w' v =>
      Conforming ordered t w' v v ∧ Current ordered w' site env (name.lexeme :: later) minded) :
    Matches ordered t (inside env [name.lexeme]) env w
      (x >>= fun v => Run.define name.lexeme v >>= fun _ => pure .normal)
      (y >>= fun v => Run.define name.lexeme v >>= fun _ => pure .normal)
      fun w' c => Completed ordered t w' c
        ∧ (c = .normal → Current ordered w' (site.bind name true) env later minded) := by
  refine h.bind fun w₁ v _ hpost => ?_
  obtain ⟨hconforming, hc⟩ := hpost
  have hbind : w₁.Extends (inside env [name.lexeme]) (w₁.bind (env.headD 0) name.lexeme) :=
    World.extends_bind (.inr ⟨hc.chain.head?_eq, List.mem_singleton_self _⟩)
  refine (Matches.define hc (declares_first site name later)
    (hconforming.mono (.refl t) hbind)).bind fun w₂ _ _ hc₂ => ?_
  exact .pure ⟨trivial, fun _ => hc₂⟩

/-- The methods of a class are in order if its declaration is. -/
theorem InOrder.methods {name : Token} {superclass : Option Expr} {methods : List Routine}
    (h : InOrder (site.scopes ≠ []) (.classDecl name superclass methods) later minded) :
    MethodsInOrder site later minded methods := by
  intro r hr
  have hmentions : r.mentions ⊆ (Stmt.classDecl name superclass methods).mentions :=
    List.subset_append_of_subset_right _ (Routine.mentions_subset hr)
  exact ⟨Routine.orderly_of_mem h.orderly hr, fun n hn => h.minded n (hn.mono hmentions),
    fun hs n hn => h.late hs n (hn.mono hmentions)⟩

/-- The superclass of a class is evaluated at the place of the declaration. -/
theorem Evaluates.superclass (hv : Evaluates ordered t evaluated evaluate) {ancestor : Expr}
    (hl : ancestor.Linked t site) (hc : Current ordered w site env declared minded)
    (hm : ordered → ∀ n, Minded ancestor.mentions n → minded n) (line : Nat) :
    Matches ordered t nothing env w
      (some <$> (evaluated none ancestor >>= Lox.asSuperclass line))
      (some <$> (evaluate ancestor >>= Lox.asSuperclass line))
      fun w' q => ∃ p, q = some p ∧ Conforming ordered t w' p.1 p.1
        ∧ p.2.Rel (MethodIn ordered t w') p.2 ∧ Current ordered w' site env declared minded := by
  refine ((hv.current none hc hl hm).bind fun w₁ v _ hpost => ?_).map
  refine (Matches.asSuperclass line hpost.1).conseq fun w₂ p hext h => ?_
  exact ⟨p, rfl, h.1, h.2, hpost.2.extend hext fun _ => rfl⟩

/-- A statement matches if the expressions and statements in it do. -/
theorem Executes.executeBy (hV : Faithful ordered V) (hv : Evaluates ordered t evaluated evaluate)
    (hx : Executes ordered t executed execute) (rounds : Nat) :
    Executes ordered t
      (fun s => (V none).executeBy (evaluated s.initialized?) executed rounds s)
      (fun s => s.executeBy evaluate execute rounds) := by
  intro site env w s later minded hl hc ho
  cases s with
  | expression value =>
    exact ((hv.current none hc hl fun h => (ho h).minded).bind fun w₁ _ _ hpost =>
      .pure ⟨trivial, fun _ => hpost.2⟩).weaken
  | varDecl name initializer =>
    obtain ⟨ha, hl⟩ := hl
    rw [Site.declare_of_admits ha] at hl
    have hafter : (Stmt.varDecl name initializer).after site = site.bind name true :=
      Site.declareReadable_fst site name
    rw [hafter]
    cases initializer with
    | none => exact .initialized (.pure ⟨.nil, hc⟩)
    | some e =>
      refine .initialized (hv.initializer hc hl fun h => ⟨(ho h).minded, fun hs => ?_⟩)
      simpa [Stmt.assignsOwn] using (ho h).own hs
  | block body =>
    exact ((Matches.block hV hx hl hc ho).conseq fun _ _ _ h => ⟨h.1, fun _ => h.2⟩).weaken
  | ifThen condition thenBranch =>
    obtain ⟨hcondition, hthen, hdeclares⟩ := hl
    refine ((hv.current none hc hcondition fun h n hn =>
      (ho h).minded n (hn.mono (List.subset_append_left _ _))).bind fun w₁ v _ hpost => ?_).weaken
    split
    · exact hx.undeclaring hthen hdeclares hpost.2 fun h =>
        (ho h).branch (ho h).orderly (List.subset_append_right _ _) hdeclares
    · exact .pure ⟨trivial, fun _ => hpost.2⟩
  | ifElse condition thenBranch elseBranch =>
    obtain ⟨hcondition, hthen, helse⟩ := hl
    have hboth : ordered → thenBranch.orderly = true ∧ elseBranch.orderly = true := fun h => by
      simpa [Stmt.orderly] using (ho h).orderly
    refine ((hv.current none hc hcondition fun h n hn => (ho h).minded n (hn.mono
      (List.subset_append_of_subset_left _ (List.subset_append_left _ _)))).bind
        fun w₁ v _ hpost => ?_).weaken
    split
    · exact hx.undeclaring hthen.1 hthen.2 hpost.2 fun h => (ho h).branch (hboth h).1
        (List.subset_append_of_subset_left _ (List.subset_append_right _ _)) hthen.2
    · exact hx.undeclaring helse.1 helse.2 hpost.2 fun h =>
        (ho h).branch (hboth h).2 (List.subset_append_right _ _) helse.2
  | whileLoop condition body =>
    obtain ⟨hcondition, hbody, hdeclares⟩ := hl
    refine (Matches.executeWhile (fun w' hc => ?_) (fun w' hc => ?_) rounds hc).weaken
    · exact (hv.current none hc hcondition fun h n hn =>
        (ho h).minded n (hn.mono (List.subset_append_left _ _))).conseq fun _ _ _ h => h.2
    · exact hx.undeclaring hbody hdeclares hc fun h =>
        (ho h).branch (ho h).orderly (List.subset_append_right _ _) hdeclares
  | funDecl routine =>
    obtain ⟨ha, hl⟩ := hl
    rw [Site.declareReadable_of_admits ha] at hl
    refine (Matches.declareFunction hc hl fun h =>
      ⟨(ho h).orderly, (ho h).minded, (ho h).late⟩).bind fun w₁ _ _ hc₁ => ?_
    refine .pure ⟨trivial, fun _ => ?_⟩
    rwa [Stmt.after, Site.declareReadable_fst]
  | returnValue keyword value =>
    cases value with
    | none => exact .pure ⟨.nil, fun h => by cases h⟩
    | some e =>
      exact ((hv.current none hc hl fun h => (ho h).minded).bind fun w₁ v _ hpost =>
        .pure ⟨hpost.1, fun h => by cases h⟩).weaken
  | classDecl name superclass methods =>
    obtain ⟨ha, hl⟩ := hl
    have hafter : (Stmt.classDecl name superclass methods).after site = site.bind name true :=
      Site.declareReadable_fst site name
    rw [hafter]
    cases superclass with
    | none =>
      simp only [Site.declareReadable_of_admits ha] at hl
      have hnone : Matches ordered t (inside env [name.lexeme]) env w (pure none) (pure none)
          fun w' (q : Option (Value × Class)) =>
            q = none ∧ Current ordered w' site env (name.lexeme :: later) minded := .pure ⟨rfl, hc⟩
      refine hnone.bind fun w₁ _ _ hpost => ?_
      obtain ⟨rfl, hc₁⟩ := hpost
      refine (Matches.declareClass_base hc₁ hl fun h => (ho h).methods).bind fun w₂ _ _ hc₂ => ?_
      exact .pure ⟨trivial, fun _ => hc₂⟩
    | some ancestor =>
      simp only [Site.declareReadable_of_admits ha] at hl
      have hsuper := hv.superclass hl.1 hc (fun h n hn =>
        (ho h).minded n (hn.mono (List.subset_append_left _ _))) (ancestor.line?.getD name.line)
      refine hsuper.weaken.bind fun w₁ _ _ hpost => ?_
      obtain ⟨p, rfl, hp, hd, hc₁⟩ := hpost
      refine (Matches.declareClass_derived hc₁ hp hd hl.2 fun h => (ho h).methods).bind
        fun w₂ _ _ hc₂ => ?_
      exact .pure ⟨trivial, fun _ => hc₂⟩

/-! ### Programs -/

/-- Linked expressions and statements match. -/
theorem all_match (hV : Faithful ordered V) (t : Table) (fuel : Nat) :
    Evaluates ordered t (V.evaluate fuel) (Lox.evaluate fuel)
      ∧ Executes ordered t (V.execute fuel) (Lox.execute fuel) := by
  induction fuel with
  | zero => exact ⟨fun _ => .outOfFuel, fun _ _ _ => .outOfFuel⟩
  | succ fuel ih =>
    exact ⟨fun h => Evaluates.evaluateBy hV ih.1 ih.2 h, Executes.executeBy hV ih.1 ih.2 fuel⟩

/-- A place outside of all functions and blocks. -/
theorem Current.globals (ordered : Prop) (w : World) (hs : site.scopes = [])
    (declared : List String) : Current ordered w site .globals declared fun _ => True where
  readable := fun scope h => by simp [hs] at h
  chain := hs ▸ .globals
  ahead _ := by
    rw [hs]
    trivial

/-- A program that is run in the globals matches, and adds names that its own statements declare. -/
theorem Matches.program (hV : Faithful ordered V) (fuel : Nat) {p : Program}
    (hl : Stmt.LinkedEach t site p) (hs : site.scopes = [])
    (ho : ordered → AllInOrder False (fun _ => True) p) :
    Matches ordered t (inside .globals (Stmt.declaredEach p)) .globals w
      (p.forM fun s => discard (V.execute fuel s)) (p.forM fun s => discard (Lox.execute fuel s))
      fun _ _ => True := by
  induction p generalizing site w with
  | nil => exact .pure trivial
  | cons s rest ih =>
    rw [Stmt.declaredEach_cons]
    have hlocal : ¬ site.scopes ≠ [] := not_not_intro hs
    have horder : ordered → InOrder (site.scopes ≠ []) s (Stmt.declaredEach rest) fun _ => True :=
      fun h => ⟨(ho h).1.orderly, (ho h).1.minded, fun hn => absurd hn hlocal,
        fun hn => absurd hn hlocal⟩
    have hfirst := (all_match hV t fuel).2 hl.1 (Current.globals ordered w hs _) horder
    refine (hfirst.imp (fun _ _ _ hn => ⟨hn.1, List.mem_append_left _ hn.2⟩)
      fun _ _ _ => id).discard.bind fun w₁ _ _ _ => ?_
    have hafter : (s.after site).scopes = [] := by
      by_contra hne
      exact hlocal (after_scopes_ne_nil hne)
    exact (ih hl.2 hafter fun h => (ho h).2).imp
      (fun _ _ _ hn => ⟨hn.1, List.mem_append_right _ hn.2⟩) fun _ _ _ => id

/-! ### Machines outside of all programs -/

/-- There are no local scopes yet. -/
def World.initial : World where
  scopes := 1
  names := fun i => if i = 0 then Machine.initialGlobals.names else []
  allowed := fun _ _ => True

/-- A fresh machine conforms, whatever its distances are. -/
theorem Conforms.fresh (ordered : Prop) (t : Table) (console : Console) (clock : Nat → Float) :
    Conforms ordered t .initial { Machine.fresh console clock with distances := t.distances } := by
  have hglobals : Bindings.Rel (Conforming ordered t .initial) Machine.initialGlobals
      Machine.initialGlobals := by
    unfold Machine.initialGlobals Bindings.Rel
    rw [List.forall₂_map_left_iff, List.forall₂_map_right_iff, List.forall₂_same]
    exact fun host _ => ⟨rfl, .native host⟩
  refine ⟨rfl, rfl, Nat.one_pos, fun i => ?_, fun _ _ _ _ _ _ => trivial, fun i => ?_,
    fun _ => .nil⟩
  · cases i <;> rfl
  · cases i with
    | zero => exact hglobals
    | succ => exact .nil

variable {m : Machine}

/-- Variants interpret a linked program as the evaluator does. Only the globals have new names, and
these are declared by the statements of the program. -/
theorem Conforms.interpretVariants (hm : Conforms ordered t w m) (he : m.environment = .globals)
    (hV : Faithful ordered V) {p : Program} (hl : Stmt.LinkedEach t {} p)
    (ho : ordered → p.orderly = true) (fuel : Nat) :
    m.interpretBy (V.execute fuel) p = m.interpret fuel p
      ∧ (m.interpret fuel p).2.environment = .globals
      ∧ ∃ w', w.Extends (inside .globals (Stmt.declaredEach p)) w'
        ∧ Conforms ordered t w' (m.interpret fuel p).2 := by
  obtain ⟨hsame, w', hext, hm', he', -⟩ :=
    Matches.program hV fuel hl rfl (fun h => allInOrder_of_program (ho h)) m hm he
  have hafter : (m.interpret fuel p).2
      = machineOf ((p.forM fun s => discard (Lox.execute fuel s)) m) :=
    Run.answer_machine _ m
  refine ⟨?_, hafter ▸ he', w', hext, hafter ▸ hm'⟩
  unfold Machine.interpret Machine.interpretBy Run.answer
  rw [hsame]

/-- So does a variant that makes no difference in initializers. -/
theorem Conforms.interpretBy (hm : Conforms ordered t w m) (he : m.environment = .globals)
    {V : Variant} (hV : Faithful ordered (.everywhere V)) {p : Program}
    (hl : Stmt.LinkedEach t {} p) (ho : ordered → p.orderly = true) (fuel : Nat) :
    m.interpretBy (V.execute fuel) p = m.interpret fuel p
      ∧ (m.interpret fuel p).2.environment = .globals
      ∧ ∃ w', w.Extends (inside .globals (Stmt.declaredEach p)) w'
        ∧ Conforms ordered t w' (m.interpret fuel p).2 := by
  rw [← (Variants.everywhere_eq V fuel).2]
  exact hm.interpretVariants he hV hl ho fuel

end

end Scopes

end Lox
