import Lox.Proofs.Scopes.Places

/-!
Calls. The body of a function is executed in a scope of its own, inside the chain that the function
keeps, so that a call leaves the names of all scopes that were there before it as they are
(`Matches.call`). That the body itself matches is assumed here (`Bodies`); it is proved of functions,
methods, classes and native functions, and of the properties and of `super`, which bind methods.
-/

namespace Lox

namespace Scopes

/-! ### Statements in order -/

/-- The statement is orderly, and mentions none of the names that are declared later in its scope, if
that is a local one. -/
structure InOrder (isLocal : Prop) (s : Stmt) (later : List String) (minded : String → Prop) :
    Prop where
  orderly : s.orderly = true
  minded : ∀ n, Minded s.mentions n → minded n
  own : isLocal → s.assignsOwn = false
  late : isLocal → ∀ n, Minded s.mentions n → n ∉ later

/-- The statements are in order one after the other. -/
def AllInOrder (isLocal : Prop) (minded : String → Prop) : List Stmt → Prop
  | [] => True
  | s :: rest => InOrder isLocal s (Stmt.declaredEach rest) minded ∧ AllInOrder isLocal minded rest

/-- Only names are declared. -/
theorem isName_of_declared {t : Table} {site : Site} {body : List Stmt}
    (h : Stmt.LinkedEach t site body) : ∀ n ∈ Stmt.declaredEach body, n ≠ "this" ∧ n ≠ "super" := by
  induction body generalizing site with
  | nil => simp [Stmt.declaredEach]
  | cons s rest ih =>
    intro n hn
    rw [Stmt.declaredEach_cons] at hn
    rcases List.mem_append.1 hn with hn | hn
    · have hs := h.1
      cases s with
      | varDecl name _ | classDecl name _ _ =>
        obtain rfl : n = name.lexeme := by simpa [Stmt.declared?] using hn
        exact hs.1.1
      | funDecl routine =>
        obtain rfl : n = routine.name.lexeme := by simpa [Stmt.declared?] using hn
        exact hs.1.1
      | _ => simp [Stmt.declared?] at hn
    · exact ih h.2 n hn

theorem allInOrder_of_scope {t : Table} {site : Site} {body : List Stmt}
    (hl : Stmt.LinkedEach t site body) (h : Stmt.orderlyScope body = true)
    {minded : String → Prop} (hm : ∀ n, Minded (Stmt.mentionsEach body) n → minded n)
    (isLocal : Prop) : AllInOrder isLocal minded body := by
  induction body generalizing site with
  | nil => trivial
  | cons s rest ih =>
    obtain ⟨horderly, hown, hlate, hrest⟩ := Stmt.orderlyScope_cons.1 h
    refine ⟨⟨horderly, fun n hn => hm n (hn.mono (List.subset_append_left _ _)), fun _ => hown,
      fun _ n hn hd => ?_⟩, ih hl.2 hrest fun n hn => hm n (hn.mono (List.subset_append_right _ _))⟩
    have hname := isName_of_declared hl.2 n hd
    rcases hn with hn | hn | hn
    · exact hlate n hn hd
    · exact hname.1 hn
    · exact hname.2 hn

/-- The globals may be declared in any order. -/
theorem allInOrder_of_program {p : Program} (h : p.orderly = true) :
    AllInOrder False (fun _ => True) p := by
  induction p with
  | nil => trivial
  | cons s rest ih =>
    simp only [Program.orderly, List.all_cons, Bool.and_eq_true] at h ih
    exact ⟨⟨h.1, fun _ _ => trivial, False.elim, False.elim⟩, ih h.2⟩

/-! ### Bodies -/

section

variable (ordered : Prop) (t : Table)

/-- What a statement leaves conforms. -/
def Completed (w : World) : Completion → Prop
  | .normal => True
  | .returned v => Conforming ordered t w v v

/-- Linked statements match. -/
def Executes (executed execute : Stmt → Run Completion) : Prop :=
  ∀ {site : Site} {env : Environment} {w : World} {s : Stmt} {later : List String}
    {minded : String → Prop}, s.Linked t site →
    Current ordered w site env (s.declared?.toList ++ later) minded →
    (ordered → InOrder (site.scopes ≠ []) s later minded) →
    Matches ordered t (inside env s.declared?.toList) env w (executed s) (execute s)
      fun w' c => Completed ordered t w' c
        ∧ (c = .normal → Current ordered w' (s.after site) env later minded)

/-- Linked bodies of functions match. -/
def Bodies (bodied run : List Stmt → Run Completion) : Prop :=
  ∀ {site : Site} {env : Environment} {w : World} {body : List Stmt}, Stmt.LinkedEach t site body →
    Current ordered w site env (Stmt.declaredEach body) (Minded (Stmt.mentionsEach body)) →
    (ordered → Stmt.orderlyScope body = true) →
    Matches ordered t (inside env (Stmt.declaredEach body)) env w (bodied body) (run body)
      (Completed ordered t)

end

section

variable {ordered : Prop} {t : Table} {w : World} {env : Environment} {site : Site} {new : Additions}
  {V : Variants} {executed execute : Stmt → Run Completion}

theorem after_scopes_ne_nil {s : Stmt} (h : (s.after site).scopes ≠ []) : site.scopes ≠ [] := by
  intro hs
  refine h ?_
  cases s with
  | varDecl name _ | classDecl name _ _ =>
    rw [Stmt.after, Site.declareReadable_fst, Site.bind_scopes, hs]
  | funDecl routine => rw [Stmt.after, Site.declareReadable_fst, Site.bind_scopes, hs]
  | _ => exact hs

/-- Statements match one after the other. -/
theorem Matches.executeEach (hx : Executes ordered t executed execute) {body : List Stmt}
    {minded : String → Prop} (hl : Stmt.LinkedEach t site body)
    (hc : Current ordered w site env (Stmt.declaredEach body) minded) {isLocal : Prop}
    (hs : site.scopes ≠ [] → isLocal) (ho : ordered → AllInOrder isLocal minded body) :
    Matches ordered t (inside env (Stmt.declaredEach body)) env w (Lox.executeEach executed body)
      (Lox.executeEach execute body) (Completed ordered t) := by
  induction body generalizing site w with
  | nil => exact .pure trivial
  | cons s rest ih =>
    rw [Stmt.declaredEach_cons] at hc ⊢
    have hs' : ordered → InOrder (site.scopes ≠ []) s (Stmt.declaredEach rest) minded := fun h =>
      ⟨(ho h).1.orderly, (ho h).1.minded, fun hlocal => (ho h).1.own (hs hlocal),
        fun hlocal => (ho h).1.late (hs hlocal)⟩
    refine ((hx hl.1 hc hs').imp (fun i _ n hn => ⟨hn.1, List.mem_append_left _ hn.2⟩)
      fun _ _ _ => id).bind fun w' c _ hpost => ?_
    obtain ⟨hcompleted, hcurrent⟩ := hpost
    cases c with
    | normal =>
      exact (ih hl.2 (hcurrent rfl) (fun hn => hs (after_scopes_ne_nil hn))
        fun h => (ho h).2).imp (fun i _ n hn => ⟨hn.1, List.mem_append_right _ hn.2⟩)
          fun _ _ _ => id
    | returned v => exact .pure hcompleted

/-- Bodies match if statements do, also with what the variant puts around a body. -/
theorem Executes.bodies (hx : Executes ordered t executed execute) (hV : Faithful ordered V)
    (own : Option String) :
    Bodies ordered t (fun body => (V own).body (Lox.executeEach executed body))
      (Lox.executeEach execute) := by
  intro site env w body hl hc ho
  have hbody := Matches.executeEach hx hl hc (fun _ => trivial)
    fun h => allInOrder_of_scope hl (ho h) (fun _ => id) True
  exact hbody.guarded env.head? (fun he => he ▸ hV.body) fun i n hi hn => hi hn.1.symm

/-! ### Functions and methods -/

variable {bodied run : List Stmt → Run Completion}

/-- What the resolver has seen of the scope of a function when it comes to the body. -/
def parameterScope (params : List Token) : Bindings Bool :=
  params.foldl (fun b p => b.set p.lexeme true) []

/-- What a call binds in its scope is what the resolver has seen there. -/
theorem frame_names {c : Closure} {args : List Value} (hlength : args.length = c.arity) :
    (c.frame args).names = (parameterScope c.routine.params).names := by
  have hparams : (c.routine.params.zip args).map Prod.fst = c.routine.params :=
    List.map_fst_zip (Nat.le_of_eq hlength.symm)
  unfold Closure.frame parameterScope
  nth_rewrite 2 [← hparams]
  rw [List.foldl_map]
  exact names_foldl_set (fun e : Token × Value => e.1.lexeme) Prod.snd (fun _ => true) _ rfl

theorem conforming_foldl_set {entries : List (Token × Value)}
    (he : ∀ e ∈ entries, Conforming ordered t w e.2 e.2) {b : Bindings Value}
    (hb : Bindings.Rel (Conforming ordered t w) b b) :
    Bindings.Rel (Conforming ordered t w)
      (entries.foldl (fun b e => b.set e.1.lexeme e.2) b)
      (entries.foldl (fun b e => b.set e.1.lexeme e.2) b) := by
  induction entries generalizing b with
  | nil => exact hb
  | cons e rest ih =>
    exact ih (fun e' he' => he e' (List.mem_cons_of_mem e he'))
      (hb.set _ (he e List.mem_cons_self))

/-- A call binds arguments only. -/
theorem frame_conforming {c : Closure} {args : List Value}
    (hargs : ∀ v ∈ args, Conforming ordered t w v v) :
    Bindings.Rel (Conforming ordered t w) (c.frame args) (c.frame args) := by
  unfold Closure.frame
  exact conforming_foldl_set (fun e he => hargs e.2 (List.of_mem_zip he).2) .nil

/-- The scope of a call is entered. -/
theorem Placed.enter_frame {c : Closure} {args : List Value} (kind : BodyKind)
    (h : Placed ordered t w c.routine site site.scopes c.environment) (hw : 0 < w.scopes)
    (hlength : args.length = c.arity) :
    Current ordered
      (w.grow (c.frame args).names fun n => (parameterScope c.routine.params).binds n = true
        ∨ n ∈ Stmt.declaredEach c.routine.body)
      (({ site with body := some kind }.enter []).declareEach c.routine.params).1
      (w.scopes :: c.environment) (Stmt.declaredEach c.routine.body)
      (Minded (Stmt.mentionsEach c.routine.body)) := by
  have hscopes : (({ site with body := some kind }.enter []).declareEach c.routine.params).1.scopes
      = parameterScope c.routine.params :: site.scopes :=
    Site.declareEach_scopes rfl _
  have hread : (({ site with body := some kind }.enter []).declareEach
      c.routine.params).1.Readable := by
    have hsite : ({ site with body := some kind } : Site).Readable := h.readable
    exact (hsite.enter fun n => by simp).declareEach _
  refine ⟨hread, ?_, fun ho => ?_⟩
  · rw [hscopes]
    refine h.chain.enter hw fun n hn => ?_
    rw [frame_names hlength, mem_names, Bindings.binds, hn]
    rfl
  · rw [hscopes]
    refine ⟨fun n hn => ?_, fun n => by simp [World.grow], ?_⟩
    · have hn : n ∈ (c.frame args).names := by simpa [World.Binds, World.grow] using hn
      rwa [frame_names hlength, mem_names] at hn
    · rw [← Routine.mentions_eq]
      exact (h.order ho).2.allowed h.chain (w.extends_grow nothing _ _)

/-- The names in a scope that was not there before are none of the business of others. -/
theorem Matches.forget (inner : Environment) (names : List String) {α : Type} {varied run : Run α}
    {post : World → α → Prop}
    (h : Matches ordered t (inside (w.scopes :: inner) names) env w varied run post) :
    Matches ordered t nothing env w varied run post := by
  refine h.imp (fun i hi n hn => ?_) fun _ _ _ => id
  exact absurd (Option.some.inj hn.1) (Nat.ne_of_gt hi)

/-- A function is called. -/
theorem Matches.callClosure (hb : Bodies ordered t bodied run) {c : Closure}
    (hc : FunctionIn ordered t w c c) {args : List Value}
    (hargs : ∀ v ∈ args, Conforming ordered t w v v) (hlength : args.length = c.arity)
    (line : Nat) :
    Matches ordered t nothing env w (c.call bodied args line) (c.call run args line)
      fun w' v => Conforming ordered t w' v v := by
  obtain ⟨site, hp⟩ := hc.placed
  obtain ⟨kind, hl⟩ := hp.linked
  obtain ⟨-, -, hbody⟩ := Routine.linked_iff.1 hl
  refine Matches.of_conforms fun ⟨m, hm⟩ => ?_
  refine Matches.forget c.environment (Stmt.declaredEach c.routine.body) ?_
  refine (Matches.extend (frame_conforming hargs)
    (fun n => (parameterScope c.routine.params).binds n = true
      ∨ n ∈ Stmt.declaredEach c.routine.body) fun _ n hn => ?_).bind fun w₁ inner hext₁ hw₁ => ?_
  · rw [frame_names hlength, mem_names] at hn
    exact .inl hn
  obtain ⟨rfl, rfl⟩ := hw₁
  have hcurrent := hp.enter_frame kind hm.positive hlength
  have hrun := hb hbody hcurrent fun ho => by rw [← Routine.orderly_eq]; exact (hp.order ho).1
  refine hrun.within.bind fun w₂ completion hext₂ hcompleted => ?_
  split
  · exact .getAt _ _ _ line
  · cases completion with
    | normal => exact .pure .nil
    | returned v => exact .pure hcompleted

/-- A method is bound to an object. -/
theorem Matches.bindMethod {c : Closure} (hc : MethodIn ordered t w c c) {object : Value}
    (hv : Conforming ordered t w object object) :
    Matches ordered t new env w (c.bind object) (c.bind object)
      fun w' b => FunctionIn ordered t w' b b ∧ b.arity = c.arity := by
  obtain ⟨site, hp⟩ := hc.placed
  refine Matches.of_conforms fun ⟨m, hm⟩ => ?_
  refine (Matches.extend (b := [("this", object)]) (.cons ⟨rfl, hv⟩ .nil) (· = "this")
    fun _ n hn => by simpa [Bindings.names] using hn).bind fun w₁ inner _ hw₁ => ?_
  obtain ⟨rfl, rfl⟩ := hw₁
  exact .pure ⟨⟨rfl, site.enter Site.thisScope, hp.enter_one hm.positive "this"⟩, rfl⟩

/-- An instance of a class is made and set up. -/
theorem Matches.instantiate (hb : Bodies ordered t bodied run) {c : Class}
    (hc : c.Rel (MethodIn ordered t w) c) {args : List Value}
    (hargs : ∀ v ∈ args, Conforming ordered t w v v) (hlength : args.length = c.arity)
    (line : Nat) :
    Matches ordered t nothing env w (c.instantiate bodied args line) (c.instantiate run args line)
      fun w' v => Conforming ordered t w' v v := by
  refine Matches.newObject.bind fun w₁ id hext₁ _ => ?_
  have hobject : Conforming ordered t w (.object id c) (.object id c) := .object id hc
  have hobject := hobject.mono (.refl t) hext₁
  have hm := hc.method? Routine.initializerName
  unfold Class.initializer?
  rcases eq_none_or_eq_some_of_rel hm with ⟨hnone, -⟩ | ⟨f, f', hsome, hsome', hf⟩
  · simp only [hnone]
    exact .pure hobject
  · obtain rfl : f' = f := hf.same
    simp only [hsome]
    have harity : c.arity = f'.arity := by simp [Class.arity, Class.initializer?, hsome]
    have hf₁ : MethodIn ordered t w₁ f' f' :=
      ⟨rfl, hf.placed.imp fun _ hp => hp.mono (.refl t) hext₁⟩
    refine (Matches.bindMethod hf₁ hobject).bind fun w₂ bound hext₂ hbound => ?_
    have hargs₂ : ∀ v ∈ args, Conforming ordered t w₂ v v := fun v hv =>
      (hargs v hv).mono (.refl t) (hext₁.trans hext₂)
    refine (Matches.callClosure hb hbound.1 hargs₂ (by rw [hlength, harity, hbound.2]) line).bind
      fun w₃ _ hext₃ _ => ?_
    exact .pure (hobject.mono (.refl t) (hext₂.trans hext₃))

/-- A native function is called. -/
theorem Matches.callNative (native : Native) {args : List Value}
    (hargs : ∀ v ∈ args, Conforming ordered t w v v) (line : Nat) :
    Matches ordered t new env w (Run.ofHost (native.call args line))
      (Run.ofHost (native.call args line)) fun w' v => Conforming ordered t w' v v :=
  ofHost (native.call_alike (fun hc => Closure.name_eq_of_routine hc.routine)
    (List.forall₂_same.2 hargs) line)

/-! ### Calls -/

theorem Matches.withArity {arity : Nat} {args : List Value} {line : Nat} {varied run : Run Value}
    {post : World → Value → Prop}
    (h : args.length = arity → Matches ordered t new env w varied run post) :
    Matches ordered t new env w (Run.withArity arity args line varied)
      (Run.withArity arity args line run) post := by
  unfold Run.withArity
  split
  · exact h (by assumption)
  · exact .fail line _

/-- A call, whatever is called, leaves the names that scopes bind as they are. -/
theorem Matches.call (hb : Bodies ordered t bodied run) {v : Value}
    (hv : Conforming ordered t w v v) {args : List Value}
    (hargs : ∀ v ∈ args, Conforming ordered t w v v) (line : Nat) :
    Matches ordered t nothing env w (v.call bodied args line) (v.call run args line)
      fun w' v => Conforming ordered t w' v v := by
  cases hv with
  | native host => exact .withArity fun _ => .callNative host hargs line
  | function _ hc => exact .withArity fun hlength => .callClosure hb hc hargs hlength line
  | classOf _ hc => exact .withArity fun hlength => .instantiate hb hc hargs hlength line
  | _ => exact .fail line _

/-! ### Properties -/

/-- A method of a class, bound to an object, is given. -/
theorem Matches.boundMethod {c : Class} (hc : c.Rel (MethodIn ordered t w) c) (name : Token)
    {object : Value} (hv : Conforming ordered t w object object) :
    Matches ordered t new env w (c.boundMethod name object) (c.boundMethod name object)
      fun w' v => Conforming ordered t w' v v := by
  unfold Class.boundMethod
  rcases eq_none_or_eq_some_of_rel (hc.method? name.lexeme) with
    ⟨hnone, -⟩ | ⟨f, f', hsome, -, hf⟩
  · simp only [hnone]
    exact .fail name.line _
  · obtain rfl : f' = f := hf.same
    simp only [hsome]
    refine (Matches.bindMethod hf hv).bind fun w₁ bound _ hbound => ?_
    refine Matches.newIdentity.bind fun w₂ id hext₂ _ => ?_
    have hfunction : Conforming ordered t w₁ (.function id bound) (.function id bound) :=
      .function id hbound.1
    exact .pure (hfunction.mono (.refl t) hext₂)

/-- A property of a value is given. -/
theorem Matches.property {v : Value} (hv : Conforming ordered t w v v) (name : Token) :
    Matches ordered t new env w (v.property name) (v.property name)
      fun w' v => Conforming ordered t w' v v := by
  unfold Value.property
  cases hv with
  | object id hc =>
    refine (Matches.field? id name.lexeme).bind fun w₁ field hext₁ hfield => ?_
    cases field with
    | none =>
      have hobject : Conforming ordered t w (.object id _) (.object id _) := .object id hc
      have hobject := hobject.mono (.refl t) hext₁
      cases hobject with
      | object _ hc₁ => exact .boundMethod hc₁ name (.object id hc₁)
    | some field => exact .pure (hfield field rfl)
  | _ => exact .fail name.line _

/-- `super` gives a method of the class bound around the scope of `this`. -/
theorem Matches.superMethod (id : Nat) (keyword method : Token) :
    Matches ordered t new env w (Lox.superMethod id keyword method)
      (Lox.superMethod id keyword method) fun w' v => Conforming ordered t w' v v := by
  have hdistance : Matches ordered t new env w (Run.distance? id) (Run.distance? id)
      fun _ _ => True := .of_read fun _ _ _ => ⟨rfl, rfl, fun _ _ _ => trivial⟩
  refine hdistance.bind fun w₁ distance _ _ => ?_
  cases distance with
  | none => exact .fail keyword.line _
  | some distance =>
    refine Matches.environment_bind ?_
    refine (Matches.getAt env distance "super" keyword.line).bind fun w₂ v _ hv => ?_
    cases v with
    | classOf _ ancestor =>
      refine (Matches.getAt env (distance - 1) "this" keyword.line).bind fun w₃ u hext₃ hu => ?_
      cases u with
      | object object description =>
        have hclass := hv.mono (.refl t) hext₃
        cases hclass with
        | classOf _ hc => exact .boundMethod hc method hu
      | _ => exact .fail keyword.line _
    | _ => exact .fail keyword.line _

end

end Scopes

end Lox
