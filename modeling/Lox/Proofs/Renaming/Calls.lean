import Lox.Proofs.Renaming.Simulation

/-!
Calls, properties and declarations with the new name. A function is called in a scope of its own, whose
mark says whether its parameters have the new name; functions and methods that are declared keep the
marks of the scopes around them. That the statements of a body are executed in step is assumed
(`Executes`).
-/

namespace Lox

namespace Renaming

section

variable (R : Renaming) (k : Watch)

/-- The two statements are completed in the same way. -/
inductive SameCompletion (w : World) : Completion → Completion → Prop where
  | normal : SameCompletion w .normal .normal
  | returned {v v' : Value} (h : R.SameValue w v v') :
      SameCompletion w (.returned v) (.returned v')

/-- Statements with the new name are executed as the statements are. -/
def Executes (execute execute' : Stmt → Run Completion) : Prop :=
  ∀ {place : ScopePlace} {marks : List Bool} {env : Environment} {w : World} {s : Stmt},
    s.Suits R place (marks.headD false) → Marked w marks env →
    R.Mirrors k env w (execute s) (execute' (s.rename R place marks)) R.SameCompletion

end

namespace Mirrors

variable {R : Renaming} {k : Watch} {env : Environment} {w : World} {place : ScopePlace}
  {marks : List Bool} {execute execute' : Stmt → Run Completion} {v v' : Value}
  {args args' : List Value}

/-! ### Functions and methods -/

/-- Statements are executed one after the other. -/
theorem executeEach (hx : R.Executes k execute execute') {i : Nat} {body : List Stmt}
    (hu : Stmt.SuitsEach R place (marks.headD false) i body) (hm : Marked w marks env) :
    R.Mirrors k env w (Lox.executeEach execute body)
      (Lox.executeEach execute' (Stmt.renameEach R place marks i body)) R.SameCompletion := by
  induction body generalizing i w with
  | nil => exact .pure .normal
  | cons s rest ih =>
    refine (hx hu.cons.1 hm).bind fun w₁ c c' hext hc => ?_
    cases hc with
    | normal => exact ih hu.cons.2 (hm.mono hext)
    | returned hv => exact .pure (.returned hv)

/-- A function is called. -/
theorem callClosure (hx : R.Executes k execute execute') {c c' : Closure}
    (hc : R.SameFunction w c c') (hargs : List.Forall₂ (R.SameValue w) args args') (line : Nat) :
    R.Mirrors k env w (c.call (Lox.executeEach execute) args line)
      (c'.call (Lox.executeEach execute') args' line) R.SameValue := by
  obtain ⟨henv, hinit, place, marks, hm, hu, hr⟩ := hc
  obtain ⟨hparams, hbody⟩ := hu.parts
  have hframe : R.SameScope w (R.chosen place) (c.frame args) (c'.frame args') := by
    rw [Closure.frame, Closure.frame, hr, Routine.params_rename]
    exact .setEach hparams hargs (.nil _)
  unfold Closure.call
  rw [henv, hinit, hr, Routine.body_rename, List.nil_append]
  refine (Mirrors.extend hm hframe).bind fun w₁ inside inside' hext₁ hinside => ?_
  obtain ⟨rfl, hmarked⟩ := hinside
  refine (executeEach hx hbody hmarked).within.bind fun w₂ x x' hext₂ hx => ?_
  split
  · exact getAt (hm.mono (hext₁.trans hext₂)) 0 R.this_ne.1 R.this_ne.2 line
  · cases hx with
    | normal => exact .pure .nil
    | returned hv => exact .pure hv

/-- A method is bound to an object. -/
theorem bindMethod {c c' : Closure} (hc : R.SameMethod w c c') (hv : R.SameValue w v v') :
    R.Mirrors k env w (c.bind v) (c'.bind v') R.SameFunction := by
  obtain ⟨henv, hinit, place, marks, hm, hu, hr⟩ := hc
  unfold Closure.bind
  rw [henv]
  refine (Mirrors.extend hm (.keyword hv)).bind fun w₁ inside inside' _ hinside => ?_
  obtain ⟨rfl, hmarked⟩ := hinside
  exact .pure ⟨rfl, hinit, place, false :: marks, hmarked, hu, hr⟩

/-- An instance of a class is made and set up. -/
theorem instantiate (hx : R.Executes k execute execute') {c c' : Class} (hc : R.SameClass w c c')
    (hargs : List.Forall₂ (R.SameValue w) args args') (line : Nat) :
    R.Mirrors k env w (c.instantiate (Lox.executeEach execute) args line)
      (c'.instantiate (Lox.executeEach execute') args' line) R.SameValue := by
  refine Mirrors.newObject.bind fun w₁ id _ hext₁ hid => ?_
  subst hid
  have hc₁ := SameClass.later hext₁ hc
  have hmethod := hc₁.method? Routine.initializerName
  unfold Class.initializer?
  rcases eq_none_or_eq_some_of_rel hmethod with ⟨hnone, hnone'⟩ | ⟨f, f', hsome, hsome', hf⟩
  · simp only [hnone, hnone']
    exact .pure (.object _ hc₁)
  · simp only [hsome, hsome']
    refine (bindMethod hf (.object _ hc₁)).bind fun w₂ b b' hext₂ hb => ?_
    have hargs₂ := hargs.imp fun _ _ hr => SameValue.later (hext₁.trans hext₂) hr
    refine (callClosure hx hb hargs₂ line).bind fun w₃ _ _ hext₃ _ => ?_
    exact .pure (.object _ (SameClass.later (hext₂.trans hext₃) hc₁))

/-! ### Calls -/

theorem withArity {arity line : Nat} {run run' : Run Value}
    (hargs : List.Forall₂ (R.SameValue w) args args') (h : R.Mirrors k env w run run' R.SameValue) :
    R.Mirrors k env w (Run.withArity arity args line run) (Run.withArity arity args' line run')
      R.SameValue := by
  unfold Run.withArity
  rw [← hargs.length_eq]
  split
  · exact h
  · exact .fail _ _

/-- A value is called. -/
theorem call (hx : R.Executes k execute execute') (hv : R.SameValue w v v')
    (hargs : List.Forall₂ (R.SameValue w) args args') (line : Nat) :
    R.Mirrors k env w (v.call (Lox.executeEach execute) args line)
      (v'.call (Lox.executeEach execute') args' line) R.SameValue := by
  cases hv with
  | native host =>
    exact .withArity hargs (.ofHost (host.call_alike (fun hc => hc.name) hargs line))
  | function id hc =>
    simp only [Value.call, hc.arity]
    exact .withArity hargs (.callClosure hx hc hargs line)
  | classOf id hc =>
    simp only [Value.call, hc.arity fun hm => hm.arity]
    exact .withArity hargs (.instantiate hx hc hargs line)
  | _ => exact .fail _ _

/-! ### Properties -/

/-- A method of a class, bound to an object, is given. -/
theorem boundMethod {c c' : Class} (hc : R.SameClass w c c') (name : Token)
    (hv : R.SameValue w v v') :
    R.Mirrors k env w (c.boundMethod name v) (c'.boundMethod name v') R.SameValue := by
  unfold Class.boundMethod
  rcases eq_none_or_eq_some_of_rel (hc.method? name.lexeme) with
    ⟨hnone, hnone'⟩ | ⟨f, f', hsome, hsome', hf⟩
  · simp only [hnone, hnone']
    exact .fail _ _
  · simp only [hsome, hsome']
    refine (bindMethod hf hv).bind fun w₁ b b' _ hb => ?_
    refine Mirrors.newIdentity.bind fun w₂ id _ hext₂ hid => ?_
    subst hid
    exact .pure (.function _ (hb.mono hext₂))

/-- A property of a value is given. -/
theorem property (hv : R.SameValue w v v') (name : Token) :
    R.Mirrors k env w (v.property name) (v'.property name) R.SameValue := by
  unfold Value.property
  cases hv with
  | object id hd =>
    refine (Mirrors.field? id name.lexeme).bind fun w₁ field field' hext₁ hfield => ?_
    cases hfield with
    | none =>
      have hd := SameClass.later hext₁ hd
      exact .boundMethod hd name (.object id hd)
    | some hrel => exact .pure hrel
  | _ => exact .fail _ _

/-- `super` gives a method. -/
theorem superMethod (hm : Marked w marks env) (id : Nat) (keyword method : Token) :
    R.Mirrors k env w (Lox.superMethod id keyword method) (Lox.superMethod id keyword method)
      R.SameValue := by
  refine (Mirrors.distance? id).bind fun w₁ d _ hext₁ hd => ?_
  subst hd
  split
  · exact .fail _ _
  · rename_i distance
    refine Mirrors.environment.bind fun w₂ _ _ hext₂ hsame => ?_
    obtain ⟨rfl, rfl⟩ := hsame
    have hm := hm.mono (hext₁.trans hext₂)
    refine (getAt hm distance R.super_ne.1 R.super_ne.2 _).bind fun w₃ v v' hext₃ hv => ?_
    cases hv with
    | classOf _ hc =>
      refine (getAt (hm.mono hext₃) (distance - 1) R.this_ne.1 R.this_ne.2 _).bind
        fun w₄ u u' hext₄ hu => ?_
      cases hu with
      | object object hd =>
        exact .boundMethod (SameClass.later hext₄ hc) method (.object object hd)
      | _ => exact .fail _ _
    | _ => exact .fail _ _

/-! ### Declarations -/

variable {name : Token}

/-- The name of a function or class is bound, which is not renamed. -/
theorem defineKept (hm : Marked w marks env) (hn : name.lexeme ≠ R.new)
    (hkept : R.token (marks.headD false) name = name) (hv : R.SameValue w v v') :
    R.Mirrors k env w (Run.define name.lexeme v) (Run.define name.lexeme v') fun _ _ _ => True := by
  have hdefine := define (k := k) hm hn hv
  rwa [R.token_eq_self.1 hkept] at hdefine

/-- A function is declared. -/
theorem declareFunction (hm : Marked w marks env) {routine : Routine}
    (hn : routine.name.lexeme ≠ R.new)
    (hkept : R.token (marks.headD false) routine.name = routine.name)
    (hu : routine.Suits R place) :
    R.Mirrors k env w (Lox.declareFunction routine)
      (Lox.declareFunction (routine.rename R place marks)) fun _ _ _ => True := by
  unfold Lox.declareFunction
  rw [Routine.name_rename]
  refine Mirrors.environment.bind fun w₁ _ _ hext₁ hsame => ?_
  obtain ⟨rfl, rfl⟩ := hsame
  refine Mirrors.newIdentity.bind fun w₂ id _ hext₂ hid => ?_
  subst hid
  have hm := hm.mono (hext₁.trans hext₂)
  exact defineKept hm hn hkept (.function _ ⟨rfl, rfl, place, marks, hm, hu, rfl⟩)

/-- The methods of a class as they are declared. -/
theorem sameMethods (hm : Marked w marks env) {i : Nat} {methods : List Routine}
    (hu : Routine.SuitsEach R place i methods) :
    Bindings.Rel (R.SameMethod w) (methodLayer env methods)
      (methodLayer env (Routine.renameEach R place (false :: marks) i methods)) := by
  refine methodLayer_rel_of_forall₂ ?_
  induction methods generalizing i with
  | nil => exact .nil
  | cons r rest ih =>
    refine .cons ⟨?_, ?_⟩ (ih hu.cons.2)
    · rw [Routine.name_rename]
    · exact ⟨rfl, Routine.isInitializer_rename .., _, marks, hm, hu.cons.1, rfl⟩

/-- The last step of a class declaration. -/
theorem defineClass (hm : Marked w marks env) (hn : name.lexeme ≠ R.new)
    (hkept : R.token (marks.headD false) name = name) {layers layers' : List (Bindings Closure)}
    (hlayers : List.Forall₂ (Bindings.Rel (R.SameMethod w)) layers layers') :
    R.Mirrors k env w
      (Run.newIdentity >>= fun id => Run.define name.lexeme (.classOf id ⟨name.lexeme, layers⟩))
      (Run.newIdentity >>= fun id => Run.define name.lexeme (.classOf id ⟨name.lexeme, layers'⟩))
      fun _ _ _ => True := by
  refine Mirrors.newIdentity.bind fun w₁ id _ hext₁ hid => ?_
  subst hid
  have hclass : R.SameClass w ⟨name.lexeme, layers⟩ ⟨name.lexeme, layers'⟩ := ⟨rfl, hlayers⟩
  exact defineKept (hm.mono hext₁) hn hkept (.classOf _ (SameClass.later hext₁ hclass))

/-- A class without a superclass is declared. -/
theorem declareClass_base (hm : Marked w marks env) (hn : name.lexeme ≠ R.new)
    (hkept : R.token (marks.headD false) name = name) {methods : List Routine}
    (hu : Routine.SuitsEach R place 0 methods) :
    R.Mirrors k env w (Lox.declareClass name none methods)
      (Lox.declareClass name none (Routine.renameEach R place (false :: marks) 0 methods))
      fun _ _ _ => True := by
  refine (defineKept hm hn hkept .nil).bind fun w₁ _ _ hext₁ _ => ?_
  refine Mirrors.environment.bind fun w₂ _ _ hext₂ hsame => ?_
  obtain ⟨rfl, rfl⟩ := hsame
  have hm := hm.mono (hext₁.trans hext₂)
  exact .defineClass hm hn hkept (.cons (sameMethods hm hu) .nil)

/-- A class with a superclass is declared. -/
theorem declareClass_derived (hm : Marked w marks env) (hn : name.lexeme ≠ R.new)
    (hkept : R.token (marks.headD false) name = name) {methods : List Routine}
    (hu : Routine.SuitsEach R place 0 methods) {c c' : Class} (hv : R.SameValue w v v')
    (hc : R.SameClass w c c') :
    R.Mirrors k env w (Lox.declareClass name (some (v, c)) methods)
      (Lox.declareClass name (some (v', c'))
        (Routine.renameEach R place (false :: false :: marks) 0 methods))
      fun _ _ _ => True := by
  refine (defineKept hm hn hkept .nil).bind fun w₁ _ _ hext₁ _ => ?_
  refine Mirrors.environment.bind fun w₂ _ _ hext₂ hsame => ?_
  obtain ⟨rfl, rfl⟩ := hsame
  have hm := hm.mono (hext₁.trans hext₂)
  refine (Mirrors.extend hm (.keyword (hv.later (hext₁.trans hext₂)))).bind
    fun w₃ inside inside' hext₃ hinside => ?_
  obtain ⟨rfl, hmarked⟩ := hinside
  have hinherited := SameClass.later ((hext₁.trans hext₂).trans hext₃) hc
  exact .defineClass (hm.mono hext₃) hn hkept (.cons (sameMethods hmarked hu) hinherited.layers)

/-- A value that stands as a superclass is a class in both runs, or in none. -/
theorem asSuperclass (line : Nat) (hv : R.SameValue w v v') :
    R.Mirrors k env w (Lox.asSuperclass line v) (Lox.asSuperclass line v')
      fun w' p p' => R.SameValue w' p.1 p'.1 ∧ R.SameClass w' p.2 p'.2 := by
  cases hv with
  | classOf id hc => exact .pure ⟨.classOf id hc, hc⟩
  | _ => exact .fail _ _

end Mirrors

end Renaming

end Lox
