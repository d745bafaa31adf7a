import Lox.Proofs.Dispatch.Simulation

/-!
Calls, properties and declarations. Where the lexical meaning declares `this` for a method that is
bound, and `super` for the methods of a class with a superclass, the other meaning puts the object,
and the superclass, into the place of the method (`MethodRel.bindTo`, `declareClass_derived`); where
the one reads these names, the other asks the place (`superMethod`). That the statements of a body are
executed in step is assumed (`Executes`).
-/

namespace Lox

namespace Dispatch

open Lexical (Location Names)

/-- The two statements are completed in the same way. -/
inductive CompletionRel (w : World) : Completion Names → Completion Place → Prop where
  | normal : CompletionRel w .normal .normal
  | returned {v : Value Names} {v' : Value Place} (h : ValueRel w v v') :
      CompletionRel w (.returned v) (.returned v')

/-- The statement is completed in the same way on both sides, and the place after it is that of the
next one. -/
def Executed (site : Site) (s : Stmt) (w : World) (c : Names × Completion Names)
    (c' : Place × Completion Place) : Prop :=
  CompletionRel w c.2 c'.2 ∧ Stands w (s.after site).scopes c.1 c'.1

/-- Linked statements are executed in step. -/
def Executes (run : Lexical.Executor) (spec : Executor) : Prop :=
  ∀ {t : Table} {site : Site} {names : Names} {place : Place} {w : World} {s : Stmt},
    s.Linked t site → Stands w site.scopes names place →
    Simulates w (run names s) (spec place s) (Executed site s)

section

variable {t : Table} {w : World} {names : Names} {place : Place} {run : Lexical.Executor}
  {spec : Executor} {args : List (Value Names)} {args' : List (Value Place)}

/-! ### Functions and methods -/

/-- Statements are executed in step one after the other. -/
theorem Simulates.executeEach (hx : Executes run spec) {site : Site} {body : List Stmt}
    (hl : Stmt.LinkedEach t site body) (hs : Stands w site.scopes names place) :
    Simulates w (Lexical.executeEach run names body) (Dispatch.executeEach spec place body)
      CompletionRel := by
  induction body generalizing site names place w with
  | nil => exact .pure .normal
  | cons s rest ih =>
    refine (hx hl.1 hs).bind fun w' c c' _ hpost => ?_
    obtain ⟨names', c⟩ := c
    obtain ⟨place', c'⟩ := c'
    obtain ⟨hrel, hafter⟩ := hpost
    cases hrel with
    | normal => exact ih hl.2 hafter
    | returned hv => exact .pure (.returned hv)

/-- A function is called. -/
theorem Simulates.callClosure (hx : Executes run spec) {c : Closure Names} {c' : Closure Place}
    (hc : FunctionRel w c c') (hargs : List.Forall₂ (ValueRel w) args args') (line : Nat) :
    Simulates w (Lexical.callClosure run c args line) (Dispatch.callClosure spec c' args' line)
      ValueRel := by
  obtain ⟨t, site, kind, hl, hf, hinit⟩ := hc.linked
  obtain ⟨hnames, -, hbody⟩ := Routine.linked_iff.1 hl
  have hinside : Stands w ({ site with body := some kind }.enter []).scopes c.environment.enter
      c'.environment.enter := hf.enter
  unfold Lexical.callClosure Dispatch.callClosure
  rw [hc.routine, hc.isInitializer]
  refine (Simulates.declareEach hinside hnames hargs).bind fun w₁ names₁ place₁ hext₁ h₁ => ?_
  refine (Simulates.executeEach hx hbody (h₁.declareEach hnames)).bind
    fun w₂ _ _ hext₂ hcompletion => ?_
  by_cases hi : c.isInitializer = true
  · rw [if_pos hi, if_pos hi]
    exact .receiver ((hinit hi).mono (hext₁.trans hext₂)) line
  · rw [if_neg hi, if_neg hi]
    cases hcompletion with
    | normal => exact .pure .nil
    | returned hv => exact .pure hv

/-- A method is bound to an object: on one side `this` is declared to be the object. -/
theorem MethodRel.bindTo {c : Closure Names} {c' : Closure Place} (hc : MethodRel w c c') (id : Nat)
    (d' : Class Place) :
    FunctionRel (w ++ [.constant (.object id d')])
      { c with environment := c.environment.declared "this" w.length }
      (Dispatch.bind c' id d') := by
  obtain ⟨t, site, kind, hl, hv, ha⟩ := hc.linked
  have hw : w <+: w ++ [Role.constant (.object id d')] := List.prefix_append _ _
  have hreceiver : SameReceiver (w ++ [Role.constant (.object id d')])
      (c.environment.declared "this" w.length) (c'.environment.bindTo id d') := by
    refine ⟨w.length, id, .ofClass d', ?_, rfl, by simp⟩
    rw [Names.find?_declared, if_pos rfl]
  refine ⟨hc.routine, hc.isInitializer, t, site.enter Site.thisScope, kind, hl, ?_,
    fun _ => hreceiver⟩
  refine ⟨fun n hthis hsuper => ?_, fun _ => hreceiver, fun {d} hd hd' => ?_⟩
  · rw [Names.find?_declared, if_neg (Ne.symm hthis)]
    exact (hv.mono hw) n hthis hsuper
  · -- The scope of `super` is right around that of `this`, which is the innermost one.
    obtain rfl : d = 0 := by
      simpa [Site.enter, Site.thisScope, List.findIdx?_cons, Bindings.binds, Bindings.get?_cons]
        using hd.symm
    have hsuper : site.scopes.findIdx? (·.binds "super") = some 0 := by
      simpa [Site.enter, Site.thisScope, List.findIdx?_cons, Bindings.binds, Bindings.get?_cons,
        Bindings.get?] using hd'
    obtain ⟨l, identity, superclass, hl, hrest⟩ := (ha hsuper).mono hw
    refine ⟨l, identity, superclass, ?_, hrest⟩
    rw [Names.find?_declared, if_neg (by decide), hl]

/-- A method is bound to an object, in the course of a longer run. -/
theorem Simulates.bindMethod {α β : Type} {next : Closure Names → Lexical.Run α} {spec : Run β}
    {post : World → α → β → Prop} {c : Closure Names} {c' : Closure Place} (hc : MethodRel w c c')
    {id : Nat} {d : Class Names} {d' : Class Place} (hd : ClassRel w d d')
    (h : ∀ w' b, w <+: w' → FunctionRel w' b (Dispatch.bind c' id d') →
      Simulates w' (next b) spec post) :
    Simulates w (Lexical.bind c (.object id d) >>= next) spec post := by
  unfold Lexical.bind
  rw [bind_assoc]
  refine .declared_bind (.object id hd) ?_
  rw [pure_bind]
  exact h _ _ (List.prefix_append _ _) (hc.bindTo id d')

/-- An instance of a class is made and set up. -/
theorem Simulates.instantiate (hx : Executes run spec) {c : Class Names} {c' : Class Place}
    (hc : ClassRel w c c') (hargs : List.Forall₂ (ValueRel w) args args') (line : Nat) :
    Simulates w (Lexical.instantiate run c args line) (Dispatch.instantiate spec c' args' line)
      ValueRel := by
  refine Simulates.newObject.bind fun w₁ id _ hext₁ hid => ?_
  subst hid
  have hc₁ := hc.later hext₁
  have hm := hc₁.method? Routine.initializerName
  unfold Class.initializer?
  rcases eq_none_or_eq_some_of_rel hm with ⟨hnone, hnone'⟩ | ⟨f, f', hsome, hsome', hf⟩
  · simp only [hnone, hnone']
    exact .pure (.object _ hc₁)
  · simp only [hsome, hsome']
    refine .bindMethod hf hc₁ fun w₂ b hext₂ hb => ?_
    have hargs₂ := hargs.imp fun _ _ hr => hr.later (hext₁.trans hext₂)
    refine (Simulates.callClosure hx hb hargs₂ line).bind fun w₃ _ _ hext₃ _ => ?_
    exact .pure (.object _ (hc₁.later (hext₂.trans hext₃)))

/-! ### Calls -/

theorem Simulates.withArity {arity line : Nat} {x : Lexical.Run (Value Names)}
    {y : Run (Value Place)} (hargs : List.Forall₂ (ValueRel w) args args')
    (h : Simulates w x y ValueRel) :
    Simulates w (Lexical.withArity arity args line x) (Dispatch.withArity arity args' line y)
      ValueRel := by
  unfold Lexical.withArity Dispatch.withArity
  rw [← hargs.length_eq]
  split
  · exact h
  · exact .fail _ _

/-- A value is called. -/
theorem Simulates.call (hx : Executes run spec) {v : Value Names} {v' : Value Place}
    (hv : ValueRel w v v') (hargs : List.Forall₂ (ValueRel w) args args') (line : Nat) :
    Simulates w (Lexical.call run v args line) (Dispatch.call spec v' args' line) ValueRel := by
  cases hv with
  | native host =>
    refine .withArity hargs (.ofHost ?_)
    exact host.call_alike (fun hc => Closure.name_eq_of_routine hc.routine) hargs line
  | function id hc =>
    simp only [Lexical.call, Dispatch.call, hc.arity]
    exact .withArity hargs (.callClosure hx hc hargs line)
  | classOf id hc =>
    simp only [Lexical.call, Dispatch.call, hc.arity fun hm => Closure.arity_eq_of_routine hm.routine]
    exact .withArity hargs (.instantiate hx hc hargs line)
  | _ => exact .fail _ _

/-! ### Properties -/

/-- A method of a class, bound to an object, is given. -/
theorem Simulates.boundMethod {c : Class Names} {c' : Class Place} (hc : ClassRel w c c')
    (name : Token) {id : Nat} {d : Class Names} {d' : Class Place} (hd : ClassRel w d d') :
    Simulates w (Lexical.boundMethod c name (.object id d)) (Dispatch.boundMethod c' name id d')
      ValueRel := by
  unfold Lexical.boundMethod Dispatch.boundMethod
  rcases eq_none_or_eq_some_of_rel (hc.method? name.lexeme) with
    ⟨hnone, hnone'⟩ | ⟨f, f', hsome, hsome', hf⟩
  · simp only [hnone, hnone']
    exact .fail _ _
  · simp only [hsome, hsome']
    refine .bindMethod hf hd fun w₁ b _ hb => ?_
    refine Simulates.newIdentity.bind fun w₂ identity _ hext₂ hid => ?_
    subst hid
    exact .pure (.function _ (hb.mono hext₂))

/-- A property of a value is given. -/
theorem Simulates.property {v : Value Names} {v' : Value Place} (hv : ValueRel w v v')
    (name : Token) :
    Simulates w (Lexical.property v name) (Dispatch.property v' name) ValueRel := by
  unfold Lexical.property Dispatch.property
  cases hv with
  | object id hd =>
    refine (Simulates.field? id name.lexeme).bind fun w₁ field field' hext₁ hfield => ?_
    cases hfield with
    | none =>
      have hd := ClassRel.later hext₁ hd
      exact .boundMethod hd name hd
    | some hrel => exact .pure hrel
  | _ => exact .fail _ _

/-- `super` gives a method of the superclass around the place, bound to the receiver. -/
theorem Simulates.superMethod (hr : SameReceiver w names place) (ha : SameAncestor w names place)
    (keyword method : Token) :
    Simulates w (Lexical.superMethod names keyword method)
      (Dispatch.superMethod place keyword method) ValueRel := by
  obtain ⟨l, object, description, hthis, hreceiver, hw⟩ := hr
  obtain ⟨l', id, superclass, hsuper, hancestor, hw'⟩ := ha
  unfold Lexical.superMethod Dispatch.superMethod
  rw [hreceiver, hancestor]
  refine .constant_bind hsuper hw' _ fun v hv => ?_
  cases hv with
  | classOf _ hc =>
    refine .constant_bind hthis hw _ fun u hu => ?_
    cases hu with
    | object _ hd => exact .boundMethod hc method hd

/-! ### Declarations -/

variable {scopes : List (Bindings Bool)} {site : Site} {name : Token}

/-- A function is declared. -/
theorem Simulates.declareFunction {routine : Routine} (hs : Stands w site.scopes names place)
    (hn : routine.name.IsName)
    (hl : routine.Linked t (site.declareReadable routine.name).1 .function) :
    Simulates w (Lexical.declareFunction names routine) (Dispatch.declareFunction place routine)
      fun w' names' place' =>
        Stands w' (site.declareReadable routine.name).1.scopes names' place' := by
  refine (Simulates.declare hs hn).bind fun w₁ names₁ place₁ _ h₁ => ?_
  refine Simulates.newIdentity.bind fun w₂ id _ hext₂ hid => ?_
  subst hid
  have h₂ := (h₁.mono hext₂).declareReadable hn
  have hfunction : FunctionRel w₂ ⟨routine, names₁, false⟩ ⟨routine, place₁, false⟩ :=
    ⟨rfl, rfl, t, _, _, hl, h₂.toFits, nofun⟩
  refine (Simulates.settle h₂.locals hn (.function _ hfunction)).bind fun w₃ _ _ hext₃ _ => ?_
  exact .pure (h₂.mono hext₃)

/-- A value that stands as a superclass is a class on both sides, or on none. -/
theorem Simulates.asSuperclass (line : Nat) {v : Value Names} {v' : Value Place}
    (hv : ValueRel w v v') :
    Simulates w (Lexical.asSuperclass line v) (Dispatch.asSuperclass line v')
      fun w' p c' => (∃ id, p.1 = .classOf id p.2) ∧ ClassRel w' p.2 c' := by
  cases hv with
  | classOf id hc => exact .pure ⟨⟨id, rfl⟩, hc⟩
  | _ => exact .fail _ _

/-- The last step of a class declaration: its name, which has been declared already, gets the
class. -/
theorem Simulates.defineClass (hs : Stands w scopes names place) (hn : name.IsName)
    {layers : List (Bindings (Closure Names))} {layers' : List (Bindings (Closure Place))}
    (hlayers : List.Forall₂ (Bindings.Rel (MethodRel w)) layers layers') :
    Simulates w
      (Lexical.newIdentity >>= fun id =>
        Lexical.settle names name.lexeme (.classOf id ⟨name.lexeme, layers⟩) >>= fun _ => pure names)
      (Dispatch.newIdentity >>= fun id =>
        Dispatch.settle place name.lexeme (.classOf id ⟨name.lexeme, layers'⟩) >>= fun _ =>
          pure place)
      fun w' names' place' => Stands w' scopes names' place' := by
  refine Simulates.newIdentity.bind fun w₁ id _ hext₁ hid => ?_
  subst hid
  have hclass : ClassRel w ⟨name.lexeme, layers⟩ ⟨name.lexeme, layers'⟩ := ⟨rfl, hlayers⟩
  have hs₁ := hs.mono hext₁
  refine (Simulates.settle hs₁.locals hn (.classOf _ (hclass.later hext₁))).bind
    fun w₂ _ _ hext₂ _ => ?_
  exact .pure (hs₁.mono hext₂)

/-- A class without a superclass is declared. -/
theorem Simulates.declareClass_base {methods : List Routine} (hs : Stands w site.scopes names place)
    (hn : name.IsName)
    (hl : Routine.LinkedEach t
      ({ (site.declareReadable name).1 with classBody := some .base }.enter Site.thisScope) methods) :
    Simulates w (Lexical.declareClass names name none methods)
      (Dispatch.declareClass place name none methods)
      fun w' names' place' => Stands w' (site.declareReadable name).1.scopes names' place' := by
  refine (Simulates.declare hs hn).bind fun w₁ names₁ place₁ _ h₁ => ?_
  refine (Simulates.settle h₁.locals hn .nil).bind fun w₂ _ _ hext₂ _ => ?_
  have h₂ := (h₁.mono hext₂).declareReadable hn
  have hlayer : Bindings.Rel (MethodRel w₂) (methodLayer names₁ methods)
      (methodLayer (place₁.inherit none) methods) := by
    refine methodLayer_rel fun r hr => ⟨rfl, rfl, t, _, _, hl.of_mem hr, h₂.locals, fun hsuper => ?_⟩
    -- The innermost scope around the class is not one of `super`.
    exact absurd hsuper (h₂.findIdx?_super_ne_zero)
  exact .defineClass h₂ hn (.cons hlayer .nil)

/-- A class with a superclass is declared: on one side `super` is declared to be the superclass. -/
theorem Simulates.declareClass_derived {methods : List Routine} {p : Value Names × Class Names}
    {c' : Class Place} (hs : Stands w site.scopes names place) (hn : name.IsName)
    (hp : (∃ id, p.1 = .classOf id p.2) ∧ ClassRel w p.2 c')
    (hl : Routine.LinkedEach t
      (({ (site.declareReadable name).1 with classBody := some .derived }.enter Site.superScope).enter
        Site.thisScope) methods) :
    Simulates w (Lexical.declareClass names name (some p) methods)
      (Dispatch.declareClass place name (some c') methods)
      fun w' names' place' => Stands w' (site.declareReadable name).1.scopes names' place' := by
  obtain ⟨superclass, c⟩ := p
  obtain ⟨⟨id, (rfl : superclass = .classOf id c)⟩, hc⟩ := hp
  refine (Simulates.declare hs hn).bind fun w₁ names₁ place₁ hext₁ h₁ => ?_
  refine (Simulates.settle h₁.locals hn .nil).bind fun w₂ _ _ hext₂ _ => ?_
  have h₂ := (h₁.mono hext₂).declareReadable hn
  have hc₂ := hc.later (hext₁.trans hext₂)
  have hclass : ValueRel w₂ (.classOf id c) (.classOf id c') := .classOf id hc₂
  refine .declared_bind hclass ?_
  have hext₃ : w₂ <+: w₂ ++ [Role.constant (.classOf id c')] := List.prefix_append _ _
  have h₃ := h₂.mono hext₃
  have hlayer : Bindings.Rel (MethodRel (w₂ ++ [Role.constant (.classOf id c')]))
      (methodLayer (names₁.declared "super" w₂.length) methods)
      (methodLayer (place₁.inherit (some c')) methods) := by
    refine methodLayer_rel fun r hr =>
      ⟨rfl, rfl, t, _, _, hl.of_mem hr, fun n hthis hsuper => ?_, fun _ => ?_⟩
    · rw [Names.find?_declared, if_neg (Ne.symm hsuper)]
      exact h₃.locals n hthis hsuper
    · refine ⟨w₂.length, id, .ofClass c', ?_, rfl, by simp⟩
      rw [Names.find?_declared, if_pos rfl]
  exact .defineClass h₃ hn (.cons hlayer (hc₂.later hext₃).layers)

end

end Dispatch

end Lox
