import Lox.Proofs.Lexical.Calls

/-!
Properties of values, and declarations of functions and classes. A property and a `super` give a
method of a class bound to an object; a class keeps its methods where the names around them are those
in force after its own declaration, and in a class with a superclass one scope further in.
-/

namespace Lox

namespace Lexical

section

variable {k : Watch} {t : Table} {w : World} {env : Environment} {names : Names}
  {inside : Option ScopeId} {site : Site}

/-! ### Properties -/

/-- A method of a class, bound to an object, is given. -/
theorem Simulates.boundMethod {c : Class} {c' : Class Names} (hc : ClassRel t w c c') (name : Token)
    {id : Nat} {d : Class} {d' : Class Names} (hd : ClassRel t w d d') :
    Simulates k t env none w (c.boundMethod name (.object id d)) (c.boundMethod name (.object id d))
      (Lexical.boundMethod c' name (.object id d')) (ValueRel t) := by
  unfold Class.boundMethod Lexical.boundMethod
  rcases eq_none_or_eq_some_of_rel (hc.method? name.lexeme) with
    ⟨hnone, hnone'⟩ | ⟨f, f', hsome, hsome', hf⟩
  · simp only [hnone, hnone']
    exact .fail fun h => h
  · simp only [hsome, hsome']
    refine (Simulates.bindMethod hf hd).bind fun w₁ b b' _ hb => ?_
    refine Simulates.newIdentity.bind fun w₂ identity _ hext₂ hid => ?_
    subst hid
    exact .pure (.function _ (hb.1.mono (.refl t) hext₂.toLe))

/-- A property of a value is given. -/
theorem Simulates.property {v : Value} {v' : Value Names} (hv : ValueRel t w v v') (name : Token) :
    Simulates k t env none w (v.property name) (v.property name) (Lexical.property v' name)
      (ValueRel t) := by
  unfold Value.property Lexical.property
  cases hv with
  | object id hd =>
    refine (Simulates.field? id name.lexeme).bind fun w₁ field field' hext₁ hfield => ?_
    cases hfield with
    | none =>
      have hd := hd.mono (.refl t) hext₁.toLe
      exact .boundMethod hd name hd
    | some hrel => exact .pure hrel
  | _ => exact .fail id

/-- The table is asked for a distance. -/
theorem Simulates.distance_bind {α β : Type} {id : Nat} {distance : Option Nat}
    {watched run : Option Nat → Lox.Run α} {spec : Run β} {post : World → α → β → Prop}
    (hg : t.Gives id distance)
    (h : Simulates k t env inside w (watched distance) (run distance) spec post) :
    Simulates k t env inside w (Run.distance? id >>= watched) (Run.distance? id >>= run) spec
      post := by
  intro m st ha he
  have hid : m.distances[id]? = distance := ha.distances ▸ hg.2
  simpa only [Bind.bind, EStateM.bind, Run.distance?, hid] using h m st ha he

/-- `super` gives a method of the class bound around the scope of `this`. -/
theorem Simulates.superMethod {id : Nat} {keyword method : Token}
    (hl : (Expr.super id keyword method).Linked t site) (hf : InForce w site.scopes env names) :
    Simulates k t env none w (Lox.superMethod id keyword method) (Lox.superMethod id keyword method)
      (Lexical.superMethod names keyword method) (ValueRel t) := by
  obtain ⟨-, hsuper, hthis, d, hg, hd, hd'⟩ := hl
  refine Simulates.distance_bind hg (Simulates.environment_bind ?_)
  refine (Simulates.getAt hf hd hsuper).bind fun w₁ v v' hext₁ hpost => ?_
  obtain ⟨hv, hfits⟩ := hpost
  obtain ⟨identity, c, rfl⟩ := hfits.2 rfl
  cases hv with
  | classOf _ hc =>
    refine (Simulates.getAt (hf.mono hext₁.toLe) hd' hthis).bind fun w₂ u u' hext₂ hpost => ?_
    obtain ⟨hu, hfits⟩ := hpost
    obtain ⟨object, description, rfl⟩ := hfits.1 rfl
    cases hu with
    | object _ hdescription =>
      exact .boundMethod (hc.mono (.refl t) hext₂.toLe) method hdescription

/-! ### Declarations -/

variable {name : Token}

/-- A place of the program where a name is declared. -/
theorem Simulates.declare_bind {α β : Type} {watched run : Lox.Run α} {spec : Names → Run β}
    {post : World → α → β → Prop} (hc : Current w site.scopes env names) (ha : site.Admits name)
    (h : ∀ w' names', w.Extends env.head? w' →
      Current w' (site.bind name false).scopes env names' →
      Simulates k t env env.head? w' watched run (spec names') post) :
    Simulates k t env env.head? w watched run (Lexical.declare names name.lexeme >>= spec) post :=
  Simulates.spec_bind (fun _ _ hagrees => hagrees.declare_step hc ha) h

/-- A name that has been declared is bound. -/
theorem Simulates.define {flag : Bool} (hc : Current w (site.bind name flag).scopes env names)
    (hn : name.IsName) {v : Value} {v' : Value Names}
    (hv : ValueRel t (w.bind (env.headD 0) name.lexeme) v v') :
    Simulates k t env none w (Run.define name.lexeme v) (Run.define name.lexeme v)
      (Lexical.settle names name.lexeme v')
      fun w' _ _ => Current w' (site.bind name true).scopes env names := by
  refine of_ok fun m st ha he => ?_
  obtain ⟨st', hsettle, ha'⟩ := ha.settle_step hc hn hv
  exact ⟨(), _, (), st', _, by rw [Run.define, he], hsettle, World.extends_bind _ _, ha', he,
    hc.settle⟩

/-- A function is declared. -/
theorem Simulates.declareFunction {routine : Routine} (hc : Current w site.scopes env names)
    (ha : site.Admits routine.name) (hl : routine.Linked t (site.bind routine.name true) .function) :
    Simulates k t env env.head? w (Lox.declareFunction routine) (Lox.declareFunction routine)
      (Lexical.declareFunction names routine)
      fun w' _ names' => Current w' (site.bind routine.name true).scopes env names' := by
  refine Simulates.declare_bind hc ha fun w₁ names₁ _ hc₁ => Simulates.environment_bind ?_
  have hidentity : Simulates k t env none w₁ Run.newIdentity Run.newIdentity Lexical.newIdentity
      fun w' a b => b = a ∧ Current w' (site.bind routine.name false).scopes env names₁ :=
    Simulates.newIdentity.conseq fun _ _ _ hext h => ⟨h, hc₁.extend hext⟩
  refine hidentity.weaken.bind fun w₂ id _ _ hpost => ?_
  obtain ⟨rfl, hc₂⟩ := hpost
  have hfunction : FunctionRel t (w₂.bind (env.headD 0) routine.name.lexeme)
      ⟨routine, env, false⟩ ⟨routine, names₁, false⟩ :=
    ⟨rfl, rfl, _, _, hl, hc₂.settle.inForce, fun h => by simp at h⟩
  exact (Simulates.define hc₂ ha.1 (.function _ hfunction)).weaken.spec_map

/-- The methods of a class are related where they are declared. -/
theorem methodRel_methodLayer (site : Site) {methods : List Routine}
    (hf : InForce w site.scopes env names)
    (hl : Routine.LinkedEach t (site.enter Site.thisScope) methods) :
    Bindings.Rel (MethodRel t w) (methodLayer env methods) (methodLayer names methods) := by
  refine methodLayer_rel fun r hr => ⟨rfl, rfl, site, r.methodKind, ?_, hf⟩
  exact hl.of_mem hr

/-- A superclass with the class that it is. -/
structure SuperclassRel (t : Table) (w : World) (p : Value × Class)
    (p' : Value Names × Class Names) : Prop where
  value : ValueRel t w p.1 p'.1
  description : ClassRel t w p.2 p'.2
  isClass : ∃ id c, p.1 = .classOf id c

theorem Simulates.asSuperclass (line : Nat) {v : Value} {v' : Value Names}
    (hv : ValueRel t w v v') :
    Simulates k t env none w (Lox.asSuperclass line v) (Lox.asSuperclass line v)
      (Lexical.asSuperclass line v') (SuperclassRel t) := by
  cases hv with
  | classOf id hc => exact .pure ⟨.classOf id hc, hc, id, _, rfl⟩
  | _ => exact .fail id

/-- The last step of a class declaration: its name, which has been bound already, is bound to the
class. -/
theorem Simulates.defineClass (hc : Current w (site.bind name true).scopes env names)
    (hn : name.IsName) {layers : List (Bindings Closure)} {layers' : List (Bindings (Closure Names))}
    (hlayers : List.Forall₂ (Bindings.Rel (MethodRel t w)) layers layers') :
    Simulates k t env none w
      (Run.newIdentity >>= fun id =>
        Run.define name.lexeme (.classOf id ⟨name.lexeme, layers⟩))
      (Run.newIdentity >>= fun id =>
        Run.define name.lexeme (.classOf id ⟨name.lexeme, layers⟩))
      (Lexical.newIdentity >>= fun id =>
        Lexical.settle names name.lexeme (.classOf id ⟨name.lexeme, layers'⟩) >>= fun _ =>
          pure names)
      fun w' _ names' => Current w' (site.bind name true).scopes env names' := by
  refine Simulates.newIdentity.bind fun w₁ id _ hext₁ hid => ?_
  subst hid
  have hc₁ := hc.extend hext₁
  have hbind : w₁.Extends none (w₁.bind (env.headD 0) name.lexeme) := World.extends_bind _ _
  have hclass : ClassRel t w ⟨name.lexeme, layers⟩ ⟨name.lexeme, layers'⟩ := ⟨rfl, hlayers⟩
  have hclass := hclass.mono (.refl t) (hext₁.toLe.trans hbind.toLe)
  exact (Simulates.define hc₁ hn (.classOf _ hclass)).spec_map

/-- A class without a superclass is declared. -/
theorem Simulates.declareClass_base {methods : List Routine}
    (hc : Current w site.scopes env names) (ha : site.Admits name)
    (hl : Routine.LinkedEach t
      ({ site.bind name true with classBody := some .base }.enter Site.thisScope) methods) :
    Simulates k t env env.head? w (Lox.declareClass name none methods)
      (Lox.declareClass name none methods) (Lexical.declareClass names name none methods)
      fun w' _ names' => Current w' (site.bind name true).scopes env names' := by
  refine Simulates.declare_bind hc ha fun w₁ names₁ _ hc₁ => ?_
  refine (Simulates.define hc₁ ha.1 .nil).weaken.bind fun w₂ _ _ _ hc₂ => ?_
  refine Simulates.environment_bind ?_
  have hlayer := methodRel_methodLayer { site.bind name true with classBody := some .base }
    hc₂.inForce hl
  exact (Simulates.defineClass hc₂ ha.1 (.cons hlayer .nil)).weaken

/-- A class with a superclass is declared. -/
theorem Simulates.declareClass_derived {methods : List Routine} {p : Value × Class}
    {p' : Value Names × Class Names} (hc : Current w site.scopes env names) (ha : site.Admits name)
    (hp : SuperclassRel t w p p')
    (hl : Routine.LinkedEach t
      (({ site.bind name true with classBody := some .derived }.enter Site.superScope).enter
        Site.thisScope) methods) :
    Simulates k t env env.head? w (Lox.declareClass name (some p) methods)
      (Lox.declareClass name (some p) methods) (Lexical.declareClass names name (some p') methods)
      fun w' _ names' => Current w' (site.bind name true).scopes env names' := by
  obtain ⟨hvalue, hdescription, hclass⟩ := hp
  refine Simulates.declare_bind hc ha fun w₁ names₁ hext₁ hc₁ => ?_
  refine (Simulates.define hc₁ ha.1 .nil).weaken.bind fun w₂ _ _ hext₂ hc₂ => ?_
  refine Simulates.environment_bind ?_
  have hle₂ := hext₁.toLe.trans hext₂.toLe
  have hfits : Fits "super" p.1 := ⟨fun h => by simp at h, fun _ => hclass⟩
  refine (Simulates.extend_one hc₂.inForce (hvalue.mono (.refl t) hle₂) hfits).conseq
    (fun _ _ _ hext hf => And.intro hf (hc₂.extend hext)) |>.weaken.bind
    fun w₃ e names₃ hext₃ hpost => ?_
  obtain ⟨hf, hc₃⟩ := hpost
  have hlayer := methodRel_methodLayer
    ({ site.bind name true with classBody := some .derived }.enter Site.superScope) hf hl
  have hinherited := (hdescription.mono (.refl t) (hle₂.trans hext₃.toLe)).layers
  exact (Simulates.defineClass hc₃ ha.1 (.cons hlayer hinherited)).weaken

end

end Lexical

end Lox
