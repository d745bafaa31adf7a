import Lox.Proofs.Execution.Counterparts
import Lox.Proofs.Lexical.World

/-!
Values of the machine and of the lexical meaning. The two differ in what a function keeps of the
place it was declared in: its environment, and the names in force there. `ValueRel` relates them when
the function is linked by the table for exactly these scopes, which only depends on the table and the
world and so outlives every step (`ValueRel.mono`); programs cannot tell related values apart.
-/

namespace Lox

namespace Lexical

/-! ### Values -/

section

variable (t : Table) (w : World)

/-- The two are the same function. -/
structure FunctionRel (c : Closure) (c' : Closure Names) : Prop where
  routine : c'.routine = c.routine
  isInitializer : c'.isInitializer = c.isInitializer
  linked : ∃ site kind, c.routine.Linked t site kind
    ∧ InForce w site.scopes c.environment c'.environment
    ∧ (c.isInitializer = true → site.scopes.head? = some Site.thisScope)

/-- The two are the same method, which has not been bound to an object. -/
structure MethodRel (c : Closure) (c' : Closure Names) : Prop where
  routine : c'.routine = c.routine
  isInitializer : c'.isInitializer = c.isInitializer
  linked : ∃ (site : Site) (kind : BodyKind), c.routine.Linked t (site.enter Site.thisScope) kind
    ∧ InForce w site.scopes c.environment c'.environment

/-- The two are the same class. -/
structure ClassRel (c : Class) (c' : Class Names) : Prop where
  name : c'.name = c.name
  layers : List.Forall₂ (Bindings.Rel (MethodRel t w)) c.layers c'.layers

/-- The two are the same value. -/
inductive ValueRel : Value → Value Names → Prop where
  | nil : ValueRel .nil .nil
  | boolean (value : Bool) : ValueRel (.boolean value) (.boolean value)
  | number (value : Float) : ValueRel (.number value) (.number value)
  | string (text : String) : ValueRel (.string text) (.string text)
  | native (host : Native) : ValueRel (.native host) (.native host)
  | function (id : Nat) {c : Closure} {c' : Closure Names} (h : FunctionRel t w c c') :
      ValueRel (.function id c) (.function id c')
  | classOf (id : Nat) {c : Class} {c' : Class Names} (h : ClassRel t w c c') :
      ValueRel (.classOf id c) (.classOf id c')
  | object (id : Nat) {c : Class} {c' : Class Names} (h : ClassRel t w c c') :
      ValueRel (.object id c) (.object id c')

end

section

variable {t t' : Table} {w w' : World}

theorem FunctionRel.mono (ht : t.Le t') (hw : w.Le w') {c : Closure} {c' : Closure Names}
    (h : FunctionRel t w c c') : FunctionRel t' w' c c' := by
  obtain ⟨site, kind, hl, hf, hi⟩ := h.linked
  exact ⟨h.routine, h.isInitializer, site, kind, hl.mono ht, hf.mono hw, hi⟩

theorem MethodRel.mono (ht : t.Le t') (hw : w.Le w') {c : Closure} {c' : Closure Names}
    (h : MethodRel t w c c') : MethodRel t' w' c c' := by
  obtain ⟨site, kind, hl, hf⟩ := h.linked
  exact ⟨h.routine, h.isInitializer, site, kind, hl.mono ht, hf.mono hw⟩

theorem ClassRel.mono (ht : t.Le t') (hw : w.Le w') {c : Class} {c' : Class Names}
    (h : ClassRel t w c c') : ClassRel t' w' c c' :=
  ⟨h.name, h.layers.imp fun _ _ hl => hl.mono fun _ _ hm => hm.mono ht hw⟩

theorem classRel_iff {c : Class} {c' : Class Names} :
    ClassRel t w c c' ↔ c.Rel (MethodRel t w) c' :=
  ⟨fun h => ⟨h.name, h.layers⟩, fun h => ⟨h.name, h.layers⟩⟩

/-- Values are related if they are counterparts. -/
theorem valueRel_iff {v : Value} {v' : Value Names} :
    ValueRel t w v v' ↔ v.Rel (FunctionRel t w) (MethodRel t w) v' := by
  constructor
  · intro h
    cases h with
    | nil => exact .nil
    | boolean => exact .boolean _
    | number => exact .number _
    | string => exact .string _
    | native => exact .native _
    | function id h => exact .function id h
    | classOf id h => exact .classOf id (classRel_iff.1 h)
    | object id h => exact .object id (classRel_iff.1 h)
  · intro h
    cases h with
    | nil => exact .nil
    | boolean => exact .boolean _
    | number => exact .number _
    | string => exact .string _
    | native => exact .native _
    | function id h => exact .function id h
    | classOf id h => exact .classOf id (classRel_iff.2 h)
    | object id h => exact .object id (classRel_iff.2 h)

/-- Related values stay so in a larger table and a later world. -/
theorem ValueRel.mono (ht : t.Le t') (hw : w.Le w') {v : Value} {v' : Value Names}
    (h : ValueRel t w v v') : ValueRel t' w' v v' :=
  valueRel_iff.2 ((valueRel_iff.1 h).mono (fun _ _ hf => hf.mono ht hw) fun _ _ hm => hm.mono ht hw)

end

/-! ### What programs see of values -/

section

variable {t : Table} {w : World}

/-- A class and its counterpart have the same methods. -/
theorem ClassRel.method? {c : Class} {c' : Class Names} (h : ClassRel t w c c') (name : String) :
    Option.Rel (MethodRel t w) (c.method? name) (c'.method? name) :=
  (classRel_iff.1 h).method? name

theorem FunctionRel.arity {c : Closure} {c' : Closure Names} (h : FunctionRel t w c c') :
    c'.arity = c.arity :=
  Closure.arity_eq_of_routine h.routine

theorem ClassRel.arity {c : Class} {c' : Class Names} (h : ClassRel t w c c') :
    c'.arity = c.arity :=
  (classRel_iff.1 h).arity fun hm => Closure.arity_eq_of_routine hm.routine

theorem ValueRel.ofLiteral (value : Literal) :
    ValueRel t w (.ofLiteral value) (.ofLiteral value) :=
  valueRel_iff.2 (.ofLiteral value)

variable {v u : Value} {v' u' : Value Names}

theorem ValueRel.isTruthy (h : ValueRel t w v v') : v'.isTruthy = v.isTruthy :=
  (valueRel_iff.1 h).isTruthy

theorem ValueRel.unary (operator : Token) (h : ValueRel t w v v') :
    ResultRel (ValueRel t w) (v.unary operator) (v'.unary operator) :=
  ((valueRel_iff.1 h).unary operator).imp fun _ _ => valueRel_iff.2

theorem ValueRel.binary (operator : Token) (h : ValueRel t w v v') (hu : ValueRel t w u u') :
    ResultRel (ValueRel t w) (v.binary operator u) (v'.binary operator u') :=
  ((valueRel_iff.1 h).binary operator (valueRel_iff.1 hu)).imp fun _ _ => valueRel_iff.2

theorem ValueRel.decides (operator : Token) (h : ValueRel t w v v') :
    v'.decides operator = v.decides operator :=
  (valueRel_iff.1 h).decides operator

end

end Lexical

end Lox
