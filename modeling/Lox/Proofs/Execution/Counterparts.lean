import Mathlib.Data.List.Forall2
import Lox.Evaluation

/-!
Values that differ only in what their functions keep of the place they were declared in. `Value.Rel`
relates two such values, given which functions and which methods are counterparts of each other;
programs cannot tell them apart, neither by an operator nor by a native function, as long as
counterparts have the same name.
-/

namespace Lox

/-! ### Bindings -/

theorem eq_none_or_eq_some_of_rel {α β : Type} {r : α → β → Prop} {a : Option α} {b : Option β}
    (h : Option.Rel r a b) :
    (a = none ∧ b = none) ∨ ∃ x y, a = some x ∧ b = some y ∧ r x y := by
  cases h with
  | none => exact .inl ⟨rfl, rfl⟩
  | some hr => exact .inr ⟨_, _, rfl, rfl, hr⟩

theorem getElem?_of_beginning {α : Type} {xs ys : List α} (h : xs <+: ys) {i : Nat} {x : α}
    (hx : xs[i]? = some x) : ys[i]? = some x := by
  obtain ⟨rest, rfl⟩ := h
  obtain ⟨hlt, -⟩ := List.getElem?_eq_some_iff.1 hx
  rw [List.getElem?_append_left hlt, hx]

/-- The same names in the same order, with related values. -/
def Bindings.Rel {α β : Type} (r : α → β → Prop) : Bindings α → Bindings β → Prop :=
  List.Forall₂ fun a b => a.1 = b.1 ∧ r a.2 b.2

namespace Bindings.Rel

variable {α β : Type} {r s : α → β → Prop} {b : Bindings α} {c : Bindings β}

theorem mono (h : ∀ x y, r x y → s x y) (hb : Rel r b c) : Rel s b c :=
  List.Forall₂.imp (fun _ _ he => ⟨he.1, h _ _ he.2⟩) hb

theorem get? (h : Rel r b c) (name : String) : Option.Rel r (b.get? name) (c.get? name) := by
  induction h with
  | nil => exact .none
  | @cons x y b c he _ ih =>
    obtain ⟨key, x⟩ := x
    obtain ⟨key', y⟩ := y
    obtain ⟨rfl, hr⟩ := he
    rw [get?_cons, get?_cons]
    split
    · exact .some hr
    · exact ih

theorem binds (h : Rel r b c) (name : String) : b.binds name = c.binds name := by
  unfold Bindings.binds
  rcases eq_none_or_eq_some_of_rel (h.get? name) with ⟨hb, hc⟩ | ⟨x, y, hb, hc, -⟩ <;>
    simp [hb, hc]

theorem set (h : Rel r b c) (name : String) {x : α} {y : β} (hr : r x y) :
    Rel r (b.set name x) (c.set name y) := by
  induction h with
  | nil => exact .cons ⟨rfl, hr⟩ .nil
  | @cons x' y' b c he hbc ih =>
    obtain ⟨key, x'⟩ := x'
    obtain ⟨key', y'⟩ := y'
    obtain ⟨rfl, hr'⟩ := he
    rw [Bindings.set, Bindings.set]
    split
    · exact .cons ⟨rfl, hr⟩ hbc
    · exact .cons ⟨rfl, hr'⟩ ih

end Bindings.Rel

/-! ### Values -/

section

variable {E E' : Type} (function method : Closure E → Closure E' → Prop)

theorem Closure.name_eq_of_routine {c : Closure E} {c' : Closure E'} (h : c'.routine = c.routine) :
    c'.name = c.name := by
  rw [Closure.name, Closure.name, h]

theorem Closure.arity_eq_of_routine {c : Closure E} {c' : Closure E'}
    (h : c'.routine = c.routine) : c'.arity = c.arity := by
  rw [Closure.arity, Closure.arity, h]

/-- The two are the same class. -/
structure Class.Rel (c : Class E) (c' : Class E') : Prop where
  name : c'.name = c.name
  layers : List.Forall₂ (Bindings.Rel method) c.layers c'.layers

/-- The two are the same value. -/
inductive Value.Rel : Value E → Value E' → Prop where
  | nil : Value.Rel .nil .nil
  | boolean (value : Bool) : Value.Rel (.boolean value) (.boolean value)
  | number (value : Float) : Value.Rel (.number value) (.number value)
  | string (text : String) : Value.Rel (.string text) (.string text)
  | native (host : Native) : Value.Rel (.native host) (.native host)
  | function (id : Nat) {c : Closure E} {c' : Closure E'} (h : function c c') :
      Value.Rel (.function id c) (.function id c')
  | classOf (id : Nat) {c : Class E} {c' : Class E'} (h : c.Rel method c') :
      Value.Rel (.classOf id c) (.classOf id c')
  | object (id : Nat) {c : Class E} {c' : Class E'} (h : c.Rel method c') :
      Value.Rel (.object id c) (.object id c')

end

section

variable {E E' : Type} {function method function₂ method₂ : Closure E → Closure E' → Prop}

theorem Class.Rel.mono (hm : ∀ c c', method c c' → method₂ c c') {c : Class E} {c' : Class E'}
    (h : c.Rel method c') : c.Rel method₂ c' :=
  ⟨h.name, h.layers.imp fun _ _ hl => hl.mono hm⟩

theorem Value.Rel.mono (hf : ∀ c c', function c c' → function₂ c c')
    (hm : ∀ c c', method c c' → method₂ c c') {v : Value E} {v' : Value E'}
    (h : v.Rel function method v') : v.Rel function₂ method₂ v' := by
  cases h with
  | nil => exact .nil
  | boolean => exact .boolean _
  | number => exact .number _
  | string => exact .string _
  | native => exact .native _
  | function id h => exact .function id (hf _ _ h)
  | classOf id h => exact .classOf id (h.mono hm)
  | object id h => exact .object id (h.mono hm)

/-- A class and its counterpart have the same methods. -/
theorem Class.Rel.method? {c : Class E} {c' : Class E'} (h : c.Rel method c') (name : String) :
    Option.Rel method (c.method? name) (c'.method? name) := by
  unfold Class.method?
  have hl := h.layers
  generalize c.layers = layers, c'.layers = layers' at hl
  induction hl with
  | nil => exact .none
  | cons hb _ ih =>
    rw [List.findSome?_cons, List.findSome?_cons]
    rcases eq_none_or_eq_some_of_rel (hb.get? name) with ⟨hx, hy⟩ | ⟨x, y, hx, hy, hm⟩
    · rw [hx, hy]
      exact ih
    · rw [hx, hy]
      exact .some hm

theorem Class.Rel.arity (hm : ∀ {m m'}, method m m' → m'.arity = m.arity) {c : Class E}
    {c' : Class E'} (h : c.Rel method c') : c'.arity = c.arity := by
  unfold Class.arity Class.initializer?
  rcases eq_none_or_eq_some_of_rel (h.method? Routine.initializerName) with
    ⟨hx, hy⟩ | ⟨x, y, hx, hy, hr⟩
  · rw [hx, hy]
    rfl
  · rw [hx, hy]
    simp [hm hr]

/-- Methods with the same names that are counterparts where they are declared make up
counterparts. -/
theorem methodLayer_rel_of_forall₂ {e : E} {e' : E'} {methods methods' : List Routine}
    (h : List.Forall₂ (fun r r' => r'.name.lexeme = r.name.lexeme
      ∧ method ⟨r, e, r.isInitializer⟩ ⟨r', e', r'.isInitializer⟩) methods methods') :
    Bindings.Rel method (methodLayer e methods) (methodLayer e' methods') := by
  unfold methodLayer
  have hstart : Bindings.Rel method [] [] := .nil
  generalize ([] : Bindings (Closure E)) = b, ([] : Bindings (Closure E')) = b' at hstart
  induction h generalizing b b' with
  | nil => exact hstart
  | cons hr _ ih =>
    rw [List.foldl_cons, List.foldl_cons, hr.1]
    exact ih _ _ (hstart.set _ hr.2)

theorem methodLayer_rel {e : E} {e' : E'} {methods : List Routine}
    (h : ∀ r ∈ methods, method ⟨r, e, r.isInitializer⟩ ⟨r, e', r.isInitializer⟩) :
    Bindings.Rel method (methodLayer e methods) (methodLayer e' methods) :=
  methodLayer_rel_of_forall₂ (List.forall₂_same.2 fun r hr => ⟨rfl, h r hr⟩)

/-! ### Operators -/

theorem Value.Rel.ofLiteral (value : Literal) :
    (Value.ofLiteral value : Value E).Rel function method (Value.ofLiteral value : Value E') := by
  cases value with
  | nil => exact .nil
  | boolean => exact .boolean _
  | number => exact .number _
  | string => exact .string _

variable {v u : Value E} {v' u' : Value E'}

theorem Value.Rel.isTruthy (h : v.Rel function method v') : v'.isTruthy = v.isTruthy := by
  cases h with
  | boolean value => cases value <;> rfl
  | _ => rfl

theorem Value.Rel.decides (operator : Token) (h : v.Rel function method v') :
    v'.decides operator = v.decides operator := by
  unfold Value.decides
  rw [h.isTruthy]

theorem Value.Rel.display (hf : ∀ {c c'}, function c c' → c'.name = c.name)
    (h : v.Rel function method v') : v'.display = v.display := by
  cases h with
  | boolean value => cases value <;> rfl
  | function id h => simp [Value.display, hf h]
  | classOf id h | object id h => simp [Value.display, h.name]
  | _ => rfl

theorem Value.Rel.equals (h : v.Rel function method v') (hu : u.Rel function method u') :
    v'.equals u' = v.equals u := by
  cases h <;> cases hu <;> rfl

/-- The fault is one of finding the scope or the location of a name. -/
def IsScoping : RuntimeFault → Prop
  | .undefinedVariable _ | .scopeChainTooShort | .superOutsideSubclass => True
  | _ => False

/-- The two results are related, or the same fault, which is none of scoping. -/
def ResultRel {α β : Type} (r : α → β → Prop) :
    Except RuntimeFault α → Except RuntimeFault β → Prop
  | .ok a, .ok b => r a b
  | .error cause, .error cause' => cause' = cause ∧ ¬ IsScoping cause
  | _, _ => False

theorem ResultRel.imp {α β : Type} {r s : α → β → Prop} (hs : ∀ a b, r a b → s a b)
    {x : Except RuntimeFault α} {y : Except RuntimeFault β} (h : ResultRel r x y) :
    ResultRel s x y := by
  cases x <;> cases y
  · exact h
  · exact h
  · exact h
  · exact hs _ _ h

theorem Value.Rel.unary (operator : Token) (h : v.Rel function method v') :
    ResultRel (Value.Rel function method) (v.unary operator) (v'.unary operator) := by
  unfold Value.unary
  split
  · cases h with
    | number => exact Value.Rel.number _
    | _ => exact ⟨rfl, id⟩
  · rw [h.isTruthy]
    exact Value.Rel.boolean _
  · exact ⟨rfl, id⟩

theorem Value.Rel.arithmetic? (operator : Kind) (a b : Float) :
    Option.Rel (Value.Rel function method) (Value.arithmetic? operator a b)
      (Value.arithmetic? operator a b) := by
  unfold Value.arithmetic?
  split
  all_goals first
    | exact .some (.number _)
    | exact .some (.boolean _)
    | exact .none

theorem Value.Rel.add (h : v.Rel function method v') (hu : u.Rel function method u') :
    ResultRel (Value.Rel function method) (v.add u) (v'.add u') := by
  cases h with
  | number =>
    cases hu with
    | number => exact Value.Rel.number _
    | _ => exact ⟨rfl, id⟩
  | string =>
    cases hu with
    | string => exact Value.Rel.string _
    | _ => exact ⟨rfl, id⟩
  | _ => exact ⟨rfl, id⟩

theorem Value.Rel.binary (operator : Token) (h : v.Rel function method v')
    (hu : u.Rel function method u') :
    ResultRel (Value.Rel function method) (v.binary operator u) (v'.binary operator u') := by
  unfold Value.binary
  split
  · exact h.add hu
  · rw [h.equals hu]
    exact Value.Rel.boolean _
  · rw [h.equals hu]
    exact Value.Rel.boolean _
  · cases h with
    | number a =>
      cases hu with
      | number b =>
        have hvalue : Option.Rel (Value.Rel function method)
            (Value.arithmetic? operator.kind a b) (Value.arithmetic? operator.kind a b) :=
          Value.Rel.arithmetic? operator.kind a b
        rcases eq_none_or_eq_some_of_rel hvalue with ⟨hx, hy⟩ | ⟨x, y, hx, hy, hr⟩
        · simp only [hx, hy]
          exact ⟨rfl, id⟩
        · simp only [hx, hy]
          exact hr
      | _ => exact ⟨rfl, id⟩
    | _ => exact ⟨rfl, id⟩

/-! ### Native functions -/

theorem Value.Rel.parseNum (h : v.Rel function method v') :
    ResultRel (Value.Rel function method) v.parseNum v'.parseNum := by
  cases h with
  | string text =>
    unfold Value.parseNum
    dsimp only
    split
    · exact Value.Rel.number _
    · exact ⟨rfl, id⟩
  | _ => exact ⟨rfl, id⟩

/-- The two uses of a host do the same to it, with related results or one fault, which is none of
scoping. -/
def UsesAlike {α β : Type} (r : α → β → Prop) (use : EStateM Stop Host α)
    (use' : EStateM Stop Host β) : Prop :=
  ∀ host, match use host, use' host with
    | .ok a host', .ok b host'' => host'' = host' ∧ r a b
    | .error (.fault line cause) host', .error stop host'' =>
      host'' = host' ∧ stop = .fault line cause ∧ ¬ IsScoping cause
    | _, _ => False

theorem UsesAlike.imp {α β : Type} {r s : α → β → Prop} (hs : ∀ a b, r a b → s a b)
    {use : EStateM Stop Host α} {use' : EStateM Stop Host β} (h : UsesAlike r use use') :
    UsesAlike s use use' := by
  intro host
  have h := h host
  split at h
  · exact ⟨h.1, hs _ _ h.2⟩
  · exact h
  · exact h.elim

/-- A text is printed. -/
theorem UsesAlike.print {α β : Type} {r : α → β → Prop} {a : α} {b : β} (hr : r a b) (text : String)
    (line : Nat) :
    UsesAlike r (Host.print text line >>= fun _ => pure a)
      (Host.print text line >>= fun _ => pure b) := by
  intro host
  simp only [Bind.bind, EStateM.bind, Host.print]
  cases hp : (host.console.print text).1 with
  | none => exact ⟨rfl, hr⟩
  | some cause => exact ⟨rfl, rfl, id⟩

/-- A native function is called with counterparts. -/
theorem Native.call_alike (hf : ∀ {c c'}, function c c' → c'.name = c.name) (native : Native)
    {args : List (Value E)} {args' : List (Value E')}
    (hargs : List.Forall₂ (Value.Rel function method) args args') (line : Nat) :
    UsesAlike (Value.Rel function method) (native.call args line) (native.call args' line) := by
  have harg : (args.headD .nil).Rel function method (args'.headD .nil) := by
    cases hargs with
    | nil => exact .nil
    | cons h _ => exact h
  unfold Native.call
  generalize args.headD .nil = a, args'.headD .nil = a' at harg
  cases native with
  | clock => exact fun host => ⟨rfl, .number _⟩
  | print =>
    dsimp only
    rw [harg.display hf]
    exact .print .nil _ line
  | println =>
    dsimp only
    rw [harg.display hf]
    exact .print .nil _ line
  | readln =>
    intro host
    simp only [Bind.bind, EStateM.bind, Host.readLine]
    cases (host.console.readLine).1 with
    | ended => exact ⟨rfl, .nil⟩
    | text contents => exact ⟨rfl, .string _⟩
    | unreadable => exact ⟨rfl, rfl, id⟩
  | parseNum =>
    intro host
    dsimp only
    have hp := harg.parseNum
    revert hp
    cases a.parseNum <;> cases a'.parseNum <;> intro hp
    · obtain ⟨rfl, hcause⟩ := hp
      exact ⟨rfl, rfl, hcause⟩
    · exact hp.elim
    · exact hp.elim
    · exact ⟨rfl, hp⟩

end

end Lox
