import Lox.Evaluation
import Lox.Proofs.Tree.Recoding

/-!
Values with other code. A function keeps its declaration, so that the values of a program change with
the lines of its tokens, the numbers of its expressions and the bodies of its functions; but nothing that
a program can see of a value does. `Machine.Recoded` says that two machines are the same but for this.
-/

namespace Lox

namespace Bindings

variable {α β : Type} (f : α → β)

/-- The same names, bound to other values. -/
def mapValues (b : Bindings α) : Bindings β :=
  b.map fun entry => (entry.1, f entry.2)

@[simp] theorem mapValues_nil : mapValues f [] = [] := rfl

@[simp] theorem get?_mapValues (b : Bindings α) (name : String) :
    (b.mapValues f).get? name = (b.get? name).map f := by
  induction b with
  | nil => rfl
  | cons entry rest ih =>
    obtain ⟨key, a⟩ := entry
    rw [mapValues, List.map_cons, get?_cons, get?_cons]
    split
    · rfl
    · exact ih

@[simp] theorem binds_mapValues (b : Bindings α) (name : String) :
    (b.mapValues f).binds name = b.binds name := by
  rw [binds, binds, get?_mapValues, Option.isSome_map]

theorem mapValues_set (b : Bindings α) (name : String) (a : α) :
    (b.set name a).mapValues f = (b.mapValues f).set name (f a) := by
  induction b with
  | nil => rfl
  | cons entry rest ih =>
    obtain ⟨key, old⟩ := entry
    simp only [mapValues, List.map_cons, set] at ih ⊢
    split
    · rfl
    · rw [List.map_cons, ih]

theorem mapValues_mapValues {γ : Type} (f : α → β) (h : β → γ) (b : Bindings α) :
    (b.mapValues f).mapValues h = b.mapValues fun a => h (f a) :=
  List.map_map

theorem mapValues_foldl_set {σ : Type} (name : σ → String) (value : σ → α) (entries : List σ)
    (b : Bindings α) :
    (entries.foldl (fun b e => b.set (name e) (value e)) b).mapValues f
      = entries.foldl (fun b e => b.set (name e) (f (value e))) (b.mapValues f) := by
  induction entries generalizing b with
  | nil => rfl
  | cons e rest ih => rw [List.foldl_cons, List.foldl_cons, ih, mapValues_set]

end Bindings

/-! ### Values -/

section

variable {E : Type} (g : Recoding)

def Closure.recode (c : Closure E) : Closure E :=
  { c with routine := g.routine c.routine }

def Class.recode (c : Class E) : Class E :=
  { c with layers := c.layers.map (Bindings.mapValues (Closure.recode g)) }

/-- The value with other code in it. -/
def Value.recode : Value E → Value E
  | .function id c => .function id (c.recode g)
  | .classOf id c => .classOf id (c.recode g)
  | .object id c => .object id (c.recode g)
  | v => v

def Completion.recode : Completion E → Completion E
  | .normal => .normal
  | .returned v => .returned (v.recode g)

@[simp] theorem Closure.recode_arity (c : Closure E) : (c.recode g).arity = c.arity := by
  simp [Closure.arity, Closure.recode]

@[simp] theorem Class.method?_recode (c : Class E) (name : String) :
    (c.recode g).method? name = (c.method? name).map (Closure.recode g) := by
  unfold Class.method? Class.recode
  induction c.layers with
  | nil => rfl
  | cons layer rest ih =>
    rw [List.map_cons, List.findSome?_cons, List.findSome?_cons, Bindings.get?_mapValues]
    cases layer.get? name with
    | none => exact ih
    | some method => rfl

@[simp] theorem Class.initializer?_recode (c : Class E) :
    (c.recode g).initializer? = c.initializer?.map (Closure.recode g) :=
  c.method?_recode g _

@[simp] theorem Class.recode_arity (c : Class E) : (c.recode g).arity = c.arity := by
  unfold Class.arity
  rw [Class.initializer?_recode]
  cases c.initializer? with
  | none => rfl
  | some initializer => exact initializer.recode_arity g

@[simp] theorem Value.recode_ofLiteral (value : Literal) :
    (Value.ofLiteral value : Value E).recode g = .ofLiteral value := by
  cases value <;> rfl

@[simp] theorem Value.recode_isTruthy (v : Value E) : (v.recode g).isTruthy = v.isTruthy := by
  cases v with
  | boolean value => cases value <;> rfl
  | _ => rfl

@[simp] theorem Value.recode_display (v : Value E) : (v.recode g).display = v.display := by
  cases v with
  | boolean value => cases value <;> rfl
  | function id c => simp [Value.display, Value.recode, Closure.name, Closure.recode]
  | _ => rfl

@[simp] theorem Value.recode_equals (v u : Value E) :
    (v.recode g).equals (u.recode g) = v.equals u := by
  cases v <;> cases u <;> rfl

@[simp] theorem Value.recode_decides (operator : Token) (v : Value E) :
    (v.recode g).decides (operator.relabel g.toRelabel) = v.decides operator := by
  unfold Value.decides
  rw [Value.recode_isTruthy, Token.relabel_kind]

theorem Value.recode_unary (operator : Token) (v : Value E) :
    (v.recode g).unary (operator.relabel g.toRelabel) = (v.unary operator).map (Value.recode g) := by
  unfold Value.unary
  rw [Token.relabel_kind, Token.relabel_lexeme, Value.recode_isTruthy]
  split
  · cases v <;> rfl
  · rfl
  · rfl

theorem Value.recode_arithmetic? (operator : Kind) (a b : Float) :
    (Value.arithmetic? operator a b : Option (Value E)).map (Value.recode g)
      = Value.arithmetic? operator a b := by
  unfold Value.arithmetic?
  split <;> rfl

theorem Value.recode_add (v u : Value E) :
    (v.recode g).add (u.recode g) = (v.add u).map (Value.recode g) := by
  cases v <;> cases u <;> rfl

theorem Value.recode_binary (operator : Token) (v u : Value E) :
    (v.recode g).binary (operator.relabel g.toRelabel) (u.recode g)
      = (v.binary operator u).map (Value.recode g) := by
  unfold Value.binary
  rw [Token.relabel_kind, Token.relabel_lexeme, Value.recode_equals]
  split
  · exact v.recode_add g u
  · rfl
  · rfl
  · cases v with
    | number a =>
      cases u with
      | number b =>
        have h := Value.recode_arithmetic? (E := E) g operator.kind a b
        simp only [Value.recode]
        cases ha : (Value.arithmetic? operator.kind a b : Option (Value E)) with
        | none => rfl
        | some value =>
          rw [ha] at h
          exact congrArg Except.ok (Option.some.inj h).symm
      | _ => rfl
    | _ => rfl

theorem Value.recode_parseNum (v : Value E) :
    (v.recode g).parseNum = v.parseNum.map (Value.recode g) := by
  cases v with
  | string text =>
    unfold Value.parseNum Value.recode
    dsimp only
    split <;> rfl
  | _ => rfl

end

/-- The scope of a call. -/
theorem Closure.recode_frame (g : Recoding) (c : Closure) (arguments : List Value) :
    (c.recode g).frame (arguments.map (Value.recode g))
      = (c.frame arguments).mapValues (Value.recode g) := by
  unfold Closure.frame
  rw [Bindings.mapValues_foldl_set, Closure.recode, Recoding.routine_params, List.zip_map,
    List.foldl_map]
  rfl

/-- The methods of a class. -/
theorem recode_methodLayer {E : Type} (g : Recoding) (environment : E) (methods : List Routine) :
    methodLayer environment (methods.map g.routine)
      = (methodLayer environment methods).mapValues (Closure.recode g) := by
  have hr : ∀ r : Routine, (⟨g.routine r, environment, (g.routine r).isInitializer⟩ : Closure E)
      = Closure.recode g ⟨r, environment, r.isInitializer⟩ := by
    intro r
    simp [Closure.recode, Routine.isInitializer]
  unfold methodLayer
  rw [Bindings.mapValues_foldl_set, List.foldl_map]
  simp only [hr, Recoding.routine_name, Token.relabel_lexeme]
  rfl

/-! ### Stores and machines -/

/-- The store with other code in the values. -/
def Store.recode (g : Recoding) (st : Store) : Store where
  scopes := st.scopes.map (Bindings.mapValues (Value.recode g))
  objects := st.objects.map (Bindings.mapValues (Value.recode g))

namespace Store

variable (g : Recoding) (st : Store)

@[simp] theorem scope_recode (i : ScopeId) :
    (st.recode g).scope i = (st.scope i).mapValues (Value.recode g) := by
  unfold scope recode
  rw [Array.getElem?_map]
  cases st.scopes[i]? <;> rfl

@[simp] theorem fields_recode (id : Nat) :
    (st.recode g).fields id = (st.fields id).mapValues (Value.recode g) := by
  unfold fields recode
  rw [Array.getElem?_map]
  cases st.objects[id]? <;> rfl

theorem recode_push (b : Bindings Value) :
    (st.push b).recode g = (st.recode g).push (b.mapValues (Value.recode g)) := by
  simp [recode, push]

theorem recode_pushObject : st.pushObject.recode g = (st.recode g).pushObject := by
  simp [recode, pushObject]

theorem recode_setIn (i : ScopeId) (name : String) (v : Value) :
    (st.setIn i name v).recode g = (st.recode g).setIn i name (v.recode g) := by
  unfold recode setIn
  congr 1
  refine Array.ext_getElem? fun j => ?_
  simp only [Array.getElem?_map, Array.getElem?_modify]
  split
  · cases st.scopes[j]? with
    | none => rfl
    | some b => exact congrArg some (b.mapValues_set _ name v)
  · rfl

theorem recode_setField (id : Nat) (name : String) (v : Value) :
    (st.setField id name v).recode g = (st.recode g).setField id name (v.recode g) := by
  unfold recode setField
  congr 1
  refine Array.ext_getElem? fun j => ?_
  simp only [Array.getElem?_map, Array.getElem?_modify]
  split
  · cases st.objects[j]? with
    | none => rfl
    | some b => exact congrArg some (b.mapValues_set _ name v)
  · rfl

theorem recode_define (environment : Environment) (name : String) (v : Value) :
    (st.define environment name v).recode g
      = (st.recode g).define environment name (v.recode g) := by
  cases environment with
  | nil => rfl
  | cons i outer => exact st.recode_setIn g i name v

theorem owner?_recode (environment : Environment) (name : String) :
    (st.recode g).owner? environment name = st.owner? environment name := by
  induction environment with
  | nil => rfl
  | cons i outer ih => simp [owner?, ih]

theorem owner_recode (environment : Environment) (name : String) :
    (st.recode g).owner environment name = st.owner environment name := by
  rw [owner, owner, owner?_recode]

theorem getIn_recode (i : ScopeId) (name : String) :
    (st.recode g).getIn i name = (st.getIn i name).map (Value.recode g) := by
  unfold getIn
  rw [scope_recode, Bindings.get?_mapValues]
  cases (st.scope i).get? name <;> rfl

theorem getAt_recode (environment : Environment) (distance : Nat) (name : String) :
    (st.recode g).getAt environment distance name
      = (st.getAt environment distance name).map (Value.recode g) := by
  unfold getAt
  cases environment.scopeAt distance with
  | error cause => rfl
  | ok i => exact st.getIn_recode g i name

theorem get_recode (environment : Environment) (name : String) :
    (st.recode g).get environment name = (st.get environment name).map (Value.recode g) := by
  unfold get
  rw [owner_recode]
  cases st.owner environment name with
  | error cause => rfl
  | ok i => exact st.getIn_recode g i name

end Store

/-- The second machine is the first one with other code. -/
structure Machine.Recoded (g : Recoding) (m m' : Machine) : Prop where
  host : m'.toHost = m.toHost
  store : m'.store = m.store.recode g
  environment : m'.environment = m.environment
  distances : ∀ id, m'.distances[g.number id]? = m.distances[id]?
  nextIdentity : m'.nextIdentity = m.nextIdentity

/-! ### Other code for other code -/

section

variable {E : Type} {g h k : Recoding}

theorem Closure.recode_recode (hr : ∀ r, h.routine (g.routine r) = k.routine r) (c : Closure E) :
    (c.recode g).recode h = c.recode k :=
  congrArg (fun r => { c with routine := r }) (hr c.routine)

theorem Class.recode_recode (hr : ∀ r, h.routine (g.routine r) = k.routine r) (c : Class E) :
    (c.recode g).recode h = c.recode k := by
  simp only [Class.recode, List.map_map, Function.comp_def, Bindings.mapValues_mapValues,
    Closure.recode_recode hr]

theorem Value.recode_recode (hr : ∀ r, h.routine (g.routine r) = k.routine r) (v : Value E) :
    (v.recode g).recode h = v.recode k := by
  cases v <;> simp only [Value.recode, Closure.recode_recode hr, Class.recode_recode hr]

theorem Store.recode_recode (hr : ∀ r, h.routine (g.routine r) = k.routine r) (st : Store) :
    (st.recode g).recode h = st.recode k := by
  simp only [recode, Array.map_map, Function.comp_def, Bindings.mapValues_mapValues,
    Value.recode_recode hr]

theorem Closure.recode_self (hr : ∀ r, g.routine r = r) (c : Closure E) : c.recode g = c :=
  congrArg (fun r => { c with routine := r }) (hr c.routine)

theorem Class.recode_self (hr : ∀ r, g.routine r = r) (c : Class E) : c.recode g = c := by
  have hlayer (layer : Bindings (Closure E)) : layer.mapValues (Closure.recode g) = layer :=
    List.map_id'' (fun entry => by rw [Closure.recode_self hr]) layer
  simp only [Class.recode, List.map_id'' hlayer]

theorem Value.recode_self (hr : ∀ r, g.routine r = r) (v : Value E) : v.recode g = v := by
  cases v <;> simp only [Value.recode, Closure.recode_self hr, Class.recode_self hr]

theorem Store.recode_self (hr : ∀ r, g.routine r = r) (st : Store) : st.recode g = st := by
  have hscope (b : Bindings Value) : b.mapValues (Value.recode g) = b :=
    List.map_id'' (fun entry => by rw [Value.recode_self hr]) b
  simp only [recode, funext hscope, Array.map_id']

theorem Machine.Recoded.trans {m m' m'' : Machine} (hm : m.Recoded g m') (hm' : m'.Recoded h m'')
    (hr : ∀ r, h.routine (g.routine r) = k.routine r)
    (hn : ∀ id, h.number (g.number id) = k.number id) : m.Recoded k m'' where
  host := hm'.host.trans hm.host
  store := by rw [hm'.store, hm.store, Store.recode_recode hr]
  environment := hm'.environment.trans hm.environment
  distances := fun id => by rw [← hn id, hm'.distances, hm.distances]
  nextIdentity := hm'.nextIdentity.trans hm.nextIdentity

end

/-! ### Other lines and numbers -/

/-- The store with other lines and numbers in the values. -/
abbrev Store.relabel (g : Relabel) (st : Store) : Store :=
  st.recode g.recoding

theorem Store.relabel_relabel (g h : Relabel) (st : Store) :
    (st.relabel g).relabel h = st.relabel (g.trans h) :=
  st.recode_recode (Routine.relabel_relabel g h)

theorem Store.relabel_refl (st : Store) : st.relabel .refl = st :=
  st.recode_self Routine.relabel_refl

/-- The second machine is the first one with other lines and numbers. -/
abbrev Machine.Relabeled (g : Relabel) (m m' : Machine) : Prop :=
  m.Recoded g.recoding m'

namespace Machine.Relabeled

theorem refl (m : Machine) : m.Relabeled .refl m :=
  ⟨rfl, m.store.relabel_refl.symm, rfl, fun _ => rfl, rfl⟩

theorem trans {g k : Relabel} {m m' m'' : Machine} (h : m.Relabeled g m')
    (h' : m'.Relabeled k m'') : m.Relabeled (g.trans k) m'' :=
  Machine.Recoded.trans h h' (Routine.relabel_relabel g k) fun _ => rfl

/-- Machines are the same if not even a line or a number is another. -/
theorem eq_of_refl {m m' : Machine} (h : m.Relabeled .refl m')
    (hd : m'.distances = m.distances) : m' = m := by
  obtain ⟨hhost, hstore, henvironment, -, hidentity⟩ := h
  replace hstore : m'.store = m.store := hstore.trans m.store.relabel_refl
  cases m
  cases m'
  cases hd
  cases hstore
  cases henvironment
  cases hhost
  cases hidentity
  rfl

end Machine.Relabeled

end Lox
