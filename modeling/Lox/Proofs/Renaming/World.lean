import Lox.Proofs.Renaming.Names
import Lox.Proofs.Scopes.World

/-!
Machines that run a program and the program with another name for local variables. A `World` knows
which of the scopes that there are have been chosen. In those both machines bind the same variables
under different names, and in all other scopes under the same ones (`SameScope`), with values that
differ only in the names within their functions (`SameValue`). Everything else about the machines is
the same (`SameMachine`), and each way in which both are changed together is one lemma here.
-/

namespace Lox

namespace Renaming

/-- Which scopes of a running program are chosen. It only ever grows at its end. -/
abbrev World := List Bool

/-- The marks of the scopes of an environment. -/
inductive Marked (w : World) : List Bool → Environment → Prop where
  | globals : Marked w [] .globals
  | scope {marked : Bool} {marks : List Bool} {i : ScopeId} {env : Environment}
      (head : w[i]? = some marked) (rest : Marked w marks env) :
      Marked w (marked :: marks) (i :: env)

section

variable {w w' : World} {marks : List Bool} {env : Environment}

theorem Marked.mono (hw : w <+: w') (h : Marked w marks env) : Marked w' marks env := by
  induction h with
  | globals => exact .globals
  | scope head _ ih => exact .scope (getElem?_of_beginning hw head) ih

/-- The scope at a distance has the mark at this distance. -/
theorem Marked.getElem? (h : Marked w marks env) (hg : w[0]? = some false) {d : Nat} {i : ScopeId}
    (hi : env[d]? = some i) : w[i]? = some (markAt marks (some d)) := by
  induction h generalizing d with
  | globals =>
    obtain ⟨rfl, rfl⟩ : d = 0 ∧ i = 0 := by
      cases d with
      | zero => exact ⟨rfl, (Option.some.inj hi).symm⟩
      | succ d => cases hi
    exact hg
  | scope head _ ih =>
    cases d with
    | zero =>
      cases hi
      exact head
    | succ d => exact ih hi

/-- The innermost scope has the first mark. -/
theorem Marked.head (h : Marked w marks env) (hg : w[0]? = some false) {i : ScopeId}
    (hi : env.head? = some i) : w[i]? = some (marks.headD false) := by
  have hmark := h.getElem? hg ((List.head?_eq_getElem? ▸ hi) : env[0]? = some i)
  rw [hmark]
  cases marks <;> rfl

end

/-! ### Values and bindings -/

section

variable (R : Renaming) (w : World)

/-- The one is a function that was declared where the scopes have these marks, and the other is the
function with the new name. A method has, when it is called, one more scope around it, which is not
chosen: `inner` are the marks of such scopes. -/
structure SameClosure (inner : List Bool) (c c' : Closure) : Prop where
  environment : c'.environment = c.environment
  isInitializer : c'.isInitializer = c.isInitializer
  routine : ∃ place marks, Marked w marks c.environment ∧ c.routine.Suits R place
    ∧ c'.routine = c.routine.rename R place (inner ++ marks)

abbrev SameFunction (c c' : Closure) : Prop := R.SameClosure w [] c c'

abbrev SameMethod (c c' : Closure) : Prop := R.SameClosure w [false] c c'

abbrev SameClass (c c' : Class) : Prop := c.Rel (R.SameMethod w) c'

/-- The two are the same value, except for the names in its functions. -/
abbrev SameValue (v v' : Value) : Prop := v.Rel (R.SameFunction w) (R.SameMethod w) v'

/-- The scope binds the same variables, under other names if it is marked. -/
structure SameScope (marked : Bool) (b b' : Bindings Value) : Prop where
  renamed : b.Renamed (R.name marked) (R.SameValue w) b'
  fresh : marked = true → R.new ∉ b.names

end

section

variable {R : Renaming} {w w' : World} {inner : List Bool} {marked : Bool} {c c' : Closure}
  {v v' : Value} {b b' : Bindings Value} {n : String}

theorem SameClosure.mono (hw : w <+: w') (h : R.SameClosure w inner c c') :
    R.SameClosure w' inner c c' :=
  let ⟨place, marks, hm, hrest⟩ := h.routine
  ⟨h.environment, h.isInitializer, place, marks, hm.mono hw, hrest⟩

theorem SameClosure.name (h : R.SameClosure w inner c c') : c'.name = c.name := by
  obtain ⟨place, marks, -, -, hr⟩ := h.routine
  rw [Closure.name, Closure.name, hr, Routine.name_rename]

theorem SameClosure.arity (h : R.SameClosure w inner c c') : c'.arity = c.arity := by
  obtain ⟨place, marks, -, -, hr⟩ := h.routine
  rw [Closure.arity, Closure.arity, hr, Routine.params_rename, List.length_map]

theorem SameClass.later (hw : w <+: w') {c c' : Class} (h : R.SameClass w c c') :
    R.SameClass w' c c' :=
  Class.Rel.mono (fun _ _ hm => hm.mono hw) h

theorem SameValue.later (hw : w <+: w') (h : R.SameValue w v v') : R.SameValue w' v v' :=
  Value.Rel.mono (fun _ _ hf => hf.mono hw) (fun _ _ hm => hm.mono hw) h

namespace SameScope

theorem nil (marked : Bool) : R.SameScope w marked [] [] :=
  ⟨.nil, fun _ => List.not_mem_nil⟩

theorem mono (hw : w <+: w') (h : R.SameScope w marked b b') : R.SameScope w' marked b b' :=
  ⟨h.renamed.mono fun _ _ hr => hr.later hw, h.fresh⟩

/-- No two names of the scope become one. -/
theorem inj (h : R.SameScope w marked b b') (hn : n ≠ R.new) :
    ∀ k ∈ b.names, R.name marked k = R.name marked n → k = n := by
  intro k hk he
  cases marked with
  | false => rwa [name_false, name_false] at he
  | true => exact R.name_inj (fun hnew => h.fresh rfl (hnew ▸ hk)) hn he

theorem get? (h : R.SameScope w marked b b') (hn : n ≠ R.new) :
    Option.Rel (R.SameValue w) (b.get? n) (b'.get? (R.name marked n)) :=
  h.renamed.get? (h.inj hn)

theorem set (h : R.SameScope w marked b b') (hn : n ≠ R.new) (hv : R.SameValue w v v') :
    R.SameScope w marked (b.set n v) (b'.set (R.name marked n) v') := by
  refine ⟨h.renamed.set (h.inj hn) hv, fun hm => ?_⟩
  rw [Scopes.names_set, Scopes.mem_addName, not_or]
  exact ⟨h.fresh hm, Ne.symm hn⟩

/-- The scope of `this`, and that of `super`. -/
theorem keyword {word : String} (hv : R.SameValue w v v') :
    R.SameScope w false [(word, v)] [(word, v')] :=
  ⟨.cons ⟨(R.name_false word).symm, hv⟩ .nil, nofun⟩

/-- Parameters are bound to arguments. -/
theorem setEach {params : List Token} (hn : ∀ p ∈ params, p.lexeme ≠ R.new)
    {args args' : List Value} (hargs : List.Forall₂ (R.SameValue w) args args')
    (h : R.SameScope w marked b b') :
    R.SameScope w marked
      ((params.zip args).foldl (fun b entry => b.set entry.1.lexeme entry.2) b)
      (((params.map (R.token marked)).zip args').foldl
        (fun b entry => b.set entry.1.lexeme entry.2) b') := by
  induction params generalizing args args' b b' with
  | nil => exact h
  | cons p params ih =>
    cases hargs with
    | nil => exact h
    | cons hv hargs =>
      exact ih (fun q hq => hn q (List.mem_cons_of_mem _ hq)) hargs
        (h.set (hn p List.mem_cons_self) hv)

end SameScope

end

/-! ### Machines -/

/-- The two machines are the same but for the names that local variables have. Both know the distances
that the renaming is about. -/
structure SameMachine (R : Renaming) (w : World) (m m' : Machine) : Prop where
  host : m'.toHost = m.toHost
  environment : m'.environment = m.environment
  known : ∀ id : Nat, m.distances[id]? = R.distances[id]?
  known' : ∀ id : Nat, m'.distances[id]? = R.distances[id]?
  nextIdentity : m'.nextIdentity = m.nextIdentity
  size : m.store.scopes.size = w.length
  size' : m'.store.scopes.size = w.length
  globals : w[0]? = some false
  scope : ∀ i marked, w[i]? = some marked →
    R.SameScope w marked (m.store.scope i) (m'.store.scope i)
  objects : m'.store.objects.size = m.store.objects.size
  fields : ∀ id, Bindings.Rel (R.SameValue w) (m.store.fields id) (m'.store.fields id)

namespace SameMachine

variable {R : Renaming} {w : World} {m m' : Machine} {i : ScopeId} {marked : Bool}
  {b b' : Bindings Value} {v v' : Value} {n : String}

theorem host_step (h : R.SameMachine w m m') (host : Host) :
    R.SameMachine w { m with toHost := host } { m' with toHost := host } :=
  { h with host := rfl }

theorem environment_step (h : R.SameMachine w m m') (environment : Environment) :
    R.SameMachine w { m with environment } { m' with environment } :=
  { h with environment := rfl }

theorem identity_step (h : R.SameMachine w m m') :
    R.SameMachine w { m with nextIdentity := m.nextIdentity + 1 }
      { m' with nextIdentity := m'.nextIdentity + 1 } :=
  { h with nextIdentity := congrArg (· + 1) h.nextIdentity }

/-- An object without fields is added. -/
theorem object_step (h : R.SameMachine w m m') :
    R.SameMachine w { m with store := m.store.pushObject }
      { m' with store := m'.store.pushObject } := by
  refine { h with objects := ?_, fields := fun id => ?_ }
  · simp only [Store.pushObject, Array.size_push, h.objects]
  · have hf := h.fields id
    unfold Store.fields Store.pushObject at *
    rw [Array.getElem?_push, Array.getElem?_push, h.objects]
    split
    · exact .nil
    · exact hf

/-- A field of an object is set. -/
theorem field_step (h : R.SameMachine w m m') (object : Nat) (name : String)
    (hv : R.SameValue w v v') :
    R.SameMachine w { m with store := m.store.setField object name v }
      { m' with store := m'.store.setField object name v' } := by
  refine { h with objects := ?_, fields := fun id => ?_ }
  · simp only [Store.setField, Array.size_modify, h.objects]
  · have hf := h.fields id
    have hsize := h.objects
    unfold Store.fields Store.setField at *
    rw [Array.getElem?_modify, Array.getElem?_modify]
    split
    · by_cases hid : id < m.store.objects.size
      · rw [Array.getElem?_eq_getElem hid, Array.getElem?_eq_getElem (hsize ▸ hid)] at hf ⊢
        exact hf.set name hv
      · have hid := Nat.le_of_not_lt hid
        rw [Array.getElem?_eq_none hid, Array.getElem?_eq_none (hsize ▸ hid)]
        exact .nil
    · exact hf

/-- A scope is added. -/
theorem extend_step (h : R.SameMachine w m m') (hb : R.SameScope w marked b b') :
    R.SameMachine (w ++ [marked]) { m with store := m.store.push b }
      { m' with store := m'.store.push b' } := by
  have hw : w <+: w ++ [marked] := List.prefix_append _ _
  refine { h with
    size := by rw [Store.size_push, h.size, List.length_append, List.length_singleton]
    size' := by rw [Store.size_push, h.size', List.length_append, List.length_singleton]
    globals := getElem?_of_beginning hw h.globals
    scope := fun i marked' hi => ?_
    fields := fun id => (h.fields id).mono fun _ _ hr => hr.later hw }
  rw [Store.scope_push, Store.scope_push, h.size, h.size']
  split
  · rename_i hlast
    rw [hlast, List.getElem?_concat_length] at hi
    cases hi
    exact hb.mono hw
  · rename_i hlast
    obtain ⟨hlt, -⟩ := List.getElem?_eq_some_iff.1 hi
    rw [List.length_append, List.length_singleton] at hlt
    rw [List.getElem?_append_left (Nat.lt_of_le_of_ne (Nat.le_of_lt_succ hlt) hlast)] at hi
    exact (h.scope i marked' hi).mono hw

/-- A variable is bound in one scope. -/
theorem set_step (h : R.SameMachine w m m') (hi : w[i]? = some marked) (hn : n ≠ R.new)
    (hv : R.SameValue w v v') :
    R.SameMachine w { m with store := m.store.setIn i n v }
      { m' with store := m'.store.setIn i (R.name marked n) v' } := by
  refine { h with
    size := (Store.size_setIn _ _ _ _).trans h.size
    size' := (Store.size_setIn _ _ _ _).trans h.size'
    scope := fun j marked' hj => ?_ }
  rw [Store.scope_setIn, Store.scope_setIn, h.size, h.size']
  split
  · rename_i hij
    obtain ⟨rfl, -⟩ := hij
    cases hi.symm.trans hj
    exact (h.scope i marked hi).set hn hv
  · exact h.scope j marked' hj

/-! ### Names that are looked up -/

/-- What a variable is bound to in one scope. -/
theorem get? (h : R.SameMachine w m m') (hi : w[i]? = some marked) (hn : n ≠ R.new) :
    Option.Rel (R.SameValue w) ((m.store.scope i).get? n)
      ((m'.store.scope i).get? (R.name marked n)) :=
  (h.scope i marked hi).get? hn

/-- What a global name is bound to. -/
theorem get?_global (h : R.SameMachine w m m') (n : String) :
    Option.Rel (R.SameValue w) ((m.store.scope 0).get? n) ((m'.store.scope 0).get? n) := by
  have hb := (h.scope 0 false h.globals).renamed.get? (n := n) fun k _ he => by
    rwa [name_false, name_false] at he
  rwa [name_false] at hb

end SameMachine

end Renaming

end Lox
