import Lox.Proofs.Environments.Forest
import Mathlib.Data.List.Nodup

/-!
Reading and assigning in a forest. An assignment by name succeeds where the name can be read; it then
changes what is read from just those environments for which the same one is the nearest that binds the
name (`Forest.assign_binding`). Reading and assigning by name is reading and assigning at the least
distance at which an ancestor binds the name; at any other distance there is nothing to be read, or
something that nobody sees by name from here (`Forest.access_at_distance`).
-/

namespace Lox

namespace Store

variable {st : Store} {env : Environment} {name : String} {i : ScopeId}

/-! ### Binding a name anew where it is bound -/

/-- No scope binds more names than before, or fewer, and each of them has its names in their order. -/
theorem names_setIn (hb : (st.scope i).binds name = true) (value : Value) (j : ScopeId) :
    ((st.setIn i name value).scope j).names = (st.scope j).names := by
  rw [scope_setIn]
  split
  · rename_i hij
    rw [← hij.1]
    exact Bindings.names_set_of_binds value hb
  · rfl

theorem binds_setIn (hb : (st.scope i).binds name = true) (value : Value) (j : ScopeId)
    (other : String) : ((st.setIn i name value).scope j).binds other = (st.scope j).binds other := by
  rw [scope_setIn]
  split
  · rename_i hij
    obtain ⟨rfl, -⟩ := hij
    rw [Bindings.binds_set]
    by_cases hname : name = other
    · subst hname
      simp [hb]
    · simp [hname]
  · rfl

theorem owner?_setIn (hb : (st.scope i).binds name = true) (value : Value) (env : Environment)
    (other : String) : (st.setIn i name value).owner? env other = st.owner? env other :=
  owner?_congr (fun j => binds_setIn hb value j other) env

/-- What is read by name afterwards. -/
theorem get_setIn (hb : (st.scope i).binds name = true) (value : Value) (env : Environment)
    (other : String) :
    (st.setIn i name value).get env other
      = if other = name ∧ st.owner? env other = some i then .ok value else st.get env other := by
  have hsame := owner?_setIn hb value env other
  cases ho : st.owner? env other with
  | none =>
    rw [ho] at hsame
    rw [get_eq_of_owner?_none hsame, get_eq_of_owner?_none ho]
    simp
  | some j =>
    rw [ho] at hsame
    rw [get_eq_of_owner? hsame, get_eq_of_owner? ho, getIn,
      get?_scope_setIn st (lt_size_of_binds hb)]
    by_cases hji : i = j ∧ name = other
    · obtain ⟨rfl, rfl⟩ := hji
      simp
    · have hji' : ¬ (other = name ∧ some j = some i) := by
        rintro ⟨rfl, hj⟩
        cases hj
        exact hji ⟨rfl, rfl⟩
      rw [if_neg hji, if_neg hji']
      rfl

end Store

namespace Forest

variable {f : Forest}

/-- In a forest the nearest environment is told by its innermost scope. -/
theorem Shared.nearest?_eq_iff (h : f.Shared) {env env' : Environment} (henv : env ∈ f.environments)
    (henv' : env' ∈ f.environments) (name : String) :
    f.store.nearest? env' name = f.store.nearest? env name
      ↔ f.store.owner? env' name = f.store.owner? env name := by
  rw [Store.owner?_eq_nearest?, Store.owner?_eq_nearest?]
  constructor
  · intro hn
    rw [hn]
  · intro ho
    have hmem {e a : Environment} (he : e ∈ f.environments) (ha : f.store.nearest? e name = some a) :
        a ∈ f.environments := h.mem_of_mem_chain he (List.mem_of_find?_eq_some ha)
    have hhead {e a : Environment} (ha : f.store.nearest? e name = some a) :
        ∃ i, a.head? = some i := by
      cases a with
      | nil => exact absurd rfl (Store.nearest?_ne_nil ha)
      | cons i outer => exact ⟨i, rfl⟩
    cases hn' : f.store.nearest? env' name with
    | none =>
      cases hn : f.store.nearest? env name with
      | none => rfl
      | some a =>
        obtain ⟨i, hi⟩ := hhead hn
        simp [hn, hn', hi] at ho
    | some a' =>
      cases hn : f.store.nearest? env name with
      | none =>
        obtain ⟨i, hi⟩ := hhead hn'
        simp [hn, hn', hi] at ho
      | some a =>
        rw [hn, hn'] at ho
        rw [h.eq_of_head? (hmem henv' hn') (hmem henv hn) ho]

theorem environment_mem {number : Nat} (hn : number < f.environments.length) :
    f.environment number ∈ f.environments := by
  rw [environment, List.getElem?_eq_getElem hn]
  exact List.getElem_mem hn

/-- An assignment by name succeeds if and only if the name can be read there. If it succeeds, then from
each environment the name gives the new value if the nearest environment that binds it is the same as
from the environment of the assignment, and everything else gives what it gave; no environment gains or
loses a name. If it fails, nothing changes. -/
theorem assign_binding (operations : List Operation) {number : Nat}
    (hn : number < (build operations).environments.length) (name : String) (value : Value) :
    let f := build operations
    let env := f.environment number
    let f' := f.after (.assign number name value)
    ((∃ st, f.store.assign env name value = .ok st) ↔ ∃ v, f.store.get env name = .ok v)
      ∧ (∀ st, f.store.assign env name value = .ok st → f' = { f with store := st }
        ∧ (∀ env' ∈ f.environments, ∀ name', st.get env' name'
          = if name' = name ∧ f.store.nearest? env' name = f.store.nearest? env name then .ok value
            else f.store.get env' name')
        ∧ ∀ i, (st.scope i).names = (f.store.scope i).names)
      ∧ ∀ cause, f.store.assign env name value = .error cause → f' = f := by
  intro f env f'
  have hshared : f.Shared := shared_build operations
  have henv : env ∈ f.environments := environment_mem hn
  refine ⟨?_, ?_, ?_⟩
  · rw [Store.get_ok_iff_owner?]
    cases ho : f.store.owner? env name with
    | none => simp [Store.assign_eq_of_owner?_none ho]
    | some i => simp [Store.assign_eq_of_owner? ho]
  · intro st hst
    refine ⟨?_, ?_⟩
    · show f.written (f.store.assign env name value) = _
      rw [hst]
      rfl
    · cases ho : f.store.owner? env name with
      | none =>
        rw [Store.assign_eq_of_owner?_none ho] at hst
        cases hst
      | some i =>
        rw [Store.assign_eq_of_owner? ho] at hst
        cases hst
        have hb := Store.binds_of_owner? ho
        refine ⟨fun env' henv' name' => ?_, Store.names_setIn hb value⟩
        rw [Store.get_setIn hb]
        by_cases hname : name' = name
        · subst hname
          simp only [true_and, hshared.nearest?_eq_iff henv henv', ho]
        · simp [hname]
  · intro cause hcause
    show f.written (f.store.assign env name value) = f
    rw [hcause]
    rfl

/-- Two environments inside the same one, of which the first binds the name that the outermost one
binds. -/
def shadowing : List Operation :=
  [.new, .define 0 "a" (.boolean true), .child 0, .child 1, .define 2 "a" .nil, .child 1]

/-- An assignment in the second one is seen from the outermost one, and not from the first one. -/
theorem assign_binding_shadowing :
    let f := build shadowing
    let f' := f.after (.assign 3 "a" (.string "new"))
    3 < f.environments.length
      ∧ f.environments = [[0], [1, 0], [2, 1, 0], [3, 1, 0]]
      ∧ f'.store.get [0] "a" = .ok (.string "new")
      ∧ f'.store.get [2, 1, 0] "a" = .ok .nil
      ∧ (∃ st, f.store.assign [3, 1, 0] "a" (.string "new") = .ok st)
      ∧ ∀ st, f.store.assign [3, 1, 0] "a" (.string "new") = .ok st → f' = { f with store := st }
        ∧ (∀ env' ∈ f.environments, ∀ name', st.get env' name'
          = if name' = "a" ∧ f.store.nearest? env' "a" = f.store.nearest? [3, 1, 0] "a"
            then .ok (.string "new") else f.store.get env' name')
        ∧ ∀ i, (st.scope i).names = (f.store.scope i).names := by
  intro f f'
  have hlength : 3 < f.environments.length := by decide
  refine ⟨hlength, rfl, rfl, rfl, ⟨_, rfl⟩, ?_⟩
  obtain ⟨-, hok, -⟩ := assign_binding shadowing hlength "a" (.string "new")
  exact hok

end Forest

/-! ### Distances -/

namespace Store

variable {st : Store} {env : Environment} {name : String} {i : ScopeId} {d : Nat}

theorem getAt_eq_of_getElem? (h : env[d]? = some i) : st.getAt env d name = st.getIn i name := by
  simp [getAt, Environment.scopeAt, h, Bind.bind, Except.bind]

theorem assignAt_eq_of_getElem? (h : env[d]? = some i) (value : Value) :
    st.assignAt env d name value = .ok (st.setIn i name value) := by
  simp [assignAt, Environment.scopeAt, h, Bind.bind, Except.bind, Pure.pure, Except.pure]

/-- What cannot be read at a distance is not bound there, or there is no such distance. -/
theorem getAt_eq_error (hne : env ≠ []) (h : ¬ st.BindsAt env name d) :
    st.getAt env d name
      = .error (if d ≤ env.links then .undefinedVariable name else .scopeChainTooShort) := by
  have hlength := Environment.length_eq_links hne
  cases hi : env[d]? with
  | none =>
    rw [List.getElem?_eq_none_iff] at hi
    rw [if_neg (by omega)]
    simp [getAt, Environment.scopeAt, List.getElem?_eq_none hi, Bind.bind, Except.bind]
  | some i =>
    obtain ⟨hlt, -⟩ := List.getElem?_eq_some_iff.1 hi
    have hunbound : (st.scope i).get? name = none := by
      by_contra hbound
      exact h (bindsAt_iff.2 ⟨i, hi, Option.isSome_iff_ne_none.2 hbound⟩)
    rw [if_pos (by omega), getAt_eq_of_getElem? hi, getIn, hunbound]

/-- The environment that stands at the distance binds the name to the value, but a nearer one binds it
too: what is read there is not what is read by name, which stays the same whatever is assigned there. -/
structure Shadowed (st : Store) (env : Environment) (name : String) (distance : Nat) (v : Value) :
    Prop where
  bound : st.BindsAt env name distance
  read : st.getAt env distance name = .ok v
  nearer : ∃ d < distance, st.BindsAt env name d
  unseen : ∀ value st', st.assignAt env distance name value = .ok st' →
    st'.get env name = st.get env name

/-- A binding behind the nearest one is shadowed by it. -/
theorem shadowed_of_isLeast (hnodup : env.Nodup) {least : Nat}
    (hleast : IsLeast {d | st.BindsAt env name d} least) (hbound : st.BindsAt env name d)
    (hd : d ≠ least) : ∃ v, st.Shadowed env name d v := by
  obtain ⟨j, hj, hbj⟩ := bindsAt_iff.1 hbound
  obtain ⟨i, hi, hown⟩ := owner?_of_isLeast hleast
  have hlt : least < d := Nat.lt_of_le_of_ne (hleast.2 hbound) (Ne.symm hd)
  have hij : i ≠ j := by
    rintro rfl
    obtain ⟨hlength, hget⟩ := List.getElem?_eq_some_iff.1 hi
    obtain ⟨hlength', hget'⟩ := List.getElem?_eq_some_iff.1 hj
    have hsame := (List.Nodup.getElem_inj_iff hnodup).1 (hget.trans hget'.symm)
    omega
  obtain ⟨v, hv⟩ := Option.isSome_iff_exists.1 hbj
  refine ⟨v, hbound, ?_, ⟨least, hlt, hleast.1⟩, ?_⟩
  · rw [getAt_eq_of_getElem? hj, getIn_eq_ok_iff]
    exact hv
  · intro value st' hst'
    rw [assignAt_eq_of_getElem? hj] at hst'
    cases hst'
    have hother : ¬ (name = name ∧ st.owner? env name = some j) := by
      rintro ⟨-, hj'⟩
      rw [hown] at hj'
      exact hij (Option.some.inj hj')
    rw [get_setIn hbj, if_neg hother]

end Store

namespace Forest

/-- The environments around one are reached link by link, as many as there are. A name cannot be read by
name if and only if none of them binds it. Else reading and assigning by name is reading and assigning
at the least distance at which one of them binds it; at any other distance nothing can be read, or what
is read there is shadowed. -/
theorem access_at_distance (operations : List Operation) {env : Environment}
    (henv : env ∈ (build operations).environments) (name : String) :
    let f := build operations
    env.ancestor 0 = .ok env
      ∧ (∀ d, (∃ a, env.ancestor d = .ok a) ↔ d ≤ env.links)
      ∧ (∀ d a, env.ancestor d = .ok a → a ∈ f.environments
        ∧ env.ancestor (d + 1) = match a.enclosing? with
          | some outer => .ok outer
          | none => .error .scopeChainTooShort)
      ∧ (∀ a b, env.ancestor (a + b) = (env.ancestor a).bind fun outer => outer.ancestor b)
      ∧ ((∃ cause, f.store.get env name = .error cause) ↔ ∀ d, ¬ f.store.BindsAt env name d)
      ∧ ((∃ d, f.store.BindsAt env name d) →
        ∃ d, IsLeast {d | f.store.BindsAt env name d} d
          ∧ (∃ v, f.store.get env name = .ok v ∧ f.store.getAt env d name = .ok v)
          ∧ (∀ value, ∃ st, f.store.assign env name value = .ok st
            ∧ f.store.assignAt env d name value = .ok st)
          ∧ ∀ d', d' ≠ d →
            f.store.getAt env d' name
                = .error (if d' ≤ env.links then .undefinedVariable name else .scopeChainTooShort)
              ∨ ∃ v, f.store.Shadowed env name d' v) := by
  intro f
  have hshared : f.Shared := shared_build operations
  have hne := hshared.ne_nil henv
  refine ⟨Environment.ancestor_zero hne, Environment.ancestor_ok_iff hne, ?_,
    Environment.ancestor_add env, ?_, ?_⟩
  · intro d a ha
    refine ⟨hshared.mem_of_mem_chain henv (Environment.ancestor_mem_chain ha), ?_⟩
    rw [Environment.ancestor_add, ha]
    exact Environment.ancestor_one a
  · rw [← not_exists, Store.exists_bindsAt_iff, ← Store.get_ok_iff_owner?]
    cases f.store.get env name <;> simp
  · intro hbound
    obtain ⟨d, hleast⟩ := Store.exists_isLeast hbound
    obtain ⟨i, hi, hown⟩ := Store.owner?_of_isLeast hleast
    obtain ⟨v, hv⟩ := Store.get_ok_iff_owner?.2 ⟨i, hown⟩
    refine ⟨d, hleast, ⟨v, hv, ?_⟩, ?_, ?_⟩
    · rw [Store.getAt_eq_of_getElem? hi, ← Store.get_eq_of_owner? hown]
      exact hv
    · intro value
      exact ⟨_, Store.assign_eq_of_owner? hown value, Store.assignAt_eq_of_getElem? hi value⟩
    · intro d' hd'
      by_cases hbound' : f.store.BindsAt env name d'
      · exact .inr (Store.shadowed_of_isLeast (hshared.nodup henv) hleast hbound' hd')
      · exact .inl (Store.getAt_eq_error hne hbound')

/-- The name is bound one link further out, and once more behind that. -/
theorem access_at_distance_shadowing :
    let f := build (shadowing ++ [.child 2])
    let env : Environment := [4, 2, 1, 0]
    env ∈ f.environments
      ∧ (f.store.get env "a" = .ok .nil ∧ f.store.getAt env 1 "a" = .ok .nil)
      ∧ f.store.getAt env 2 "a" = .error (.undefinedVariable "a")
      ∧ f.store.getAt env 3 "a" = .ok (.boolean true)
      ∧ f.store.getAt env 4 "a" = .error .scopeChainTooShort
      ∧ ((∃ cause, f.store.get env "a" = .error cause) ↔ ∀ d, ¬ f.store.BindsAt env "a" d) := by
  intro f env
  have henv : env ∈ f.environments := by decide
  refine ⟨henv, ⟨rfl, rfl⟩, rfl, rfl, rfl, ?_⟩
  obtain ⟨-, -, -, -, hfails, -⟩ := access_at_distance (shadowing ++ [.child 2]) henv "a"
  exact hfails

end Forest

end Lox
