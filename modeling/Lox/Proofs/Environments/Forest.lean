import Lox.Proofs.Environments.Chains

/-!
Forests of environments. A `Forest` is made step by step: new environments and environments inside
others are added, and names are bound and assigned in them, by name or at a distance. Environments that
stand inside the same one share it. What is around an environment of a forest is one of the forest too,
no environment stands inside itself, and its innermost scope is its own, so that two environments with
the same one are the same (`Forest.shared_build`, `Forest.Shared.eq_of_head?`).
-/

namespace Lox

/-- The environments that have been made, in the order in which they were, and what they bind. -/
structure Forest where
  environments : List Environment := []
  store : Store := {}

namespace Forest

/-- What can be done with the environments of a forest, each of which is given by its number. -/
inductive Operation where
  | new
  /-- Makes an environment inside another one. -/
  | child (number : Nat)
  | define (number : Nat) (name : String) (value : Value)
  | assign (number : Nat) (name : String) (value : Value)
  | assignAt (number distance : Nat) (name : String) (value : Value)

/-- The environment with this number. -/
def environment (f : Forest) (number : Nat) : Environment :=
  f.environments[number]?.getD []

/-- Adds an environment inside another one, or inside none. -/
def add (f : Forest) (outer : Environment) : Forest where
  environments := f.environments ++ [f.store.scopes.size :: outer]
  store := f.store.push []

/-- The forest after something has been written; a fault leaves it as it is. -/
def written (f : Forest) : Except RuntimeFault Store → Forest
  | .ok store => { f with store }
  | .error _ => f

/-- The forest after an operation. -/
def after (f : Forest) : Operation → Forest
  | .new => f.add []
  | .child number => f.add (f.environment number)
  | .define number name value =>
    { f with store := f.store.define (f.environment number) name value }
  | .assign number name value => f.written (f.store.assign (f.environment number) name value)
  | .assignAt number distance name value =>
    f.written (f.store.assignAt (f.environment number) distance name value)

/-- The forest that operations make, one after the other. -/
def build (operations : List Operation) : Forest :=
  operations.foldl after {}

/-- The innermost scope of each environment is the one with its number, and the others are those of an
environment that was made before. -/
structure Shared (f : Forest) : Prop where
  size : f.store.scopes.size = f.environments.length
  made : ∀ (number : Nat) (env : Environment), f.environments[number]? = some env →
    ∃ outer, env = number :: outer
      ∧ (outer = [] ∨ ∃ earlier < number, f.environments[earlier]? = some outer)

/-! ### Every operation keeps to it -/

section

variable {f : Forest}

theorem mem_of_environment_ne_nil {number : Nat} (h : f.environment number ≠ []) :
    ∃ earlier < f.environments.length, f.environments[earlier]? = some (f.environment number) := by
  unfold environment at h ⊢
  cases henv : f.environments[number]? with
  | none => simp [henv] at h
  | some env =>
    obtain ⟨hlt, -⟩ := List.getElem?_eq_some_iff.1 henv
    exact ⟨number, hlt, by simp [henv]⟩

/-- A new environment has the next number, and stands inside none or inside one of the forest. -/
theorem Shared.add (h : f.Shared) {outer : Environment}
    (houter : outer = [] ∨ ∃ earlier < f.environments.length, f.environments[earlier]? = some outer) :
    (f.add outer).Shared := by
  constructor
  · simp [Forest.add, h.size]
  · intro number env henv
    simp only [Forest.add, h.size] at henv ⊢
    rcases Nat.lt_trichotomy number f.environments.length with hlt | rfl | hgt
    · rw [List.getElem?_append_left hlt] at henv
      obtain ⟨rest, rfl, hrest⟩ := h.made number env henv
      refine ⟨rest, rfl, hrest.imp_right ?_⟩
      rintro ⟨earlier, hearlier, hmem⟩
      exact ⟨earlier, hearlier, by rw [List.getElem?_append_left (by omega), hmem]⟩
    · rw [List.getElem?_concat_length] at henv
      cases henv
      refine ⟨outer, rfl, houter.imp_right ?_⟩
      rintro ⟨earlier, hearlier, hmem⟩
      exact ⟨earlier, hearlier, by rw [List.getElem?_append_left hearlier, hmem]⟩
    · rw [List.getElem?_eq_none (by simp; omega)] at henv
      cases henv

/-- Writing adds no scope. -/
theorem Shared.withStore (h : f.Shared) {st : Store}
    (hsize : st.scopes.size = f.store.scopes.size) : { f with store := st }.Shared :=
  ⟨hsize.trans h.size, h.made⟩

theorem size_define (st : Store) (env : Environment) (name : String) (value : Value) :
    (st.define env name value).scopes.size = st.scopes.size := by
  cases env with
  | nil => rfl
  | cons i outer => exact st.size_setIn i name value

/-- Both ways of assigning bind the name in one scope. -/
theorem size_of_setIn {st st' : Store} {place : Except RuntimeFault ScopeId} {name : String}
    {value : Value} (h : (place >>= fun i => pure (st.setIn i name value)) = .ok st') :
    st'.scopes.size = st.scopes.size := by
  cases place with
  | ok i =>
    cases h
    exact st.size_setIn i name value
  | error cause => cases h

theorem Shared.written (h : f.Shared) {place : Except RuntimeFault ScopeId} {name : String}
    {value : Value} :
    (f.written (place >>= fun i => pure (f.store.setIn i name value))).Shared := by
  generalize hst : (place >>= fun i => pure (f.store.setIn i name value)) = written
  cases written with
  | ok st => exact h.withStore (size_of_setIn hst)
  | error cause => exact h

theorem Shared.after (h : f.Shared) (operation : Operation) : (f.after operation).Shared := by
  cases operation with
  | new => exact h.add (.inl rfl)
  | child number =>
    refine h.add ?_
    by_cases hnil : f.environment number = []
    · exact .inl hnil
    · exact .inr (mem_of_environment_ne_nil hnil)
  | define number name value => exact h.withStore (size_define _ _ _ _)
  | assign number name value => exact h.written
  | assignAt number distance name value => exact h.written

/-- In every forest the environments share what is around them. -/
theorem shared_build (operations : List Operation) : (build operations).Shared := by
  have hrun (f : Forest) (h : f.Shared) : (operations.foldl Forest.after f).Shared := by
    induction operations generalizing f with
    | nil => exact h
    | cons operation rest ih => exact ih _ (h.after operation)
  apply hrun
  exact ⟨rfl, fun number env henv => by simp at henv⟩

end

/-! ### What is around an environment -/

namespace Shared

variable {f : Forest}

theorem ne_nil (h : f.Shared) {env : Environment} (henv : env ∈ f.environments) : env ≠ [] := by
  obtain ⟨number, hnumber⟩ := List.getElem?_of_mem henv
  obtain ⟨outer, rfl, -⟩ := h.made number env hnumber
  exact List.cons_ne_nil number outer

/-- An environment is known by its innermost scope. -/
theorem eq_of_head? (h : f.Shared) {env env' : Environment} (henv : env ∈ f.environments)
    (henv' : env' ∈ f.environments) (hhead : env.head? = env'.head?) : env = env' := by
  obtain ⟨number, hnumber⟩ := List.getElem?_of_mem henv
  obtain ⟨number', hnumber'⟩ := List.getElem?_of_mem henv'
  obtain ⟨outer, rfl, -⟩ := h.made number env hnumber
  obtain ⟨outer', rfl, -⟩ := h.made number' env' hnumber'
  cases hhead
  exact Option.some.inj (hnumber.symm.trans hnumber')

/-- All that is around an environment of the forest is of the forest. -/
theorem mem_of_mem_chain (h : f.Shared) {env a : Environment} (henv : env ∈ f.environments)
    (ha : a ∈ env.chain) : a ∈ f.environments := by
  induction env with
  | nil => cases ha
  | cons i outer ih =>
    rcases List.mem_cons.1 ha with rfl | ha
    · exact henv
    · obtain ⟨number, hnumber⟩ := List.getElem?_of_mem henv
      obtain ⟨rest, hcons, hrest⟩ := h.made number _ hnumber
      cases hcons
      rcases hrest with rfl | ⟨earlier, -, hmem⟩
      · cases ha
      · exact ih (List.mem_of_getElem? hmem) ha

/-- The scopes of an environment are older the further out they are, so that none is there twice. -/
theorem pairwise_lt (h : f.Shared) (number : Nat) {env : Environment}
    (henv : f.environments[number]? = some env) : env.Pairwise (fun i j => j < i) := by
  induction number using Nat.strong_induction_on generalizing env with
  | h number ih =>
    obtain ⟨outer, rfl, houter⟩ := h.made number env henv
    rcases houter with rfl | ⟨earlier, hlt, hmem⟩
    · exact List.pairwise_singleton _ _
    · have hrest := ih earlier hlt hmem
      refine List.pairwise_cons.2 ⟨fun j hj => ?_, hrest⟩
      obtain ⟨rest, rfl, -⟩ := h.made earlier outer hmem
      rcases List.mem_cons.1 hj with rfl | hj
      · exact hlt
      · exact Nat.lt_trans ((List.pairwise_cons.1 hrest).1 j hj) hlt

theorem nodup (h : f.Shared) {env : Environment} (henv : env ∈ f.environments) : env.Nodup := by
  obtain ⟨number, hnumber⟩ := List.getElem?_of_mem henv
  exact (h.pairwise_lt number hnumber).imp fun hlt => Nat.ne_of_gt hlt

end Shared

end Forest

end Lox
