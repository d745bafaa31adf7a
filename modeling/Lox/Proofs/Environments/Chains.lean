import Lox.Store
import Mathlib.Data.Nat.Find
import Mathlib.Order.Bounds.Basic

/-!
An environment and those around it. The ancestors of an environment are the environments of its chain,
each at its distance (`Environment.ancestor_eq_ok_iff`). What is found by name is found in the first
environment of the chain that binds the name itself (`Store.owner?_eq_nearest?`), which stands at the
least distance at which an ancestor binds it (`Store.owner?_of_isLeast`).
-/

namespace Lox

namespace Environment

/-! ### Chains -/

/-- The environment and all those around it, from the inside outward. -/
def chain : Environment → List Environment
  | [] => []
  | i :: outer => (i :: outer) :: chain outer

/-- The environment around an environment, if there is one. -/
def enclosing? : Environment → Option Environment
  | _ :: j :: outer => some (j :: outer)
  | _ => none

theorem length_of_enclosing? {env outer : Environment} (h : env.enclosing? = some outer) :
    env.length = outer.length + 1 := by
  rcases env with _ | ⟨i, _ | ⟨j, rest⟩⟩
  · cases h
  · cases h
  · cases h
    rfl

/-- How many times one can go on to the environment around. -/
def links (env : Environment) : Nat :=
  match _h : env.enclosing? with
  | some outer => links outer + 1
  | none => 0
  termination_by env.length
  decreasing_by
    rw [length_of_enclosing? _h]
    exact Nat.lt_succ_self _

/-- An environment has one scope more than it has links. -/
theorem length_eq_links {env : Environment} (hne : env ≠ []) : env.length = env.links + 1 := by
  fun_induction links env with
  | case1 env outer h ih =>
    have houter : outer ≠ [] := by
      rcases env with _ | ⟨i, _ | ⟨j, rest⟩⟩ <;> cases h
      exact List.cons_ne_nil j rest
    rw [length_of_enclosing? h, ih houter]
  | case2 env h =>
    rcases env with _ | ⟨i, _ | ⟨j, rest⟩⟩
    · exact absurd rfl hne
    · rfl
    · cases h

theorem drop_mem_chain {env : Environment} {d : Nat} (h : env.drop d ≠ []) :
    env.drop d ∈ env.chain := by
  induction env generalizing d with
  | nil => simp at h
  | cons i outer ih =>
    cases d with
    | zero => exact List.mem_cons_self
    | succ d => exact List.mem_cons_of_mem _ (ih h)

theorem ne_nil_of_mem_chain {env a : Environment} (h : a ∈ env.chain) : a ≠ [] := by
  induction env with
  | nil => cases h
  | cons i outer ih =>
    rcases List.mem_cons.1 h with rfl | h
    · simp
    · exact ih h

/-! ### Ancestors -/

theorem ancestor_eq_ok_iff {env a : Environment} {d : Nat} :
    env.ancestor d = .ok a ↔ env.drop d = a ∧ a ≠ [] := by
  unfold ancestor
  split
  · rename_i h
    constructor
    · intro hok
      cases hok
    · rintro ⟨rfl, hne⟩
      exact absurd h hne
  · rename_i b hne
    constructor
    · intro hok
      cases hok
      exact ⟨rfl, hne⟩
    · rintro ⟨rfl, -⟩
      rfl

theorem ancestor_eq_error {env : Environment} {d : Nat} (h : env.drop d = []) :
    env.ancestor d = .error .scopeChainTooShort := by
  simp [ancestor, h]

/-- There is an ancestor at each distance up to the number of links, and none beyond. -/
theorem ancestor_ok_iff {env : Environment} (hne : env ≠ []) (d : Nat) :
    (∃ a, env.ancestor d = .ok a) ↔ d ≤ env.links := by
  have hlength := length_eq_links hne
  constructor
  · rintro ⟨a, h⟩
    obtain ⟨rfl, hdrop⟩ := ancestor_eq_ok_iff.1 h
    rw [ne_eq, List.drop_eq_nil_iff] at hdrop
    omega
  · intro h
    refine ⟨env.drop d, ancestor_eq_ok_iff.2 ⟨rfl, ?_⟩⟩
    rw [ne_eq, List.drop_eq_nil_iff]
    omega

/-- Going outward twice is going outward by the sum of the distances. -/
theorem ancestor_add (env : Environment) (a b : Nat) :
    env.ancestor (a + b) = (env.ancestor a).bind fun outer => outer.ancestor b := by
  by_cases h : env.drop a = []
  · have hsum : env.drop (a + b) = [] := by rw [← List.drop_drop, h, List.drop_nil]
    rw [ancestor_eq_error h, ancestor_eq_error hsum]
    rfl
  · rw [ancestor_eq_ok_iff.2 ⟨rfl, h⟩]
    simp only [ancestor, Except.bind, List.drop_drop]

/-- No link leads to the environment itself. -/
theorem ancestor_zero {env : Environment} (hne : env ≠ []) : env.ancestor 0 = .ok env :=
  ancestor_eq_ok_iff.2 ⟨rfl, hne⟩

/-- One link leads to the environment around, if there is one. -/
theorem ancestor_one (env : Environment) :
    env.ancestor 1 = match env.enclosing? with
      | some outer => .ok outer
      | none => .error .scopeChainTooShort := by
  rcases env with _ | ⟨i, _ | ⟨j, rest⟩⟩ <;> rfl

theorem ancestor_mem_chain {env a : Environment} {d : Nat} (h : env.ancestor d = .ok a) :
    a ∈ env.chain := by
  obtain ⟨rfl, hne⟩ := ancestor_eq_ok_iff.1 h
  exact drop_mem_chain hne

end Environment

namespace Store

/-! ### The nearest environment that binds a name -/

/-- The environment itself, and none around it, binds the name. -/
def bindsHere (st : Store) (env : Environment) (name : String) : Bool :=
  env.head?.any fun i => (st.scope i).binds name

/-- The first environment, from this one outward, that binds the name itself. -/
def nearest? (st : Store) (env : Environment) (name : String) : Option Environment :=
  env.chain.find? (st.bindsHere · name)

variable {st : Store} {env : Environment} {name : String}

theorem owner?_eq_nearest? (st : Store) (env : Environment) (name : String) :
    st.owner? env name = (st.nearest? env name).bind List.head? := by
  induction env with
  | nil => rfl
  | cons i outer ih =>
    rw [owner?, nearest?, Environment.chain, List.find?_cons]
    by_cases hb : (st.scope i).binds name = true
    · simp [bindsHere, hb]
    · rw [if_neg hb, ih]
      simp [bindsHere, hb, nearest?]

theorem nearest?_ne_nil {a : Environment} (h : st.nearest? env name = some a) : a ≠ [] :=
  Environment.ne_nil_of_mem_chain (List.mem_of_find?_eq_some h)

theorem binds_of_owner? {i : ScopeId} (h : st.owner? env name = some i) :
    (st.scope i).binds name = true := by
  induction env with
  | nil => cases h
  | cons j outer ih =>
    rw [owner?] at h
    split at h
    · rename_i hb
      cases h
      exact hb
    · exact ih h

/-- A scope that binds something is there. -/
theorem lt_size_of_binds {i : ScopeId} (h : (st.scope i).binds name = true) :
    i < st.scopes.size := by
  by_contra hsize
  rw [scope_eq_nil st (Nat.le_of_not_lt hsize)] at h
  simp [Bindings.binds] at h

theorem owner?_congr {st' : Store} (h : ∀ i, (st'.scope i).binds name = (st.scope i).binds name)
    (env : Environment) : st'.owner? env name = st.owner? env name := by
  induction env with
  | nil => rfl
  | cons i outer ih => rw [owner?, owner?, h, ih]

/-! ### What is found there -/

theorem get_eq_of_owner? {i : ScopeId} (h : st.owner? env name = some i) :
    st.get env name = st.getIn i name := by
  simp [get, owner, h, Bind.bind, Except.bind]

theorem get_eq_of_owner?_none (h : st.owner? env name = none) :
    st.get env name = .error (.undefinedVariable name) := by
  simp [get, owner, h, Bind.bind, Except.bind]

theorem assign_eq_of_owner? {i : ScopeId} (h : st.owner? env name = some i) (value : Value) :
    st.assign env name value = .ok (st.setIn i name value) := by
  simp [assign, owner, h, Bind.bind, Except.bind, Pure.pure, Except.pure]

theorem assign_eq_of_owner?_none (h : st.owner? env name = none) (value : Value) :
    st.assign env name value = .error (.undefinedVariable name) := by
  simp [assign, owner, h, Bind.bind, Except.bind]

theorem getIn_eq_ok_iff {i : ScopeId} {v : Value} :
    st.getIn i name = .ok v ↔ (st.scope i).get? name = some v := by
  unfold getIn
  split
  · rename_i u hu
    simp [hu]
  · rename_i hn
    simp [hn]

theorem exists_getIn_iff {i : ScopeId} :
    (∃ v, st.getIn i name = .ok v) ↔ (st.scope i).binds name = true := by
  simp only [getIn_eq_ok_iff, Bindings.binds, Option.isSome_iff_exists]

/-- A name is found if some environment of the chain binds it, and not found if none does. -/
theorem get_ok_iff_owner? : (∃ v, st.get env name = .ok v) ↔ ∃ i, st.owner? env name = some i := by
  cases ho : st.owner? env name with
  | none =>
    rw [get_eq_of_owner?_none ho]
    simp
  | some i =>
    rw [get_eq_of_owner? ho, exists_getIn_iff, binds_of_owner? ho]
    simp

/-! ### Distances -/

/-- Some ancestor at this distance binds the name itself. -/
def BindsAt (st : Store) (env : Environment) (name : String) (distance : Nat) : Prop :=
  ∃ a, env.ancestor distance = .ok a ∧ st.bindsHere a name = true

theorem bindsAt_iff {d : Nat} :
    st.BindsAt env name d ↔ ∃ i, env[d]? = some i ∧ (st.scope i).binds name = true := by
  unfold BindsAt
  simp only [Environment.ancestor_eq_ok_iff, ← List.head?_drop]
  constructor
  · rintro ⟨a, ⟨rfl, hne⟩, hb⟩
    cases hdrop : env.drop d with
    | nil => exact absurd hdrop hne
    | cons i rest =>
      rw [hdrop] at hb
      exact ⟨i, rfl, by simpa [bindsHere] using hb⟩
  · rintro ⟨i, hi, hb⟩
    refine ⟨env.drop d, ⟨rfl, ?_⟩, ?_⟩
    · intro hnil
      simp [hnil] at hi
    · simp [bindsHere, hi, hb]

/-- The scope at the least distance at which the name is bound is the one that is found by name. -/
theorem owner?_of_isLeast {d : Nat} (h : IsLeast {d | st.BindsAt env name d} d) :
    ∃ i, env[d]? = some i ∧ st.owner? env name = some i := by
  induction env generalizing d with
  | nil =>
    obtain ⟨i, hi, -⟩ := bindsAt_iff.1 h.1
    simp at hi
  | cons j outer ih =>
    obtain ⟨i, hi, hb⟩ := bindsAt_iff.1 h.1
    by_cases hj : (st.scope j).binds name = true
    · have hzero : d = 0 := Nat.le_zero.1 (h.2 (bindsAt_iff.2 ⟨j, rfl, hj⟩))
      subst hzero
      exact ⟨j, rfl, by rw [owner?, if_pos hj]⟩
    · cases d with
      | zero =>
        cases hi
        exact absurd hb hj
      | succ d =>
        -- One link further out the same scope stands one nearer.
        have hleast : IsLeast {d | st.BindsAt outer name d} d := by
          refine ⟨bindsAt_iff.2 ⟨i, hi, hb⟩, fun k hk => ?_⟩
          obtain ⟨l, hl, hbl⟩ := bindsAt_iff.1 hk
          exact Nat.le_of_succ_le_succ (h.2 (bindsAt_iff.2 ⟨l, hl, hbl⟩))
        obtain ⟨k, hk, hown⟩ := ih hleast
        exact ⟨k, hk, by rw [owner?, if_neg hj, hown]⟩

theorem exists_isLeast (h : ∃ d, st.BindsAt env name d) :
    ∃ d, IsLeast {d | st.BindsAt env name d} d := by
  classical
  exact ⟨Nat.find h, Nat.find_spec h, fun k hk => Nat.find_min' h hk⟩

/-- A name is found if and only if some ancestor binds it. -/
theorem exists_bindsAt_iff :
    (∃ d, st.BindsAt env name d) ↔ ∃ i, st.owner? env name = some i := by
  constructor
  · intro h
    obtain ⟨d, hd⟩ := exists_isLeast h
    obtain ⟨i, -, hi⟩ := owner?_of_isLeast hd
    exact ⟨i, hi⟩
  · rintro ⟨i, hi⟩
    induction env with
    | nil => cases hi
    | cons j outer ih =>
      rw [owner?] at hi
      split at hi
      · rename_i hb
        exact ⟨0, bindsAt_iff.2 ⟨j, rfl, hb⟩⟩
      · obtain ⟨d, hd⟩ := ih hi
        obtain ⟨k, hk, hb⟩ := bindsAt_iff.1 hd
        exact ⟨d + 1, bindsAt_iff.2 ⟨k, hk, hb⟩⟩

end Store

end Lox
