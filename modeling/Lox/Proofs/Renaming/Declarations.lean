import Lox.Proofs.Renaming.Names
import Lox.Proofs.Scopes.Calls

/-!
The local scopes of a program, each at its place. No two of them stand at one place, and none of them
declares a name twice if the resolver accepts the program. So the scope of a variable or parameter can
be chosen by its place, and then no function or class would have to be renamed
(`LocalScope.Sound.isVariable`, `Stmt.spared_of_spares`). With the new name the chosen scopes declare
it in place of the old one, and no other declaration changes (`Stmt.localScopes_rename`).
-/

namespace Lox

/-- A scope of a program that is not the globals, with its parameters and its statements. -/
structure LocalScope where
  place : ScopePlace
  params : List Token
  body : List Stmt

mutual

/-- The scopes in the statement at this place, from the outside inward. -/
def Stmt.localScopes (place : ScopePlace) : Stmt → List LocalScope
  | .expression _ | .varDecl _ _ | .returnValue _ _ => []
  | .block body => ⟨place, [], body⟩ :: Stmt.localScopesEach place 0 body
  | .ifThen _ s | .whileLoop _ s => s.localScopes (0 :: place)
  | .ifElse _ thenBranch elseBranch =>
    thenBranch.localScopes (0 :: place) ++ elseBranch.localScopes (1 :: place)
  | .funDecl routine => routine.localScopes place
  | .classDecl _ _ methods => Routine.localScopesEach place 0 methods

/-- The scopes in the statements from this position on. -/
def Stmt.localScopesEach (place : ScopePlace) : Nat → List Stmt → List LocalScope
  | _, [] => []
  | i, s :: rest => s.localScopes (i :: place) ++ Stmt.localScopesEach place (i + 1) rest

/-- The scope of the function or method at this place, and the scopes in it. -/
def Routine.localScopes (place : ScopePlace) : Routine → List LocalScope
  | .mk _ params body => ⟨place, params, body⟩ :: Stmt.localScopesEach place 0 body

/-- The scopes of the methods from this position on, and the scopes in them. -/
def Routine.localScopesEach (place : ScopePlace) : Nat → List Routine → List LocalScope
  | _, [] => []
  | i, r :: rest => r.localScopes (i :: place) ++ Routine.localScopesEach place (i + 1) rest

end

/-- The local scopes of a program. -/
def Program.localScopes (p : Program) : List LocalScope :=
  Stmt.localScopesEach [] 0 p

/-- The name of the variable that a statement declares in the scope it stands in. -/
def Stmt.variable? : Stmt → Option String
  | .varDecl name _ => some name.lexeme
  | _ => none

theorem Stmt.declared?_of_variable? {n : String} (s : Stmt) (h : s.variable? = some n) :
    s.declared? = some n := by
  cases s with
  | varDecl => exact h
  | _ => cases h

namespace LocalScope

variable (scope : LocalScope)

/-- The variables and parameters of the scope. -/
def variableNames : List String :=
  scope.params.map Token.lexeme ++ scope.body.filterMap Stmt.variable?

/-- All names that the scope declares, those of functions and classes too. -/
def names : List String :=
  scope.params.map Token.lexeme ++ Stmt.declaredEach scope.body

theorem variableNames_subset : scope.variableNames ⊆ scope.names := by
  intro n hn
  refine List.mem_append.2 ((List.mem_append.1 hn).imp_right fun hn => ?_)
  obtain ⟨s, hs, hv⟩ := List.mem_filterMap.1 hn
  exact List.mem_filterMap.2 ⟨s, hs, s.declared?_of_variable? hv⟩

end LocalScope

/-! ### Places -/

/-- The scopes stand at or inside a place, each at a place of its own. -/
structure Apart (place : ScopePlace) (scopes : List LocalScope) : Prop where
  inside : ∀ scope ∈ scopes, place <:+ scope.place
  nodup : (scopes.map LocalScope.place).Nodup

/-- The scopes stand at or inside the parts from a position on, each at a place of its own. -/
structure ApartFrom (place : ScopePlace) (i : Nat) (scopes : List LocalScope) : Prop where
  inside : ∀ scope ∈ scopes, ∃ j, i ≤ j ∧ (j :: place) <:+ scope.place
  nodup : (scopes.map LocalScope.place).Nodup

section

variable {place : ScopePlace} {i : Nat} {scopes more : List LocalScope}

theorem Apart.nil (place : ScopePlace) : Apart place [] := ⟨by simp, .nil⟩

theorem ApartFrom.nil (place : ScopePlace) (i : Nat) : ApartFrom place i [] := ⟨by simp, .nil⟩

theorem ApartFrom.cons (h : Apart (i :: place) scopes) (hmore : ApartFrom place (i + 1) more) :
    ApartFrom place i (scopes ++ more) where
  inside := by
    intro scope hscope
    rcases List.mem_append.1 hscope with hscope | hscope
    · exact ⟨i, Nat.le_refl i, h.inside scope hscope⟩
    · obtain ⟨j, hle, hj⟩ := hmore.inside scope hscope
      exact ⟨j, Nat.le_of_succ_le hle, hj⟩
  nodup := by
    rw [List.map_append, List.nodup_append]
    refine ⟨h.nodup, hmore.nodup, ?_⟩
    rintro _ hq _ hq' rfl
    obtain ⟨scope, hscope, rfl⟩ := List.mem_map.1 hq
    obtain ⟨scope', hscope', he⟩ := List.mem_map.1 hq'
    obtain ⟨j, hle, hj⟩ := hmore.inside scope' hscope'
    rw [he] at hj
    -- Two parts inside of which one place stands are at the same position.
    have hsame := List.suffix_of_suffix_length_le (h.inside scope hscope) hj (Nat.le_refl _)
    obtain rfl : i = j := (List.cons.inj (hsame.eq_of_length rfl)).1
    exact absurd hle (Nat.not_succ_le_self i)

theorem ApartFrom.apart (h : ApartFrom place i scopes) : Apart place scopes where
  inside scope hscope := by
    obtain ⟨j, -, hj⟩ := h.inside scope hscope
    exact (List.suffix_cons j place).trans hj
  nodup := h.nodup

/-- A scope and those of its parts. -/
theorem ApartFrom.scope (h : ApartFrom place i scopes) (params : List Token) (body : List Stmt) :
    Apart place (⟨place, params, body⟩ :: scopes) where
  inside := List.forall_mem_cons.2 ⟨List.suffix_refl place, h.apart.inside⟩
  nodup := by
    rw [List.map_cons, List.nodup_cons]
    refine ⟨fun hmem => ?_, h.nodup⟩
    obtain ⟨scope, hscope, he⟩ := List.mem_map.1 hmem
    obtain ⟨j, -, hj⟩ := h.inside scope hscope
    rw [he] at hj
    exact absurd hj.length_le (Nat.not_succ_le_self _)

theorem Apart.part (h : Apart (i :: place) scopes) : Apart place scopes where
  inside scope hscope := (List.suffix_cons i place).trans (h.inside scope hscope)
  nodup := h.nodup

end

mutual

/-- All scopes in a statement stand at places of their own. -/
theorem Stmt.localScopes_apart (place : ScopePlace) : ∀ s : Stmt, Apart place (s.localScopes place)
  | .expression _ | .varDecl _ _ | .returnValue _ _ => .nil place
  | .block body => (Stmt.localScopesEach_apart place 0 body).scope [] body
  | .ifThen _ s | .whileLoop _ s => (s.localScopes_apart (0 :: place)).part
  | .ifElse _ s s' => by
    have hboth := ApartFrom.cons (s.localScopes_apart (0 :: place))
      (.cons (s'.localScopes_apart (1 :: place)) (.nil place 2))
    rw [List.append_nil] at hboth
    exact hboth.apart
  | .funDecl routine => routine.localScopes_apart place
  | .classDecl _ _ methods => (Routine.localScopesEach_apart place 0 methods).apart

theorem Stmt.localScopesEach_apart (place : ScopePlace) :
    ∀ (i : Nat) (body : List Stmt), ApartFrom place i (Stmt.localScopesEach place i body)
  | i, [] => .nil place i
  | i, s :: rest =>
    .cons (s.localScopes_apart (i :: place)) (Stmt.localScopesEach_apart place (i + 1) rest)

theorem Routine.localScopes_apart (place : ScopePlace) :
    ∀ r : Routine, Apart place (r.localScopes place)
  | .mk _ params body => (Stmt.localScopesEach_apart place 0 body).scope params body

theorem Routine.localScopesEach_apart (place : ScopePlace) :
    ∀ (i : Nat) (rs : List Routine), ApartFrom place i (Routine.localScopesEach place i rs)
  | i, [] => .nil place i
  | i, r :: rest =>
    .cons (r.localScopes_apart (i :: place)) (Routine.localScopesEach_apart place (i + 1) rest)

end

/-! ### Names -/

/-- Every scope declares its names once, and they are names. -/
structure LocalScope.Sound (scope : LocalScope) : Prop where
  nodup : scope.names.Nodup
  isName : ∀ n ∈ scope.names, n ≠ "this" ∧ n ≠ "super"

section

variable {t : Table} {site : Site} {scope : Bindings Bool} {outer : List (Bindings Bool)}
  {body : List Stmt}

/-- A statement that declares a name declares one that its scope did not bind. -/
theorem Stmt.Linked.declared {s : Stmt} (h : s.Linked t site) (hs : site.scopes = scope :: outer)
    {n : String} (hn : s.declared? = some n) :
    scope.binds n = false ∧ (s.after site).scopes = scope.set n true :: outer := by
  have hdeclare {name : Token} (ha : site.Admits name) : scope.binds name.lexeme = false
      ∧ (site.declareReadable name).1.scopes = scope.set name.lexeme true :: outer := by
    have hbinds := ha.2
    rw [Site.bindsHere, hs] at hbinds
    rw [Site.declareReadable_fst, Site.bind_scopes, hs]
    exact ⟨hbinds, rfl⟩
  cases s with
  | varDecl | funDecl | classDecl =>
    cases hn
    exact hdeclare h.1
  | _ => cases hn

theorem Stmt.after_of_declared?_eq_none {s : Stmt} (h : s.declared? = none) :
    s.after site = site := by
  cases s <;> first | rfl | cases h

/-- Statements declare names that differ, and that their scope did not bind before. -/
theorem Stmt.LinkedEach.declared (h : Stmt.LinkedEach t site body)
    (hs : site.scopes = scope :: outer) :
    (Stmt.declaredEach body).Nodup ∧ ∀ n ∈ Stmt.declaredEach body, scope.binds n = false := by
  induction body generalizing site scope with
  | nil => exact ⟨.nil, by simp [Stmt.declaredEach]⟩
  | cons s rest ih =>
    rw [Stmt.declaredEach_cons]
    cases hn : s.declared? with
    | none =>
      refine ih h.2 ?_
      rw [Stmt.after_of_declared?_eq_none hn, hs]
    | some n =>
      obtain ⟨hfree, hafter⟩ := h.1.declared hs hn
      obtain ⟨hnodup, hnew⟩ := ih h.2 hafter
      have hlater : ∀ k ∈ Stmt.declaredEach rest, n ≠ k ∧ scope.binds k = false := by
        intro k hk
        simpa [Bindings.binds_set] using hnew k hk
      refine ⟨List.nodup_cons.2 ⟨fun hmem => (hlater n hmem).1 rfl, hnodup⟩, ?_⟩
      exact List.forall_mem_cons.2 ⟨hfree, fun k hk => (hlater k hk).2⟩

/-- The scope of a function binds its parameters. -/
theorem binds_of_mem_params (scope : Bindings Bool) {params : List Token} {n : String}
    (h : scope.binds n = true ∨ n ∈ params.map Token.lexeme) :
    Bindings.binds (params.foldl (fun b p => b.set p.lexeme true) scope) n = true := by
  induction params generalizing scope with
  | nil => exact h.resolve_right List.not_mem_nil
  | cons p rest ih =>
    refine ih (scope.set p.lexeme true) ?_
    rw [Bindings.binds_set, Bool.or_eq_true, decide_eq_true_eq]
    rw [List.map_cons, List.mem_cons] at h
    rcases h with h | rfl | h
    · exact .inl (.inr h)
    · exact .inl (.inl rfl)
    · exact .inr h

theorem LocalScope.Sound.of_linked {place : ScopePlace} {params : List Token}
    (hparams : (params.map Token.lexeme).Nodup) (hnames : ∀ p ∈ params, p.IsName)
    (h : Stmt.LinkedEach t ((site.enter []).declareEach params).1 body) :
    LocalScope.Sound ⟨place, params, body⟩ where
  nodup := by
    obtain ⟨hnodup, hnew⟩ := h.declared (Site.declareEach_scopes rfl params)
    refine List.nodup_append.2 ⟨hparams, hnodup, ?_⟩
    rintro n hn _ hd rfl
    have hbound := binds_of_mem_params [] (.inr hn)
    rw [hnew n hd] at hbound
    cases hbound
  isName := by
    intro n hn
    rcases List.mem_append.1 hn with hn | hn
    · obtain ⟨p, hp, rfl⟩ := List.mem_map.1 hn
      exact hnames p hp
    · exact Scopes.isName_of_declared h n hn

mutual

/-- All scopes in a statement that the resolver accepts declare their names once. -/
theorem Stmt.localScopes_sound {place : ScopePlace} {site : Site} : ∀ {s : Stmt}, s.Linked t site →
    ∀ scope ∈ s.localScopes place, scope.Sound
  | .expression _, _ | .varDecl _ _, _ | .returnValue _ _, _ => fun _ h => by cases h
  | .block body, h => by
    rw [Stmt.Linked] at h
    exact List.forall_mem_cons.2 ⟨.of_linked .nil (by simp) h, Stmt.localScopesEach_sound h⟩
  | .ifThen _ s, h | .whileLoop _ s, h => by
    rw [Stmt.Linked] at h
    exact Stmt.localScopes_sound (s := s) h.2.1
  | .ifElse _ s s', h => by
    rw [Stmt.Linked] at h
    exact List.forall_mem_append.2
      ⟨Stmt.localScopes_sound h.2.1.1, Stmt.localScopes_sound h.2.2.1⟩
  | .funDecl routine, h => by
    rw [Stmt.Linked] at h
    exact Routine.localScopes_sound h.2
  | .classDecl _ none methods, h => by
    rw [Stmt.Linked] at h
    exact Routine.localScopesEach_sound h.2
  | .classDecl _ (some _) methods, h => by
    rw [Stmt.Linked] at h
    exact Routine.localScopesEach_sound h.2.2

theorem Stmt.localScopesEach_sound {place : ScopePlace} {site : Site} :
    ∀ {i : Nat} {body : List Stmt}, Stmt.LinkedEach t site body →
    ∀ scope ∈ Stmt.localScopesEach place i body, scope.Sound
  | _, [], _ => fun _ h => by cases h
  | _, _ :: _, h =>
    List.forall_mem_append.2 ⟨Stmt.localScopes_sound h.1, Stmt.localScopesEach_sound h.2⟩

theorem Routine.localScopes_sound {place : ScopePlace} {site : Site} {kind : BodyKind} :
    ∀ {r : Routine}, r.Linked t site kind → ∀ scope ∈ r.localScopes place, scope.Sound
  | .mk _ params body, h => by
    rw [Routine.Linked] at h
    exact List.forall_mem_cons.2
      ⟨.of_linked h.2.1 h.1 h.2.2, Stmt.localScopesEach_sound h.2.2⟩

theorem Routine.localScopesEach_sound {place : ScopePlace} {site : Site} :
    ∀ {i : Nat} {rs : List Routine}, Routine.LinkedEach t site rs →
    ∀ scope ∈ Routine.localScopesEach place i rs, scope.Sound
  | _, [], _ => fun _ h => by cases h
  | _, _ :: _, h =>
    List.forall_mem_append.2 ⟨Routine.localScopes_sound h.1, Routine.localScopesEach_sound h.2⟩

end

end

/-! ### Scopes that can be chosen -/

/-- A statement that declares the name declares a variable. -/
def Stmt.IsVariable (n : String) (s : Stmt) : Prop :=
  s.declared? = some n → s.variable? = some n

theorem Stmt.isVariable_of_not_declares {n : String} {s : Stmt} (h : s.declares = false) :
    s.IsVariable n := by
  intro hn
  rw [Stmt.declared?_eq_none h] at hn
  cases hn

/-- A name that is declared once is declared by one statement. -/
theorem Stmt.eq_of_declared? {body : List Stmt} (h : (Stmt.declaredEach body).Nodup) {s s' : Stmt}
    (hs : s ∈ body) (hs' : s' ∈ body) {n : String} (hn : s.declared? = some n)
    (hn' : s'.declared? = some n) : s = s' := by
  induction body with
  | nil => cases hs
  | cons first rest ih =>
    rw [declaredEach_cons] at h
    obtain ⟨-, hrest, hdisjoint⟩ := List.nodup_append.1 h
    have hlater {s : Stmt} (hs : s ∈ rest) (hn : s.declared? = some n) :
        first.declared? ≠ some n := by
      intro hfirst
      have hmem : n ∈ declaredEach rest := List.mem_filterMap.2 ⟨s, hs, hn⟩
      exact hdisjoint n (by simp [hfirst]) n hmem rfl
    rcases List.mem_cons.1 hs with rfl | hmem <;> rcases List.mem_cons.1 hs' with rfl | hmem'
    · rfl
    · exact absurd hn (hlater hmem' hn')
    · exact absurd hn' (hlater hmem hn)
    · exact ih hrest hmem hmem'

/-- In a scope that has a variable or parameter of this name it is no other name. -/
theorem LocalScope.Sound.isVariable {scope : LocalScope} (h : scope.Sound) {n : String}
    (hn : n ∈ scope.variableNames) : ∀ s ∈ scope.body, s.IsVariable n := by
  intro s hs hd
  obtain ⟨-, hnodup, hdisjoint⟩ := List.nodup_append.1 h.nodup
  have hmem : n ∈ Stmt.declaredEach scope.body := List.mem_filterMap.2 ⟨s, hs, hd⟩
  rcases List.mem_append.1 hn with hn | hn
  · exact absurd rfl (hdisjoint n hn n hmem)
  · obtain ⟨s', hs', hv⟩ := List.mem_filterMap.1 hn
    rw [Stmt.eq_of_declared? hnodup hs hs' hd (s'.declared?_of_variable? hv)]
    exact hv

section

variable {R : Renaming}

/-- In the chosen ones of these scopes only variables and parameters have the old name. -/
def Renaming.Spares (R : Renaming) (scopes : List LocalScope) : Prop :=
  ∀ scope ∈ scopes, R.chosen scope.place = true → ∀ s ∈ scope.body, s.IsVariable R.old

theorem Renaming.token_eq_of_isVariable {marked : Bool} {name : Token} {s : Stmt}
    (hd : s.declared? = some name.lexeme) (hv : s.variable? = none)
    (h : marked = true → s.IsVariable R.old) : R.token marked name = name := by
  refine R.token_eq_self.2 (if_neg fun hold => ?_)
  have hvariable := h hold.1 (hd.trans (congrArg some hold.2))
  rw [hv] at hvariable
  cases hvariable

mutual

theorem Stmt.spared_of_spares {place : ScopePlace} {marked : Bool} : ∀ {s : Stmt}, s.Proper →
    (marked = true → s.IsVariable R.old) → R.Spares (s.localScopes place) →
    s.spared R place marked = true
  | .expression _, _, _, _ | .varDecl _ _, _, _, _ | .returnValue _ _, _, _, _ => rfl
  | .block body, hp, _, h => by
    obtain ⟨hbody, h⟩ := List.forall_mem_cons.1 h
    exact Stmt.sparedEach_of_spares hp hbody h
  | .ifThen _ s, hp, _, h | .whileLoop _ s, hp, _, h =>
    Stmt.spared_of_spares (s := s) hp.2.1 (fun _ => Stmt.isVariable_of_not_declares hp.2.2) h
  | .ifElse _ s s', hp, _, h => by
    obtain ⟨h, h'⟩ := List.forall_mem_append.1 h
    rw [Stmt.spared, Bool.and_eq_true]
    exact ⟨Stmt.spared_of_spares hp.2.1.1
        (fun _ => Stmt.isVariable_of_not_declares hp.2.1.2) h,
      Stmt.spared_of_spares hp.2.2.1 (fun _ => Stmt.isVariable_of_not_declares hp.2.2.2) h'⟩
  | .funDecl routine, hp, hm, h => by
    rw [Stmt.spared, Bool.and_eq_true, beq_iff_eq]
    exact ⟨Renaming.token_eq_of_isVariable rfl rfl hm, Routine.spared_of_spares hp h⟩
  | .classDecl name _ methods, hp, hm, h => by
    rw [Stmt.spared, Bool.and_eq_true, beq_iff_eq]
    exact ⟨Renaming.token_eq_of_isVariable rfl rfl hm, Routine.sparedEach_of_spares hp.2.2 h⟩

theorem Stmt.sparedEach_of_spares {place : ScopePlace} {marked : Bool} :
    ∀ {i : Nat} {body : List Stmt}, Stmt.ProperEach body →
    (marked = true → ∀ s ∈ body, s.IsVariable R.old) →
    R.Spares (Stmt.localScopesEach place i body) → Stmt.sparedEach R place marked i body = true
  | _, [], _, _, _ => rfl
  | _, s :: rest, hp, hm, h => by
    obtain ⟨h, h'⟩ := List.forall_mem_append.1 h
    rw [Stmt.sparedEach, Bool.and_eq_true]
    exact ⟨Stmt.spared_of_spares hp.1 (fun hmarked => hm hmarked s List.mem_cons_self) h,
      Stmt.sparedEach_of_spares hp.2
        (fun hmarked s hs => hm hmarked s (List.mem_cons_of_mem _ hs)) h'⟩

theorem Routine.spared_of_spares {place : ScopePlace} : ∀ {r : Routine}, r.Proper →
    R.Spares (r.localScopes place) → r.spared R place = true
  | .mk _ _ body, hp, h => by
    obtain ⟨hbody, h⟩ := List.forall_mem_cons.1 h
    exact Stmt.sparedEach_of_spares hp.2.2 hbody h

theorem Routine.sparedEach_of_spares {place : ScopePlace} :
    ∀ {i : Nat} {rs : List Routine}, Routine.ProperEach rs →
    R.Spares (Routine.localScopesEach place i rs) →
    Routine.sparedEach R place i rs = true
  | _, [], _, _ => rfl
  | _, r :: rest, hp, h => by
    obtain ⟨h, h'⟩ := List.forall_mem_append.1 h
    rw [Routine.sparedEach, Bool.and_eq_true]
    exact ⟨Routine.spared_of_spares hp.1 h, Routine.sparedEach_of_spares hp.2 h'⟩

end

end

/-! ### Scopes with other names -/

/-- The second scope stands where the first one stands and declares the same names, except that it has
the new name for the old one if it is chosen. -/
structure LocalScope.Renamed (R : Renaming) (scope scope' : LocalScope) : Prop where
  place : scope'.place = scope.place
  names : scope'.names = scope.names.map (R.name (R.chosen scope.place))

section

variable {R : Renaming} {marks : List Bool}

theorem Stmt.declared?_rename {place : ScopePlace} {s : Stmt}
    (hu : s.Suits R place (marks.headD false)) :
    (s.rename R place marks).declared? = s.declared?.map (R.name (marks.headD false)) := by
  cases s with
  | funDecl routine =>
    have hkept := R.token_eq_self.1 hu.funDecl.2.1
    rw [rename, declared?, declared?, Routine.name_rename, Option.map_some, hkept]
  | classDecl name superclass methods =>
    have hkept := R.token_eq_self.1 hu.classDecl.2.1
    rw [declared?, Option.map_some, hkept]
    cases superclass <;> rfl
  | _ => rfl

theorem Stmt.declaredEach_rename {place : ScopePlace} {i : Nat} {body : List Stmt}
    (hu : Stmt.SuitsEach R place (marks.headD false) i body) :
    Stmt.declaredEach (Stmt.renameEach R place marks i body)
      = (Stmt.declaredEach body).map (R.name (marks.headD false)) := by
  induction body generalizing i with
  | nil => rfl
  | cons s rest ih =>
    rw [renameEach, declaredEach_cons, declaredEach_cons, List.map_append, ih hu.cons.2,
      Stmt.declared?_rename hu.cons.1, Option.toList_map]

theorem LocalScope.Renamed.of_suits {place : ScopePlace} {params : List Token} {body : List Stmt}
    (hu : Stmt.SuitsEach R place (R.chosen place) 0 body) :
    LocalScope.Renamed R ⟨place, params, body⟩ ⟨place, params.map (R.token (R.chosen place)),
      Stmt.renameEach R place (R.chosen place :: marks) 0 body⟩ where
  place := rfl
  names := by
    have hbody : Stmt.declaredEach (Stmt.renameEach R place (R.chosen place :: marks) 0 body)
        = (Stmt.declaredEach body).map (R.name (R.chosen place)) :=
      Stmt.declaredEach_rename hu
    rw [LocalScope.names, LocalScope.names, hbody, List.map_map, List.map_append, List.map_map]
    rfl

mutual

/-- In a statement with the new name the chosen scopes declare the new name for the old one, and nothing
else is declared in another way. -/
theorem Stmt.localScopes_rename {place : ScopePlace} {marks : List Bool} : ∀ {s : Stmt},
    s.Suits R place (marks.headD false) →
    List.Forall₂ (LocalScope.Renamed R) (s.localScopes place)
      ((s.rename R place marks).localScopes place)
  | .expression _, _ | .varDecl _ _, _ | .returnValue _ _, _ => .nil
  | .block _, hu => .cons (.of_suits hu) (Stmt.localScopesEach_rename hu)
  | .ifThen _ s, hu => Stmt.localScopes_rename (s := s) hu.ifThen.2
  | .whileLoop _ s, hu => Stmt.localScopes_rename (s := s) hu.whileLoop.2
  | .ifElse _ _ _, hu =>
    List.rel_append (Stmt.localScopes_rename hu.ifElse.2.1) (Stmt.localScopes_rename hu.ifElse.2.2)
  | .funDecl _, hu => Routine.localScopes_rename hu.funDecl.2.2
  | .classDecl _ none _, hu => Routine.localScopesEach_rename hu.classDecl.2.2.2
  | .classDecl _ (some _) _, hu => Routine.localScopesEach_rename hu.classDecl.2.2.2

theorem Stmt.localScopesEach_rename {place : ScopePlace} {marks : List Bool} :
    ∀ {i : Nat} {body : List Stmt}, Stmt.SuitsEach R place (marks.headD false) i body →
    List.Forall₂ (LocalScope.Renamed R) (Stmt.localScopesEach place i body)
      (Stmt.localScopesEach place i (Stmt.renameEach R place marks i body))
  | _, [], _ => .nil
  | _, _ :: _, hu =>
    List.rel_append (Stmt.localScopes_rename hu.cons.1) (Stmt.localScopesEach_rename hu.cons.2)

theorem Routine.localScopes_rename {place : ScopePlace} {marks : List Bool} : ∀ {r : Routine},
    r.Suits R place →
    List.Forall₂ (LocalScope.Renamed R) (r.localScopes place)
      ((r.rename R place marks).localScopes place)
  | .mk _ _ _, hu => .cons (.of_suits hu.parts.2) (Stmt.localScopesEach_rename hu.parts.2)

theorem Routine.localScopesEach_rename {place : ScopePlace} {marks : List Bool} :
    ∀ {i : Nat} {rs : List Routine}, Routine.SuitsEach R place i rs →
    List.Forall₂ (LocalScope.Renamed R) (Routine.localScopesEach place i rs)
      (Routine.localScopesEach place i (Routine.renameEach R place marks i rs))
  | _, [], _ => .nil
  | _, _ :: _, hu =>
    List.rel_append (Routine.localScopes_rename hu.cons.1)
      (Routine.localScopesEach_rename hu.cons.2)

end

end

end Lox
