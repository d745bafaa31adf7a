import Lox.Proofs.Dispatch.Evaluation
import Lox.Proofs.Execution.Counterparts
import Lox.Proofs.Scoping.Linked

/-!
States of the lexical meaning and of the one in which `this` and `super` are no names. A location of
the lexical memory is that of a variable, which has a location of its own on the other side, or that
of a `this` or a `super`, which goes on holding what it was declared with (`World`). `Fits` says that
the names in force and a place are counterparts; `Agrees` says so of two states, and each way in which
the two are changed together is one lemma here.
-/

namespace Lox

namespace Lexical.Names

variable (names : Names) (n m : String) (l : Location)

/-- The names in force once one more is declared. -/
def declared : Names :=
  some ((n, l) :: names.getD [])

theorem find?_enter : names.enter.find? n = names.find? n := by
  cases names <;> rfl

theorem find?_declared : (names.declared n l).find? m = if n = m then some l else names.find? m := by
  unfold declared find?
  rw [Option.bind_some, Bindings.get?_cons]
  cases names <;> rfl

end Lexical.Names

namespace Dispatch

open Lexical (Location Names)

/-! ### Places -/

/-- What a location of the lexical memory is for. -/
inductive Role where
  /-- For a variable, which has this location on the other side. -/
  | variable (l : Location)
  /-- For a `this` or a `super`, which stands for this value. -/
  | constant (v : Value Place)

/-- What all locations of the lexical memory are for. It only ever grows at its end. -/
abbrev World := List Role

section

variable (w : World) (scopes : List (Bindings Bool)) (names : Names) (place : Place)

/-- The same variables are in force. -/
def SameVariables : Prop :=
  ∀ n, n ≠ "this" → n ≠ "super" →
    Option.Rel (fun l l' => w[l]? = some (.variable l')) (names.find? n) (place.names.find? n)

/-- `this` is a name for the receiver. -/
def SameReceiver : Prop :=
  ∃ l object description, names.find? "this" = some l
    ∧ place.receiver = some (object, description)
    ∧ w[l]? = some (.constant (.object object description.toClass))

/-- `super` is a name for the superclass. -/
def SameAncestor : Prop :=
  ∃ l id superclass, names.find? "super" = some l ∧ place.ancestor = some superclass
    ∧ w[l]? = some (.constant (.classOf id superclass.toClass))

/-- The names in force within these scopes and the place are counterparts: wherever a program may use
`this`, and wherever it may use `super`, which is where the scope of `super` is right around the
nearest one of `this`. -/
structure Fits : Prop where
  locals : SameVariables w names place
  receiver : ∀ {d}, scopes.findIdx? (·.binds "this") = some d → SameReceiver w names place
  ancestor : ∀ {d}, scopes.findIdx? (·.binds "this") = some d →
    scopes.findIdx? (·.binds "super") = some (d + 1) → SameAncestor w names place

/-- The scope binds neither `this` nor `super`. -/
def IsPlain (scope : Bindings Bool) : Prop :=
  scope.binds "this" = false ∧ scope.binds "super" = false

/-- The place of a statement, which may declare a name. -/
structure Stands : Prop extends Fits w scopes names place where
  outermost : names = none ↔ place.names = none
  innermost : ∀ scope ∈ scopes.head?, IsPlain scope

end

section

variable {w w' : World} {scopes : List (Bindings Bool)} {names : Names} {place : Place}

theorem SameVariables.mono (hw : w <+: w') (h : SameVariables w names place) :
    SameVariables w' names place := by
  intro n hthis hsuper
  rcases eq_none_or_eq_some_of_rel (h n hthis hsuper) with ⟨hx, hy⟩ | ⟨l, l', hx, hy, hl⟩
  · rw [hx, hy]
    exact .none
  · rw [hx, hy]
    exact .some (getElem?_of_beginning hw hl)

theorem SameReceiver.mono (hw : w <+: w') (h : SameReceiver w names place) :
    SameReceiver w' names place :=
  let ⟨l, object, description, hl, hplace, hrole⟩ := h
  ⟨l, object, description, hl, hplace, getElem?_of_beginning hw hrole⟩

theorem SameAncestor.mono (hw : w <+: w') (h : SameAncestor w names place) :
    SameAncestor w' names place :=
  let ⟨l, id, superclass, hl, hplace, hrole⟩ := h
  ⟨l, id, superclass, hl, hplace, getElem?_of_beginning hw hrole⟩

theorem Fits.mono (hw : w <+: w') (h : Fits w scopes names place) : Fits w' scopes names place where
  locals := h.locals.mono hw
  receiver hd := (h.receiver hd).mono hw
  ancestor hd hd' := (h.ancestor hd hd').mono hw

theorem Stands.mono (hw : w <+: w') (h : Stands w scopes names place) :
    Stands w' scopes names place :=
  { h with toFits := h.toFits.mono hw }

/-- Nothing is local outside of everything. -/
theorem Stands.outermost_place (w : World) : Stands w [] none .outermost where
  locals _ _ _ := .none
  receiver hd := nomatch hd
  ancestor hd := nomatch hd
  outermost := ⟨fun _ => rfl, fun _ => rfl⟩
  innermost _ hs := nomatch hs

/-- One more scope that does not bind a name makes its distance greater by one. -/
theorem findIdx?_cons_of_not_binds {scope : Bindings Bool} {n : String}
    (h : scope.binds n = false) :
    (scope :: scopes).findIdx? (·.binds n) = (scopes.findIdx? (·.binds n)).map (· + 1) := by
  simp [List.findIdx?_cons, h]

/-- Where a block or a body starts. -/
theorem Fits.enter (h : Fits w scopes names place) :
    Stands w ([] :: scopes) names.enter place.enter where
  locals n hthis hsuper := by
    show Option.Rel _ (names.enter.find? n) (place.names.enter.find? n)
    rw [Names.find?_enter, Names.find?_enter]
    exact h.locals n hthis hsuper
  receiver {d} hd := by
    rw [findIdx?_cons_of_not_binds rfl] at hd
    obtain ⟨e, he, -⟩ := Option.map_eq_some_iff.1 hd
    obtain ⟨l, object, description, hl, hrest⟩ := h.receiver he
    exact ⟨l, object, description, (Names.find?_enter names _).trans hl, hrest⟩
  ancestor {d} hd hd' := by
    rw [findIdx?_cons_of_not_binds rfl] at hd hd'
    obtain ⟨e, he, rfl⟩ := Option.map_eq_some_iff.1 hd
    obtain ⟨e', he', hadd⟩ := Option.map_eq_some_iff.1 hd'
    obtain rfl : e' = e + 1 := by omega
    obtain ⟨l, id, superclass, hl, hrest⟩ := h.ancestor he he'
    exact ⟨l, id, superclass, (Names.find?_enter names _).trans hl, hrest⟩
  outermost := ⟨nofun, nofun⟩
  innermost scope hs := by
    cases hs
    exact ⟨rfl, rfl⟩

/-- The same place is the counterpart within scopes that bind `this` and `super` alike. -/
theorem Stands.within {scopes' : List (Bindings Bool)} (h : Stands w scopes names place)
    (hthis : scopes'.findIdx? (·.binds "this") = scopes.findIdx? (·.binds "this"))
    (hsuper : scopes'.findIdx? (·.binds "super") = scopes.findIdx? (·.binds "super"))
    (hplain : ∀ scope ∈ scopes'.head?, IsPlain scope) : Stands w scopes' names place where
  locals := h.locals
  receiver hd := h.receiver (hthis ▸ hd)
  ancestor hd hd' := h.ancestor (hthis ▸ hd) (hsuper ▸ hd')
  outermost := h.outermost
  innermost := hplain

/-- The innermost scope does not bind `super`. -/
theorem Stands.findIdx?_super_ne_zero (h : Stands w scopes names place) :
    scopes.findIdx? (·.binds "super") ≠ some 0 := by
  cases scopes with
  | nil => simp
  | cons scope outer =>
    obtain ⟨-, hsuper⟩ := h.innermost scope rfl
    rw [findIdx?_cons_of_not_binds hsuper]
    simp

/-- A name is bound in the innermost scope. -/
theorem Stands.bind {site : Site} {name : Token} (h : Stands w site.scopes names place)
    (hn : name.IsName) (readable : Bool) :
    Stands w (site.bind name readable).scopes names place := by
  unfold Site.bind
  cases hs : site.scopes with
  | nil => simpa [hs] using h
  | cons scope outer =>
    rw [hs] at h
    obtain ⟨hthis, hsuper⟩ := h.innermost scope rfl
    have hplain : IsPlain (scope.set name.lexeme readable) := by
      constructor
      · rw [Bindings.binds_set, hthis, decide_eq_false hn.1, Bool.false_or]
      · rw [Bindings.binds_set, hsuper, decide_eq_false hn.2, Bool.false_or]
    refine h.within ?_ ?_ fun s hs => ?_
    · rw [findIdx?_cons_of_not_binds hplain.1, findIdx?_cons_of_not_binds hthis]
    · rw [findIdx?_cons_of_not_binds hplain.2, findIdx?_cons_of_not_binds hsuper]
    · cases hs
      exact hplain

/-- A name is declared in the innermost scope. -/
theorem Stands.declare {site : Site} {name : Token} (h : Stands w site.scopes names place)
    (hn : name.IsName) : Stands w (site.declare name).1.scopes names place := by
  unfold Site.declare
  split
  · exact h
  · exact h.bind hn false

theorem Stands.declareReadable {site : Site} {name : Token} (h : Stands w site.scopes names place)
    (hn : name.IsName) : Stands w (site.declareReadable name).1.scopes names place :=
  (h.declare hn).bind hn true

theorem Stands.declareEach {site : Site} {params : List Token}
    (h : Stands w site.scopes names place) (hn : ∀ p ∈ params, p.IsName) :
    Stands w (site.declareEach params).1.scopes names place := by
  induction params generalizing site with
  | nil => exact h
  | cons p params ih =>
    have hp := h.declareReadable (hn p List.mem_cons_self)
    exact ih hp fun q hq => hn q (List.mem_cons_of_mem _ hq)

/-- A variable is declared on both sides. -/
theorem Stands.declared (h : Stands w scopes names place) {name : Token} (hn : name.IsName)
    (l : Location) :
    Stands (w ++ [.variable l]) scopes (names.declared name.lexeme w.length)
      { place with names := place.names.declared name.lexeme l } := by
  have hw : w <+: w ++ [.variable l] := List.prefix_append _ _
  refine ⟨⟨fun n hthis hsuper => ?_, fun hd => ?_, fun hd hd' => ?_⟩, ⟨nofun, nofun⟩, h.innermost⟩
  · rw [Names.find?_declared, Names.find?_declared]
    split
    · exact .some (by simp)
    · exact (h.locals.mono hw) n hthis hsuper
  · obtain ⟨k, object, description, hk, hrest⟩ := (h.receiver hd).mono hw
    refine ⟨k, object, description, ?_, hrest⟩
    rw [Names.find?_declared, if_neg hn.1, hk]
  · obtain ⟨k, id, superclass, hk, hrest⟩ := (h.ancestor hd hd').mono hw
    refine ⟨k, id, superclass, ?_, hrest⟩
    rw [Names.find?_declared, if_neg hn.2, hk]

end

/-! ### Values -/

section

variable (w : World)

/-- The two are the same function. -/
structure FunctionRel (c : Closure Names) (c' : Closure Place) : Prop where
  routine : c'.routine = c.routine
  isInitializer : c'.isInitializer = c.isInitializer
  linked : ∃ (t : Table) (site : Site) (kind : BodyKind), c.routine.Linked t site kind
    ∧ Fits w site.scopes c.environment c'.environment
    ∧ (c.isInitializer = true → SameReceiver w c.environment c'.environment)

/-- The two are the same method, which has not been bound to an object. -/
structure MethodRel (c : Closure Names) (c' : Closure Place) : Prop where
  routine : c'.routine = c.routine
  isInitializer : c'.isInitializer = c.isInitializer
  linked : ∃ (t : Table) (site : Site) (kind : BodyKind),
    c.routine.Linked t (site.enter Site.thisScope) kind
      ∧ SameVariables w c.environment c'.environment
      ∧ (site.scopes.findIdx? (·.binds "super") = some 0 →
        SameAncestor w c.environment c'.environment)

/-- The two are the same class. -/
abbrev ClassRel (c : Class Names) (c' : Class Place) : Prop :=
  c.Rel (MethodRel w) c'

/-- The two are the same value. -/
abbrev ValueRel (v : Value Names) (v' : Value Place) : Prop :=
  v.Rel (FunctionRel w) (MethodRel w) v'

end

section

variable {w w' : World}

theorem FunctionRel.mono (hw : w <+: w') {c : Closure Names} {c' : Closure Place}
    (h : FunctionRel w c c') : FunctionRel w' c c' :=
  let ⟨t, site, kind, hl, hf, hi⟩ := h.linked
  ⟨h.routine, h.isInitializer, t, site, kind, hl, hf.mono hw, fun hc => (hi hc).mono hw⟩

theorem MethodRel.mono (hw : w <+: w') {c : Closure Names} {c' : Closure Place}
    (h : MethodRel w c c') : MethodRel w' c c' :=
  let ⟨t, site, kind, hl, hv, ha⟩ := h.linked
  ⟨h.routine, h.isInitializer, t, site, kind, hl, hv.mono hw, fun hd => (ha hd).mono hw⟩

theorem ClassRel.later (hw : w <+: w') {c : Class Names} {c' : Class Place} (h : ClassRel w c c') :
    ClassRel w' c c' :=
  h.mono fun _ _ hm => hm.mono hw

theorem ValueRel.later (hw : w <+: w') {v : Value Names} {v' : Value Place} (h : ValueRel w v v') :
    ValueRel w' v v' :=
  h.mono (fun _ _ hf => hf.mono hw) fun _ _ hm => hm.mono hw

theorem FunctionRel.arity {c : Closure Names} {c' : Closure Place} (h : FunctionRel w c c') :
    c'.arity = c.arity :=
  Closure.arity_eq_of_routine h.routine

end

/-! ### States -/

/-- The two states agree about everything. -/
structure Agrees (w : World) (st : Lexical.State) (st' : State) : Prop where
  host : st'.toHost = st.toHost
  nextIdentity : st'.nextIdentity = st.nextIdentity
  globals : Bindings.Rel (ValueRel w) st.globals st'.globals
  objects : st'.objects.size = st.objects.size
  fields : ∀ id : Nat, Bindings.Rel (ValueRel w) (st.objects[id]?.getD []) (st'.objects[id]?.getD [])
  memory : st.memory.size = w.length
  /-- A variable holds the same on both sides. -/
  cells : ∀ {l l' : Location}, w[l]? = some (.variable l') →
    ∃ v v', st.memory[l]? = some v ∧ st'.memory[l']? = some v' ∧ ValueRel w v v'
  /-- A `this` or a `super` holds what it stands for. -/
  constant : ∀ {l : Location} {v' : Value Place}, w[l]? = some (.constant v') →
    ∃ v, st.memory[l]? = some v ∧ ValueRel w v v'
  /-- No two variables share a location. -/
  apart : ∀ {l k l' : Location}, w[l]? = some (.variable l') → w[k]? = some (.variable l') → l = k

namespace Agrees

variable {w w' : World} {st : Lexical.State} {st' : State} {v : Value Names} {v' : Value Place}

/-! ### Changes that leave the memory as it is -/

theorem host_step (h : Agrees w st st') (host : Host) :
    Agrees w { st with toHost := host } { st' with toHost := host } :=
  { h with host := rfl }

theorem identity_step (h : Agrees w st st') :
    Agrees w { st with nextIdentity := st.nextIdentity + 1 }
      { st' with nextIdentity := st'.nextIdentity + 1 } :=
  { h with nextIdentity := congrArg (· + 1) h.nextIdentity }

/-- An object without fields is added. -/
theorem object_step (h : Agrees w st st') :
    Agrees w { st with objects := st.objects.push [] } { st' with objects := st'.objects.push [] } := by
  refine { h with objects := by simp [h.objects], fields := fun id => ?_ }
  have hf := h.fields id
  rw [Array.getElem?_push, Array.getElem?_push, h.objects]
  split
  · exact .nil
  · exact hf

/-- A field of an object is set. -/
theorem field_step (h : Agrees w st st') (object : Nat) (name : String) (hv : ValueRel w v v') :
    Agrees w { st with objects := st.objects.modify object (·.set name v) }
      { st' with objects := st'.objects.modify object (·.set name v') } := by
  refine { h with objects := by simp [h.objects], fields := fun id => ?_ }
  have hf := h.fields id
  rw [Array.getElem?_modify, Array.getElem?_modify]
  split
  · rename_i ho
    subst ho
    by_cases hs : object < st.objects.size
    · have hs' : object < st'.objects.size := h.objects ▸ hs
      simp only [Array.getElem?_eq_getElem hs, Array.getElem?_eq_getElem hs', Option.getD_some,
        Option.map_some] at hf ⊢
      exact hf.set name hv
    · have hs' : ¬ object < st'.objects.size := h.objects ▸ hs
      rw [Array.getElem?_eq_none (Nat.le_of_not_lt hs), Array.getElem?_eq_none (Nat.le_of_not_lt hs')]
      exact .nil
  · exact hf

/-- The globals bind a name. -/
theorem global_step (h : Agrees w st st') (name : String) (hv : ValueRel w v v') :
    Agrees w { st with globals := st.globals.set name v }
      { st' with globals := st'.globals.set name v' } :=
  { h with globals := h.globals.set name hv }

/-! ### The memory -/

/-- A variable gets a value. -/
theorem variable_step (h : Agrees w st st') {l l' : Location} (hl : w[l]? = some (.variable l'))
    (hv : ValueRel w v v') :
    Agrees w { st with memory := st.memory.setIfInBounds l v }
      { st' with memory := st'.memory.setIfInBounds l' v' } := by
  obtain ⟨u, u', hu, hu', -⟩ := h.cells hl
  obtain ⟨hlt, -⟩ := Array.getElem?_eq_some_iff.1 hu
  obtain ⟨hlt', -⟩ := Array.getElem?_eq_some_iff.1 hu'
  refine { h with memory := by simp [h.memory], cells := fun {k k'} hk => ?_,
                  constant := fun {k c} hk => ?_ }
  · by_cases hkl : k = l
    · subst hkl
      obtain rfl : l' = k' := by simpa [hl] using hk
      exact ⟨v, v', by simp [hlt], by simp [hlt'], hv⟩
    · have hkl' : l' ≠ k' := by
        rintro rfl
        exact hkl (h.apart hk hl)
      obtain ⟨x, x', hx, hx', hr⟩ := h.cells hk
      refine ⟨x, x', ?_, ?_, hr⟩
      · rw [Array.getElem?_setIfInBounds_ne (Ne.symm hkl), hx]
      · rw [Array.getElem?_setIfInBounds_ne hkl', hx']
  · have hkl : l ≠ k := by
      rintro rfl
      rw [hl] at hk
      cases hk
    obtain ⟨x, hx, hr⟩ := h.constant hk
    exact ⟨x, by rw [Array.getElem?_setIfInBounds_ne hkl, hx], hr⟩

/-- What the first location after those that are used is for. -/
theorem getElem?_append_role (h : Agrees w st st') {role role' : Role} {l : Location}
    (hl : (w ++ [role])[l]? = some role') :
    (l < st.memory.size ∧ w[l]? = some role') ∨ (l = st.memory.size ∧ role' = role) := by
  rw [h.memory]
  by_cases hlt : l < w.length
  · rw [List.getElem?_append_left hlt] at hl
    exact .inl ⟨hlt, hl⟩
  · rw [List.getElem?_append_right (Nat.le_of_not_lt hlt), List.getElem?_singleton] at hl
    split at hl
    · rename_i heq
      cases hl
      exact .inr ⟨Nat.le_antisymm (Nat.sub_eq_zero_iff_le.1 heq) (Nat.le_of_not_lt hlt), rfl⟩
    · cases hl

/-- A variable gets a location of its own on both sides. -/
theorem declare_step (h : Agrees w st st') :
    Agrees (w ++ [.variable st'.memory.size]) { st with memory := st.memory.push .nil }
      { st' with memory := st'.memory.push .nil } := by
  have hw : w <+: w ++ [.variable st'.memory.size] := List.prefix_append _ _
  -- The locations in use on the other side are those before the new one.
  have hused : ∀ {l l' : Location}, w[l]? = some (.variable l') → l' < st'.memory.size := by
    intro l l' hl
    obtain ⟨-, v', -, hv', -⟩ := h.cells hl
    exact (Array.getElem?_eq_some_iff.1 hv').1
  refine { h with
    globals := h.globals.mono fun _ _ => .later hw
    fields := fun id => (h.fields id).mono fun _ _ => .later hw
    memory := by simp [h.memory]
    cells := fun {l l'} hl => ?_
    constant := fun {l c} hl => ?_
    apart := fun {l k l'} hl hk => ?_ }
  · rcases h.getElem?_append_role hl with ⟨hlt, hl⟩ | ⟨rfl, hrole⟩
    · obtain ⟨v, v', hv, hv', hr⟩ := h.cells hl
      refine ⟨v, v', ?_, ?_, hr.later hw⟩
      · rw [Array.getElem?_push, if_neg (Nat.ne_of_lt hlt), hv]
      · rw [Array.getElem?_push, if_neg (Nat.ne_of_lt (hused hl)), hv']
    · cases hrole
      exact ⟨.nil, .nil, by simp, by simp, .nil⟩
  · rcases h.getElem?_append_role hl with ⟨hlt, hl⟩ | ⟨-, hrole⟩
    · obtain ⟨v, hv, hr⟩ := h.constant hl
      exact ⟨v, by rw [Array.getElem?_push, if_neg (Nat.ne_of_lt hlt), hv], hr.later hw⟩
    · cases hrole
  · rcases h.getElem?_append_role hl with ⟨-, hl⟩ | ⟨rfl, hrole⟩ <;>
      rcases h.getElem?_append_role hk with ⟨-, hk⟩ | ⟨rfl, hrole'⟩
    · exact h.apart hl hk
    · cases hrole'
      exact absurd (hused hl) (Nat.lt_irrefl _)
    · cases hrole
      exact absurd (hused hk) (Nat.lt_irrefl _)
    · rfl

/-- A `this` or a `super` gets a location, with what it stands for. -/
theorem constant_step (h : Agrees w st st') (hv : ValueRel w v v') :
    Agrees (w ++ [.constant v']) { st with memory := st.memory.push v } st' := by
  have hw : w <+: w ++ [.constant v'] := List.prefix_append _ _
  refine { h with
    globals := h.globals.mono fun _ _ => .later hw
    fields := fun id => (h.fields id).mono fun _ _ => .later hw
    memory := by simp [h.memory]
    cells := fun {l l'} hl => ?_
    constant := fun {l c} hl => ?_
    apart := fun {l k l'} hl hk => ?_ }
  · rcases h.getElem?_append_role hl with ⟨hlt, hl⟩ | ⟨-, hrole⟩
    · obtain ⟨x, x', hx, hx', hr⟩ := h.cells hl
      exact ⟨x, x', by rw [Array.getElem?_push, if_neg (Nat.ne_of_lt hlt), hx], hx', hr.later hw⟩
    · cases hrole
  · rcases h.getElem?_append_role hl with ⟨hlt, hl⟩ | ⟨rfl, hrole⟩
    · obtain ⟨x, hx, hr⟩ := h.constant hl
      exact ⟨x, by rw [Array.getElem?_push, if_neg (Nat.ne_of_lt hlt), hx], hr.later hw⟩
    · cases hrole
      exact ⟨v, by simp, hv.later hw⟩
  · rcases h.getElem?_append_role hl with ⟨-, hl⟩ | ⟨-, hrole⟩
    · rcases h.getElem?_append_role hk with ⟨-, hk⟩ | ⟨-, hrole⟩
      · exact h.apart hl hk
      · cases hrole
    · cases hrole

end Agrees

end Dispatch

end Lox
