import Lox.Proofs.Scopes.Calls

/-!
Declarations. Each of them binds one name in the innermost scope, from which on it may be read, and
keeps functions and methods for later in scopes that are current then.
-/

namespace Lox

namespace Scopes

section

variable {ordered : Prop} {t : Table} {w w' : World} {env : Environment} {site : Site}
  {new : Additions} {declared later : List String} {minded : String → Prop}

/-! ### Names and functions -/

/-- A name is bound in the innermost scope. -/
theorem Matches.define {name : Token} (hc : Current ordered w site env declared minded)
    (hd : Declares site declared name later) {v : Value}
    (hv : Conforming ordered t (w.bind (env.headD 0) name.lexeme) v v) :
    Matches ordered t (inside env [name.lexeme]) env w (Run.define name.lexeme v)
      (Run.define name.lexeme v)
      fun w' _ => Current ordered w' (site.bind name true) env later minded := by
  have hnew : inside env [name.lexeme] (env.headD 0) name.lexeme :=
    ⟨hc.chain.head?_eq, List.mem_singleton_self _⟩
  refine of_ok fun m hm he => ⟨(), _, w.bind (env.headD 0) name.lexeme, rfl,
    World.extends_bind (.inr hnew), ?_, he, hc.bind hd⟩
  have hold : env.headD 0 < w.scopes := by
    have hchain := hc.chain
    generalize site.scopes = scopes at hchain
    cases hchain with
    | globals => exact hm.positive
    | scope _ _ old _ => exact old
  have hset := hm.set hold (fun ho => hc.allowed_next hd ho) (.inr hnew) hv
  have hdefine : m.store.define m.environment name.lexeme v
      = m.store.setIn (env.headD 0) name.lexeme v := by
    rw [he]
    have hhead := hc.chain.head?_eq
    cases env with
    | nil => cases hhead
    | cons i outer => rfl
  rw [hdefine]
  exact hset

/-- A function is declared. -/
theorem Matches.declareFunction {routine : Routine}
    (hc : Current ordered w site env (routine.name.lexeme :: later) minded)
    (hl : routine.Linked t (site.bind routine.name true) .function)
    (ho : ordered → routine.orderly = true ∧ (∀ n, Minded routine.mentions n → minded n)
      ∧ (site.scopes ≠ [] → ∀ n, Minded routine.mentions n → n ∉ later)) :
    Matches ordered t (inside env [routine.name.lexeme]) env w (Lox.declareFunction routine)
      (Lox.declareFunction routine)
      fun w' _ => Current ordered w' (site.bind routine.name true) env later minded := by
  refine Matches.environment_bind ?_
  have hidentity : Matches ordered t nothing env w Run.newIdentity Run.newIdentity
      fun w' _ => Current ordered w' site env (routine.name.lexeme :: later) minded :=
    Matches.newIdentity.conseq fun _ _ hext _ => hc.extend hext fun _ => rfl
  refine hidentity.weaken.bind fun w₁ id _ hc₁ => ?_
  have hd := declares_first site routine.name later
  have hplaced : Placed ordered t (w₁.bind (env.headD 0) routine.name.lexeme) routine
      (site.bind routine.name true) (site.bind routine.name true).scopes env :=
    (hc₁.bind hd).placed ⟨_, hl⟩ (hc.readable.bind _) fun h => ⟨(ho h).1, (ho h).2.1, fun hs =>
      (ho h).2.2 fun hnil => hs (by rw [Site.bind_scopes, hnil])⟩
  exact Matches.define hc₁ hd (.function id ⟨rfl, _, hplaced⟩)

/-! ### Classes -/

/-- The last step of a class declaration: its name, which has been bound already, is bound to the
class. -/
theorem Matches.defineClass {name : Token}
    (hc : Current ordered w (site.bind name true) env later minded)
    {layers : List (Bindings Closure)}
    (hlayers : List.Forall₂ (Bindings.Rel (MethodIn ordered t w)) layers layers) :
    Matches ordered t (inside env [name.lexeme]) env w
      (Run.newIdentity >>= fun id => Run.define name.lexeme (.classOf id ⟨name.lexeme, layers⟩))
      (Run.newIdentity >>= fun id => Run.define name.lexeme (.classOf id ⟨name.lexeme, layers⟩))
      fun w' _ => Current ordered w' (site.bind name true) env later minded := by
  have hidentity : Matches ordered t nothing env w Run.newIdentity Run.newIdentity
      fun w' id => Current ordered w' (site.bind name true) env later minded
        ∧ Conforming ordered t w' (.classOf id ⟨name.lexeme, layers⟩)
          (.classOf id ⟨name.lexeme, layers⟩) := by
    refine Matches.newIdentity.conseq fun w' id hext _ => ⟨hc.extend hext fun _ => rfl, ?_⟩
    have hclass : Conforming ordered t w (.classOf id ⟨name.lexeme, layers⟩)
        (.classOf id ⟨name.lexeme, layers⟩) := .classOf id ⟨rfl, hlayers⟩
    exact hclass.mono (.refl t) hext
  refine hidentity.weaken.bind fun w₁ id _ hpost => ?_
  obtain ⟨hc₁, hclass⟩ := hpost
  have hext : w₁.Extends (inside env [name.lexeme]) (w₁.bind (env.headD 0) name.lexeme) :=
    World.extends_bind (.inr ⟨hc₁.chain.head?_eq, List.mem_singleton_self _⟩)
  have hdefine := Matches.define hc₁ (declares_again site name later)
    (hclass.mono (.refl t) hext)
  rwa [Site.bind_bind] at hdefine

/-- What the methods of a class that is declared here have to be like if order is minded. -/
def MethodsInOrder (site : Site) (later : List String) (minded : String → Prop)
    (methods : List Routine) : Prop :=
  ∀ r ∈ methods, r.orderly = true ∧ (∀ n, Minded r.mentions n → minded n)
    ∧ (site.scopes ≠ [] → ∀ n, Minded r.mentions n → n ∉ later)

/-- A method of a class that is declared here is kept for later. -/
theorem Current.placed_method {name : Token}
    (hc : Current ordered w (site.bind name true) env later minded) {methods : List Routine}
    (ho : ordered → MethodsInOrder site later minded methods) {inner : Site}
    (hr : inner.Readable) (hl : Routine.LinkedEach t inner methods) {r : Routine}
    (hmem : r ∈ methods) : Placed ordered t w r inner (site.bind name true).scopes env :=
  hc.placed ⟨_, hl.of_mem hmem⟩ hr fun h =>
    ⟨(ho h r hmem).1, (ho h r hmem).2.1, fun hs => (ho h r hmem).2.2 fun hnil => hs (by
      rw [Site.bind_scopes, hnil])⟩

/-- A class without a superclass is declared. -/
theorem Matches.declareClass_base {name : Token} {methods : List Routine}
    (hc : Current ordered w site env (name.lexeme :: later) minded)
    (hl : Routine.LinkedEach t
      ({ site.bind name true with classBody := some .base }.enter Site.thisScope) methods)
    (ho : ordered → MethodsInOrder site later minded methods) :
    Matches ordered t (inside env [name.lexeme]) env w (Lox.declareClass name none methods)
      (Lox.declareClass name none methods)
      fun w' _ => Current ordered w' (site.bind name true) env later minded := by
  refine (Matches.define hc (declares_first site name later) .nil).bind fun w₁ _ _ hc₁ => ?_
  refine Matches.environment_bind ?_
  have hr : ({ site.bind name true with classBody := some .base } : Site).Readable := hc₁.readable
  have hlayer : Bindings.Rel (MethodIn ordered t w₁) (methodLayer env methods)
      (methodLayer env methods) := by
    refine methodLayer_rel fun r hmem =>
      ⟨rfl, { site.bind name true with classBody := some .base }, ?_⟩
    exact hc₁.placed_method ho (hr.enter_one "this") hl hmem
  exact Matches.defineClass hc₁ (.cons hlayer .nil)

/-- A class with a superclass is declared. -/
theorem Matches.declareClass_derived {name : Token} {methods : List Routine} {p : Value × Class}
    (hc : Current ordered w site env (name.lexeme :: later) minded)
    (hp : Conforming ordered t w p.1 p.1) (hd : p.2.Rel (MethodIn ordered t w) p.2)
    (hl : Routine.LinkedEach t
      (({ site.bind name true with classBody := some .derived }.enter Site.superScope).enter
        Site.thisScope) methods)
    (ho : ordered → MethodsInOrder site later minded methods) :
    Matches ordered t (inside env [name.lexeme]) env w (Lox.declareClass name (some p) methods)
      (Lox.declareClass name (some p) methods)
      fun w' _ => Current ordered w' (site.bind name true) env later minded := by
  refine Matches.of_conforms fun ⟨m, hm⟩ => ?_
  refine (Matches.define hc (declares_first site name later) .nil).bind fun w₁ _ hext₁ hc₁ => ?_
  refine Matches.environment_bind ?_
  refine (Matches.extend (b := [("super", p.1)]) (.cons ⟨rfl, hp.mono (.refl t) hext₁⟩ .nil)
    (· = "super") fun _ n hn => by simpa [Bindings.names] using hn).bind fun w₂ inner hext₂ hw₂ => ?_
  obtain ⟨rfl, rfl⟩ := hw₂
  have hr : ({ site.bind name true with classBody := some .derived } : Site).Readable :=
    hc₁.readable
  have hpos : 0 < w₁.scopes := Nat.lt_of_lt_of_le hm.positive hext₁.scopes
  have hlayer : Bindings.Rel (MethodIn ordered t (w₁.grow ["super"] (· = "super")))
      (methodLayer (w₁.scopes :: env) methods) (methodLayer (w₁.scopes :: env) methods) := by
    refine methodLayer_rel fun r hmem =>
      ⟨rfl, { site.bind name true with classBody := some .derived }.enter Site.superScope, ?_⟩
    exact (hc₁.placed_method ho ((hr.enter_one "super").enter_one "this") hl hmem).enter_one hpos
      "super"
  have hclass : Conforming ordered t w (.classOf 0 p.2) (.classOf 0 p.2) := .classOf 0 hd
  have hclass := hclass.mono (.refl t) (hext₁.trans hext₂)
  cases hclass with
  | classOf _ hinherited =>
    exact Matches.defineClass (hc₁.extend (w₁.extends_grow nothing _ _) fun _ => rfl)
      (.cons hlayer hinherited.layers)

/-- A value that stands as a superclass is a class. -/
theorem Matches.asSuperclass (line : Nat) {v : Value} (hv : Conforming ordered t w v v) :
    Matches ordered t new env w (Lox.asSuperclass line v) (Lox.asSuperclass line v)
      fun w' p => Conforming ordered t w' p.1 p.1 ∧ p.2.Rel (MethodIn ordered t w') p.2 := by
  cases hv with
  | classOf id hc => exact .pure ⟨.classOf id hc, hc⟩
  | _ => exact .fail line _

end

end Scopes

end Lox
