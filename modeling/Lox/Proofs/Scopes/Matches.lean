import Lox.Proofs.Execution.Invariant
import Lox.Proofs.Scopes.Variant
import Lox.Proofs.Scopes.World

/-!
Runs of a variant that are the runs themselves. `Matches` is said of a varied run and the run: from a
machine that conforms to a world they do the same, and end, however they end, in a machine that
conforms to a world which extends the one before. Here are the rules for all runs and for the steps
of the machine that no variant carries out in another way, and what a variant has to keep to for the
others (`Faithful`).
-/

namespace Lox

/-- The scopes of the first store bind the same names in the second one, but for one of them. -/
def Store.SameNames (but : Option ScopeId) (st st' : Store) : Prop :=
  ∀ i < st.scopes.size, some i ≠ but → (st'.scope i).names = (st.scope i).names

/-- The nearest scope that binds a name, if there is one, says that it may be read, unless the name is
that of the variable in whose initializer it occurs. -/
def Site.MayAssign (site : Site) (own : Option String) (name : String) : Prop :=
  site.MayRead name ∨ own = some name ∧ site.distanceOf? name = some 0

namespace Scopes

/-- From a machine that conforms to the world, the varied run is the run, which leaves the machine in
its environment and conforming to a world with these additions; its result satisfies `post`. -/
def Matches (ordered : Prop) (t : Table) (new : Additions) (env : Environment) (w : World) {α : Type}
    (varied run : Run α) (post : World → α → Prop) : Prop :=
  ∀ m, Conforms ordered t w m → m.environment = env →
    varied m = run m ∧ ∃ w', w.Extends new w' ∧ Conforms ordered t w' (machineOf (run m))
      ∧ (machineOf (run m)).environment = env ∧ ∀ a n, run m = .ok a n → post w' a

namespace Matches

variable {ordered : Prop} {t : Table} {new : Additions} {env : Environment} {w : World}
  {α β : Type} {varied run : Run α} {post mid : World → α → Prop}

/-! ### Rules for all runs -/

theorem imp {new' : Additions} {post' : World → α → Prop}
    (h : Matches ordered t new env w varied run post)
    (hnew : ∀ i < w.scopes, ∀ n, new i n → new' i n)
    (hpost : ∀ w' a, w.Extends new w' → post w' a → post' w' a) :
    Matches ordered t new' env w varied run post' := by
  intro m hm he
  obtain ⟨hsame, w', hext, hm', he', hp⟩ := h m hm he
  exact ⟨hsame, w', hext.imp hnew, hm', he', fun a n hr => hpost w' a hext (hp a n hr)⟩

theorem conseq {post' : World → α → Prop} (h : Matches ordered t new env w varied run post)
    (hpost : ∀ w' a, w.Extends new w' → post w' a → post' w' a) :
    Matches ordered t new env w varied run post' :=
  h.imp (fun _ _ _ => id) hpost

theorem weaken (h : Matches ordered t nothing env w varied run post) :
    Matches ordered t new env w varied run post :=
  h.imp (fun _ _ _ => False.elim) fun _ _ _ => id

/-- What is known of all machines that conform may be used. -/
theorem of_conforms (h : (∃ m, Conforms ordered t w m) → Matches ordered t new env w varied run post) :
    Matches ordered t new env w varied run post :=
  fun m hm he => h ⟨m, hm⟩ m hm he

/-- A step that always succeeds. -/
theorem of_ok (h : ∀ m, Conforms ordered t w m → m.environment = env → ∃ a m' w',
    run m = .ok a m' ∧ w.Extends new w' ∧ Conforms ordered t w' m' ∧ m'.environment = env
      ∧ post w' a) :
    Matches ordered t new env w run run post := by
  intro m hm he
  obtain ⟨a, m', w', hr, hext, hm', he', hp⟩ := h m hm he
  rw [hr]
  refine ⟨rfl, w', hext, hm', he', ?_⟩
  intro b n hb
  cases hb
  exact hp

/-- A step that leaves the machine as it is. -/
theorem of_read (h : ∀ m, Conforms ordered t w m → m.environment = env →
    varied m = run m ∧ machineOf (run m) = m ∧ ∀ a n, run m = .ok a n → post w a) :
    Matches ordered t new env w varied run post := by
  intro m hm he
  obtain ⟨hsame, hafter, hp⟩ := h m hm he
  refine ⟨hsame, w, .refl new w, ?_, ?_, hp⟩
  · rwa [hafter]
  · rwa [hafter]

protected theorem pure {a : α} (h : post w a) :
    Matches ordered t new env w (pure a) (pure a) post :=
  of_ok fun m hm he => ⟨a, m, w, rfl, .refl new w, hm, he, h⟩

protected theorem fail (line : Nat) (cause : RuntimeFault) :
    Matches ordered t new env w (Run.fail line cause) (Run.fail line cause) post :=
  of_read fun _ _ _ => ⟨rfl, rfl, fun _ _ hr => nomatch hr⟩

theorem outOfFuel :
    Matches ordered t new env w (throw .outOfFuel) (throw .outOfFuel) post :=
  of_read fun _ _ _ => ⟨rfl, rfl, fun _ _ hr => nomatch hr⟩

theorem ofExcept (line : Nat) {x : Except RuntimeFault α} (h : ∀ a, x = .ok a → post w a) :
    Matches ordered t new env w (Run.ofExcept line x) (Run.ofExcept line x) post := by
  cases x with
  | ok a => exact .pure (h a rfl)
  | error cause => exact .fail line cause

/-- One run after the other. -/
protected theorem bind {varied' run' : α → Run β} {post : World → β → Prop}
    (h : Matches ordered t new env w varied run mid)
    (hnext : ∀ w' a, w.Extends new w' → mid w' a →
      Matches ordered t new env w' (varied' a) (run' a) post) :
    Matches ordered t new env w (varied >>= varied') (run >>= run') post := by
  intro m hm he
  obtain ⟨hsame, w', hext, hm', he', hmid⟩ := h m hm he
  cases hr : run m with
  | ok a n =>
    rw [hr] at hsame hm' he'
    rw [bind_ok hsame, bind_ok hr]
    obtain ⟨hsame', w'', hext', hrest⟩ := hnext w' a hext (hmid a n hr) n hm' he'
    exact ⟨hsame', w'', hext.trans hext', hrest⟩
  | error stop n =>
    rw [hr] at hsame hm' he'
    rw [bind_error hsame, bind_error hr]
    exact ⟨rfl, w', hext, hm', he', fun _ _ hb => nomatch hb⟩

theorem map {f : α → β} {post : World → β → Prop}
    (h : Matches ordered t new env w varied run fun w' a => post w' (f a)) :
    Matches ordered t new env w (f <$> varied) (f <$> run) post := by
  rw [map_eq_pure_bind, map_eq_pure_bind]
  exact h.bind fun _ _ _ hp => .pure hp

protected theorem discard (h : Matches ordered t new env w varied run post) :
    Matches ordered t new env w (discard varied) (discard run) fun _ _ => True :=
  (h.conseq fun _ _ _ _ => trivial).map

/-- The same runs on all members of a list. -/
theorem mapM {σ : Type} {f f' : σ → Run α} {r : World → α → Prop}
    (hr : ∀ {w w' : World} {a}, w.Extends new w' → r w a → r w' a) (xs : List σ)
    (h : ∀ x ∈ xs, ∀ w', w.Extends new w' → Matches ordered t new env w' (f x) (f' x) r) :
    Matches ordered t new env w (xs.mapM f) (xs.mapM f') fun w' as => ∀ a ∈ as, r w' a := by
  induction xs generalizing w with
  | nil =>
    refine .pure ?_
    simp
  | cons x xs ih =>
    rw [List.mapM_cons, List.mapM_cons]
    refine (h x List.mem_cons_self w (.refl new w)).bind fun w₁ a hext ha => ?_
    refine (ih fun y hy w' hext' => h y (List.mem_cons_of_mem _ hy) w' (hext.trans hext')).bind
      fun w₂ as hext' has => .pure ?_
    intro b hb
    rcases List.mem_cons.1 hb with rfl | hb
    · exact hr hext' ha
    · exact has b hb

/-- A run inside another environment, whose additions are none to the scopes that are there. -/
theorem within {inner : Environment} (h : Matches ordered t new inner w varied run post) :
    Matches ordered t new env w (Run.within inner varied) (Run.within inner run) post := by
  intro m hm he
  obtain ⟨hsame, w', hext, hm', -, hp⟩ :=
    h { m with environment := inner } (hm.environment_step inner) rfl
  cases hr : run { m with environment := inner } with
  | ok a n =>
    rw [hr] at hsame hm'
    rw [within_ok hsame, within_ok hr]
    refine ⟨rfl, w', hext, hm'.environment_step m.environment, he, ?_⟩
    intro b n' hb
    cases hb
    exact hp a n hr
  | error stop n =>
    rw [hr] at hsame hm'
    rw [within_error hsame, within_error hr]
    exact ⟨rfl, w', hext, hm'.environment_step m.environment, he, fun _ _ hb => nomatch hb⟩

/-! ### Steps of the machine -/

/-- The machine looks at its environment. -/
theorem environment_bind {varied' run' : Environment → Run α}
    (h : Matches ordered t new env w (varied' env) (run' env) post) :
    Matches ordered t new env w (Run.environment >>= varied') (Run.environment >>= run') post := by
  intro m hm he
  simpa only [Bind.bind, EStateM.bind, Run.environment, he] using h m hm he

/-- A scope is added, which may come to bind these names. -/
theorem extend {outer : Environment} {b : Bindings Value}
    (hb : Bindings.Rel (Conforming ordered t w) b b) (allowed : String → Prop)
    (hallowed : ordered → ∀ n ∈ b.names, allowed n) :
    Matches ordered t new env w (Run.extend outer b) (Run.extend outer b)
      fun w' inner => inner = w.scopes :: outer ∧ w' = w.grow b.names allowed := by
  refine of_ok fun m hm he => ?_
  refine ⟨_, _, w.grow b.names allowed, rfl, w.extends_grow new _ _, hm.grow hb hallowed, he, ?_, rfl⟩
  rw [hm.scopes]

theorem newIdentity : Matches ordered t new env w Run.newIdentity Run.newIdentity fun _ _ => True :=
  of_ok fun _ hm he => ⟨_, _, w, rfl, .refl new w, hm.identity_step, he, trivial⟩

theorem newObject : Matches ordered t new env w Run.newObject Run.newObject fun _ _ => True :=
  of_ok fun _ hm he => ⟨_, _, w, rfl, .refl new w, hm.object_step, he, trivial⟩

/-- What is bound in something that conforms to itself conforms. -/
theorem conforming_of_get? {b : Bindings Value} (hb : Bindings.Rel (Conforming ordered t w) b b)
    {name : String} {v : Value} (hv : b.get? name = some v) : Conforming ordered t w v v := by
  have hrel := hb.get? name
  rw [hv] at hrel
  cases hrel with
  | some h => exact h

theorem field? (object : Nat) (name : String) :
    Matches ordered t new env w (Run.field? object name) (Run.field? object name)
      fun w' field => ∀ v, field = some v → Conforming ordered t w' v v := by
  refine of_read fun m hm _ => ⟨rfl, rfl, ?_⟩
  intro field n hr v hv
  cases hr
  exact conforming_of_get? (hm.fields object) hv

theorem setField (object : Nat) (name : String) {v : Value} (hv : Conforming ordered t w v v) :
    Matches ordered t new env w (Run.setField object name v) (Run.setField object name v)
      fun _ _ => True :=
  of_ok fun _ hm he =>
    ⟨_, _, w, rfl, .refl new w, hm.field_step object name hv, he, trivial⟩

theorem ofExcept_read {line : Nat} {x : Machine → Except RuntimeFault Value}
    (h : ∀ m, Conforms ordered t w m → ∀ v, x m = .ok v → Conforming ordered t w v v) :
    Matches ordered t new env w (fun m => Run.ofExcept line (x m) m)
      (fun m => Run.ofExcept line (x m) m) fun w' v => Conforming ordered t w' v v := by
  refine of_read fun m hm _ => ⟨rfl, ?_, ?_⟩
  · cases x m <;> rfl
  · intro v n hr
    cases hx : x m with
    | ok u =>
      rw [hx] at hr
      cases hr
      exact h m hm _ hx
    | error cause =>
      rw [hx] at hr
      cases hr

theorem getAt (outer : Environment) (distance : Nat) (name : String) (line : Nat) :
    Matches ordered t new env w (Run.getAt outer distance name line)
      (Run.getAt outer distance name line) fun w' v => Conforming ordered t w' v v := by
  refine ofExcept_read fun m hm v hv => ?_
  obtain ⟨i, -, hget⟩ := Store.mem_of_getAt hv
  exact conforming_of_get? (hm.scope i) hget

theorem lookUp (id : Nat) (name : Token) :
    Matches ordered t new env w (Run.lookUp id name) (Run.lookUp id name)
      fun w' v => Conforming ordered t w' v v := by
  refine ofExcept_read fun m hm v hv => ?_
  unfold Machine.lookUp at hv
  split at hv
  · obtain ⟨i, -, hget⟩ := Store.mem_of_getAt hv
    exact conforming_of_get? (hm.scope i) hget
  · obtain ⟨i, -, hget⟩ := Store.mem_of_get hv
    exact conforming_of_get? (hm.scope i) hget

/-- A use of the host. -/
theorem ofHost {use : EStateM Stop Host Value}
    (h : UsesAlike (Conforming ordered t w) use use) :
    Matches ordered t new env w (Run.ofHost use) (Run.ofHost use)
      fun w' v => Conforming ordered t w' v v := by
  intro m hm he
  refine ⟨rfl, w, .refl new w, ?_⟩
  have h := h m.toHost
  unfold Run.ofHost
  cases hu : use m.toHost with
  | ok a host =>
    rw [hu] at h
    refine ⟨hm.host_step host, he, ?_⟩
    intro b n hr
    cases hr
    exact h.2
  | error stop host => exact ⟨hm.host_step host, he, fun _ _ hr => nomatch hr⟩

/-! ### Names that are left as they are -/

/-- Without additions the scopes bind the names that they did. -/
theorem sameNames {but : Option ScopeId} (hnew : ∀ i n, some i ≠ but → ¬ new i n)
    (h : Matches ordered t new env w varied run post) {m : Machine} (hm : Conforms ordered t w m)
    (he : m.environment = env) : m.store.SameNames but (machineOf (run m)).store := by
  obtain ⟨-, w', hext, hm', -⟩ := h m hm he
  intro i hi hbut
  rw [← hm'.names, ← hm.names]
  exact hext.same i (hm.scopes ▸ hi) fun n => hnew i n hbut

end Matches

/-! ### What a variant has to keep to -/

/-- In machines that conform, the variants find what the evaluator finds; and they leave a call, a block
or a body as it is if the names of all scopes but its own are left as they were. -/
structure Faithful (ordered : Prop) (V : Variants) : Prop where
  lookUp : ∀ {own : Option String} {t : Table} {w : World} {m : Machine} {site : Site} {id : Nat} {name : Token},
    Conforms ordered t w m → Chain w site.scopes m.environment →
    t.Gives id (site.distanceOf? name.lexeme) → site.MayRead name.lexeme →
    (ordered → Known w.Binds (· = name.lexeme) site.scopes m.environment) →
    (V own).lookUp id name m = Run.lookUp id name m
  assign : ∀ {own : Option String} {t : Table} {w : World} {m : Machine} {site : Site} {id : Nat} {name : Token},
    Conforms ordered t w m → Chain w site.scopes m.environment →
    t.Gives id (site.distanceOf? name.lexeme) → site.MayAssign own name.lexeme →
    (ordered → site.MayRead name.lexeme
      ∧ Known w.Binds (· = name.lexeme) site.scopes m.environment) →
    ∀ v, (V own).assign id name v m = Run.assign id name v m
  superMethod : ∀ {own : Option String} {t : Table} {w : World} {m : Machine} {site : Site} {id : Nat}
    {keyword method : Token}, Conforms ordered t w m → Chain w site.scopes m.environment →
    (Expr.super id keyword method).Linked t site →
    (ordered → Known w.Binds (Minded []) site.scopes m.environment) →
    (V own).superMethod id keyword method m = Lox.superMethod id keyword method m
  call : ∀ {own : Option String} {run : Run Value} {m : Machine},
    m.store.SameNames none (machineOf (run m)).store → (V own).call run m = run m
  block : ∀ {own : Option String} {run : Run Completion} {m : Machine},
    m.store.SameNames none (machineOf (run m)).store → (V own).block run m = run m
  body : ∀ {own : Option String} {run : Run Completion} {m : Machine},
    m.store.SameNames m.environment.head? (machineOf (run m)).store → (V own).body run m = run m

/-- What is put around a run makes no difference if it makes none around runs that leave the names of
all scopes, but maybe one, as they were. -/
theorem Matches.guarded {ordered : Prop} {t : Table} {new : Additions} {env : Environment} {w : World}
    {α : Type} {guard : Run α → Run α} (but : Option ScopeId)
    (hguard : ∀ {run : Run α} {m : Machine}, m.environment = env →
      m.store.SameNames but (machineOf (run m)).store → guard run m = run m)
    (hnew : ∀ i n, some i ≠ but → ¬ new i n) {varied run : Run α} {post : World → α → Prop}
    (h : Matches ordered t new env w varied run post) :
    Matches ordered t new env w (guard varied) run post := by
  intro m hm he
  obtain ⟨hsame, hrest⟩ := h m hm he
  refine ⟨?_, hrest⟩
  rw [hguard he, hsame]
  rw [hsame]
  exact h.sameNames hnew hm he

end Scopes

end Lox
