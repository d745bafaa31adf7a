import Lox.Proofs.Execution.Runs
import Lox.Proofs.Lexical.Declaring
import Lox.Proofs.Safety.Watch

/-!
Runs of the machine followed by runs of the lexical meaning. `Simulates` is said of a run of the
machine, the same run watched, and a run of the lexical meaning: from states that agree, the two end
in the same way in states that agree again, in a world that extends the one before; the watched run
is either the run itself or was stopped where the condition of the watch failed. The rules below
follow the shape of the runs, so that the proof for a construct of the language is a term of them.
-/

namespace Lox

namespace Lexical

/-! ### Simulation -/

section

variable (k : Watch) (t : Table) (env : Environment)

/-- How a watched run, the run and the run of the lexical meaning end together. -/
inductive Outcome {α β : Type} (inside : Option ScopeId) (w : World) (post : World → α → β → Prop)
    (watched : EStateM.Result Stop Machine α) :
    EStateM.Result Stop Machine α → EStateM.Result Stop State β → Prop where
  | ok {w' : World} {a : α} {b : β} {m : Machine} {st : State}
      (follows : watched = .ok a m ∨ k.Stopped watched) (extend : w.Extends inside w')
      (agrees : Agrees t w' m st) (environment : m.environment = env) (holds : post w' a b) :
      Outcome inside w post watched (.ok a m) (.ok b st)
  | error {w' : World} {stop : Stop} {m : Machine} {st : State}
      (follows : watched = .error stop m ∨ k.Stopped watched) (agrees : Agrees t w' m st)
      (environment : m.environment = env) (blames : k.Blames (k.Stopped watched) (m.store.scope 0) stop) :
      Outcome inside w post watched (.error stop m) (.error stop st)

/-- From states that agree the runs end together, with results that `post` relates. Of the scopes
that were there, only `inside` may have declared anything. -/
def Simulates {α β : Type} (inside : Option ScopeId) (w : World) (watched run : Lox.Run α)
    (spec : Run β) (post : World → α → β → Prop) : Prop :=
  ∀ m st, Agrees t w m st → m.environment = env →
    Outcome k t env inside w post (watched m) (run m) (spec st)

end

section

variable {k k' : Watch} {t : Table} {env : Environment} {inside : Option ScopeId} {w : World}
  {α β γ δ : Type} {post mid : World → α → β → Prop}

namespace Outcome

variable {watched run : EStateM.Result Stop Machine α} {spec : EStateM.Result Stop State β}

/-- A run that was stopped by a watch need not be looked at any further. -/
theorem stopped {watched' : EStateM.Result Stop Machine α}
    (h : Outcome k t env inside w post watched run spec) (hs : k'.Stopped watched') :
    Outcome k' t env inside w post watched' run spec := by
  cases h with
  | ok _ extend agrees environment holds => exact .ok (.inr hs) extend agrees environment holds
  | error _ agrees environment blames =>
    exact .error (.inr hs) agrees environment (blames.excuse hs)

theorem imp {inside' : Option ScopeId} {w₀ : World} {post' : World → α → β → Prop}
    (h : Outcome k t env inside w post watched run spec)
    (hext : ∀ w', w.Extends inside w' → w₀.Extends inside' w')
    (hpost : ∀ w' a b, w.Extends inside w' → post w' a b → post' w' a b) :
    Outcome k t env inside' w₀ post' watched run spec := by
  cases h with
  | ok follows extend agrees environment holds =>
    exact .ok follows (hext _ extend) agrees environment (hpost _ _ _ extend holds)
  | error follows agrees environment blames => exact .error follows agrees environment blames

end Outcome

namespace Simulates

variable {watched run : Lox.Run α} {spec : Run β}

theorem imp {inside' : Option ScopeId} {post' : World → α → β → Prop}
    (h : Simulates k t env inside w watched run spec post)
    (hext : ∀ w', w.Extends inside w' → w.Extends inside' w')
    (hpost : ∀ w' a b, w.Extends inside w' → post w' a b → post' w' a b) :
    Simulates k t env inside' w watched run spec post' :=
  fun m st ha he => (h m st ha he).imp hext hpost

theorem conseq {post' : World → α → β → Prop}
    (h : Simulates k t env inside w watched run spec post)
    (hpost : ∀ w' a b, w.Extends inside w' → post w' a b → post' w' a b) :
    Simulates k t env inside w watched run spec post' :=
  h.imp (fun _ => id) hpost

theorem weaken (h : Simulates k t env none w watched run spec post) :
    Simulates k t env inside w watched run spec post :=
  h.imp (fun _ => World.Extends.weaken) fun _ _ _ _ => id

/-- What is declared in a scope that was not there before is none of the business of others. -/
theorem frame {i : ScopeId} (h : Simulates k t env (some i) w watched run spec post)
    (hi : w.scopes ≤ i) : Simulates k t env none w watched run spec post :=
  h.imp (fun _ hext => (World.Extends.refl none w).forget hext hi) fun _ _ _ _ => id

/-! ### Rules for all runs -/

/-- A step that always succeeds. -/
theorem of_ok (h : ∀ m st, Agrees t w m st → m.environment = env → ∃ a m' b st' w',
    run m = .ok a m' ∧ spec st = .ok b st' ∧ w.Extends inside w' ∧ Agrees t w' m' st'
      ∧ m'.environment = env ∧ post w' a b) :
    Simulates k t env inside w run run spec post := by
  intro m st ha he
  obtain ⟨a, m', b, st', w', hrun, hspec, hext, ha', he', hpost⟩ := h m st ha he
  rw [hrun, hspec]
  exact .ok (.inl rfl) hext ha' he' hpost

protected theorem pure {a : α} {b : β} (h : post w a b) :
    Simulates k t env inside w (pure a) (pure a) (pure b) post :=
  of_ok fun m st ha he => ⟨a, m, b, st, w, rfl, rfl, .refl inside w, ha, he, h⟩

theorem outOfFuel :
    Simulates k t env inside w (throw .outOfFuel) (throw .outOfFuel) (throw .outOfFuel) post :=
  fun _ _ ha he => .error (.inl rfl) ha he trivial

/-- A fault that has nothing to do with scopes. -/
theorem fail {line : Nat} {cause : RuntimeFault} (h : ¬ IsScoping cause) :
    Simulates k t env inside w (Run.fail line cause) (Run.fail line cause)
      (Lexical.fail line cause) post := by
  refine fun _ _ ha he => .error (.inl rfl) ha he ?_
  cases cause <;> first | trivial | exact absurd trivial h

theorem ofExcept {line : Nat} {x : Except RuntimeFault α} {y : Except RuntimeFault β}
    (h : ResultRel (post w) x y) :
    Simulates k t env inside w (Run.ofExcept line x) (Run.ofExcept line x)
      (Lexical.ofExcept line y) post := by
  cases x with
  | ok a =>
    cases y with
    | ok b => exact Simulates.pure h
    | error cause => exact h.elim
  | error cause =>
    cases y with
    | ok b => exact h.elim
    | error cause' =>
      obtain ⟨rfl, h⟩ := h
      exact Simulates.fail h

/-- One run after the other. -/
protected theorem bind {watched' run' : α → Lox.Run γ} {spec' : β → Run δ}
    {post : World → γ → δ → Prop} (h : Simulates k t env inside w watched run spec mid)
    (hnext : ∀ w' a b, w.Extends inside w' → mid w' a b →
      Simulates k t env inside w' (watched' a) (run' a) (spec' b) post) :
    Simulates k t env inside w (watched >>= watched') (run >>= run') (spec >>= spec') post := by
  intro m st ha he
  have h := h m st ha he
  have hstopped : k.Stopped (watched m) → k.Stopped ((watched >>= watched') m) :=
    fun ⟨⟨n, hn⟩, hs⟩ => ⟨⟨n, bind_error hn⟩, hs⟩
  generalize hr : run m = r, hs : spec st = s at h
  cases h with
  | ok follows extend agrees environment holds =>
    rw [bind_ok hr, bind_ok hs]
    have h' := (hnext _ _ _ extend holds _ _ agrees environment).imp (fun _ => extend.trans)
      fun _ _ _ _ => id
    rcases follows with hw | hw
    · rwa [bind_ok hw]
    · exact h'.stopped (hstopped hw)
  | error follows agrees environment blames =>
    rw [bind_error hr, bind_error hs]
    exact .error (follows.imp bind_error hstopped) agrees environment (blames.imp hstopped)

theorem map {f : α → γ} {g : β → δ} {post : World → γ → δ → Prop}
    (h : Simulates k t env inside w watched run spec fun w' a b => post w' (f a) (g b)) :
    Simulates k t env inside w (f <$> watched) (f <$> run) (g <$> spec) post := by
  rw [map_eq_pure_bind, map_eq_pure_bind, map_eq_pure_bind]
  exact h.bind fun _ _ _ _ hpost => .pure hpost

protected theorem discard (h : Simulates k t env inside w watched run spec post) :
    Simulates k t env inside w (discard watched) (discard run) (discard spec) fun _ _ _ => True :=
  (h.conseq fun _ _ _ _ _ => trivial).map

/-- The same runs on all members of a list. -/
theorem mapM {σ : Type} {f f' : σ → Lox.Run α} {g : σ → Run β} {r : World → α → β → Prop}
    (hr : ∀ {w w' : World} {a b}, w.Le w' → r w a b → r w' a b) (xs : List σ)
    (h : ∀ x ∈ xs, ∀ w', w.Extends inside w' → Simulates k t env inside w' (f x) (f' x) (g x) r) :
    Simulates k t env inside w (xs.mapM f) (xs.mapM f') (xs.mapM g)
      fun w' as bs => List.Forall₂ (r w') as bs := by
  induction xs generalizing w with
  | nil => exact .pure .nil
  | cons x xs ih =>
    rw [List.mapM_cons, List.mapM_cons, List.mapM_cons]
    refine (h x List.mem_cons_self w (.refl inside w)).bind fun w₁ a b hext ha => ?_
    refine (ih fun y hy w' hext' =>
      h y (List.mem_cons_of_mem _ hy) w' (hext.trans hext')).bind fun w₂ as bs hext' has => ?_
    exact .pure (.cons (hr hext'.toLe ha) has)

/-! ### Rules for steps of the machine -/

/-- The machine looks at its environment. -/
theorem environment_bind {watched run : Environment → Lox.Run α}
    (h : Simulates k t env inside w (watched env) (run env) spec post) :
    Simulates k t env inside w (Run.environment >>= watched) (Run.environment >>= run) spec
      post := by
  intro m st ha he
  simpa only [Bind.bind, EStateM.bind, Run.environment, he] using h m st ha he

/-- The lexical meaning makes a step of its own. -/
theorem spec_bind {spec : Run δ} {spec' : δ → Run β} {mid : World → δ → Prop}
    (h : ∀ m st, Agrees t w m st → ∃ d st' w', spec st = .ok d st' ∧ w.Extends inside w'
      ∧ Agrees t w' m st' ∧ mid w' d)
    (hnext : ∀ w' d, w.Extends inside w' → mid w' d →
      Simulates k t env inside w' watched run (spec' d) post) :
    Simulates k t env inside w watched run (spec >>= spec') post := by
  intro m st ha he
  obtain ⟨d, st', w', hspec, hext, ha', hmid⟩ := h m st ha
  simp only [Bind.bind, EStateM.bind, hspec]
  exact (hnext w' d hext hmid m st' ha' he).imp (fun _ => hext.trans) fun _ _ _ _ => id

/-- The lexical meaning ends with something that it computes from the result. -/
theorem spec_map {f : β → δ} {post : World → α → δ → Prop}
    (h : Simulates k t env inside w watched run spec fun w' a b => post w' a (f b)) :
    Simulates k t env inside w watched run (spec >>= fun b => pure (f b)) post := by
  have := h.bind
    fun _ _ _ _ hpost => .pure hpost
  simpa only [bind_pure] using this

/-- A run inside another environment. -/
theorem within {env' : Environment} (h : Simulates k t env' inside w watched run spec post) :
    Simulates k t env inside w (Run.within env' watched) (Run.within env' run) spec post := by
  intro m st ha he
  have h := h { m with environment := env' } st (ha.environment_step env') rfl
  have hstopped : k.Stopped (watched { m with environment := env' }) →
      k.Stopped (Run.within env' watched m) :=
    fun ⟨⟨n, hn⟩, hs⟩ => ⟨⟨_, within_error hn⟩, hs⟩
  generalize hr : run { m with environment := env' } = r, spec st = s at h
  cases h with
  | ok follows extend agrees environment holds =>
    rw [within_ok hr]
    exact .ok (follows.imp within_ok hstopped) extend (agrees.environment_step _) he holds
  | error follows agrees environment blames =>
    rw [within_error hr]
    exact .error (follows.imp within_error hstopped) (agrees.environment_step _) he
      (blames.imp hstopped)

theorem newIdentity :
    Simulates k t env inside w Run.newIdentity Run.newIdentity Lexical.newIdentity
      fun _ a b => b = a :=
  of_ok fun _ _ ha he => ⟨_, _, _, _, w, rfl, rfl, .refl inside w, ha.identity_step, he,
    ha.nextIdentity⟩

theorem newObject :
    Simulates k t env inside w Run.newObject Run.newObject Lexical.newObject fun _ a b => b = a :=
  of_ok fun _ _ ha he => ⟨_, _, _, _, w, rfl, rfl, .refl inside w, ha.object_step, he, ha.objects⟩

theorem field? (object : Nat) (name : String) :
    Simulates k t env inside w (Run.field? object name) (Run.field? object name)
      (Lexical.field? object name) fun w' a b => Option.Rel (ValueRel t w') a b :=
  of_ok fun m st ha he => ⟨_, m, _, st, w, rfl, rfl, .refl inside w, ha, he,
    (ha.fields object).get? name⟩

theorem setField (object : Nat) (name : String) {v : Value} {v' : Value Names}
    (hv : ValueRel t w v v') :
    Simulates k t env inside w (Run.setField object name v) (Run.setField object name v)
      (Lexical.setField object name v') fun _ _ _ => True :=
  of_ok fun _ _ ha he => ⟨_, _, _, _, w, rfl, rfl, .refl inside w, ha.field_step object name hv, he,
    trivial⟩

/-- A use of the host whose faults have nothing to do with scopes. -/
theorem ofHost {use : EStateM Stop Host α} {use' : EStateM Stop Host β}
    (h : UsesAlike (post w) use use') :
    Simulates k t env inside w (Run.ofHost use) (Run.ofHost use) (Lexical.ofHost use') post := by
  intro m st ha he
  have h := h m.toHost
  simp only [Run.ofHost, Lexical.ofHost, ha.host]
  split at h
  · rename_i a host' b host'' hu hu'
    obtain ⟨rfl, hpost⟩ := h
    rw [hu, hu']
    exact .ok (.inl rfl) (.refl inside w) (ha.host_step host'') he hpost
  · rename_i line cause host' stop host'' hu hu'
    obtain ⟨rfl, rfl, hcause⟩ := h
    rw [hu, hu']
    refine .error (.inl rfl) (ha.host_step host'') he ?_
    cases cause <;> first | trivial | exact absurd trivial hcause
  · exact h.elim

end Simulates

end

end Lexical

end Lox
