import Lox.Proofs.Dispatch.Agreement
import Lox.Proofs.Lexical.Simulation

/-!
Runs of the lexical meaning followed by runs of the one in which `this` and `super` are no names.
`Simulates` says of two runs that from states that agree they end in the same way, in states that
agree again, in a world that extends the one before. The rules below follow the shape of the runs.
-/

namespace Lox

namespace Dispatch

open Lexical (Location Names)

/-- How the two runs end together. -/
inductive Outcome {α β : Type} (w : World) (post : World → α → β → Prop) :
    EStateM.Result Stop Lexical.State α → EStateM.Result Stop State β → Prop where
  | ok {w' : World} {a : α} {b : β} {st : Lexical.State} {st' : State} (extend : w <+: w')
      (agrees : Agrees w' st st') (holds : post w' a b) : Outcome w post (.ok a st) (.ok b st')
  | error {w' : World} {stop : Stop} {st : Lexical.State} {st' : State} (agrees : Agrees w' st st') :
      Outcome w post (.error stop st) (.error stop st')

/-- From states that agree the runs end together, with results that `post` relates. -/
def Simulates {α β : Type} (w : World) (run : Lexical.Run α) (spec : Run β)
    (post : World → α → β → Prop) : Prop :=
  ∀ st st', Agrees w st st' → Outcome w post (run st) (spec st')

namespace Simulates

section

variable {α β γ δ : Type} {w : World} {run : Lexical.Run α} {spec : Run β}
  {post mid : World → α → β → Prop}

theorem conseq {post' : World → α → β → Prop} (h : Simulates w run spec post)
    (hpost : ∀ w' a b, w <+: w' → post w' a b → post' w' a b) : Simulates w run spec post' := by
  intro st st' ha
  have h := h st st' ha
  generalize run st = r, spec st' = s at h
  cases h with
  | ok extend agrees holds => exact .ok extend agrees (hpost _ _ _ extend holds)
  | error agrees => exact .error agrees

/-! ### Rules for all runs -/

/-- A step that always succeeds. -/
theorem of_ok (h : ∀ st st', Agrees w st st' → ∃ a st₁ b st₁' w', run st = .ok a st₁
    ∧ spec st' = .ok b st₁' ∧ w <+: w' ∧ Agrees w' st₁ st₁' ∧ post w' a b) :
    Simulates w run spec post := by
  intro st st' ha
  obtain ⟨a, st₁, b, st₁', w', hrun, hspec, hext, hagrees, hpost⟩ := h st st' ha
  rw [hrun, hspec]
  exact .ok hext hagrees hpost

protected theorem pure {a : α} {b : β} (h : post w a b) : Simulates w (pure a) (pure b) post :=
  of_ok fun st st' ha => ⟨a, st, b, st', w, rfl, rfl, List.prefix_rfl, ha, h⟩

theorem outOfFuel : Simulates w (throw .outOfFuel) (throw .outOfFuel) post :=
  fun _ _ ha => .error ha

theorem fail (line : Nat) (cause : RuntimeFault) :
    Simulates w (Lexical.fail line cause) (Dispatch.fail line cause) post :=
  fun _ _ ha => .error ha

theorem ofExcept (line : Nat) {x : Except RuntimeFault α} {y : Except RuntimeFault β}
    (h : ResultRel (post w) x y) :
    Simulates w (Lexical.ofExcept line x) (Dispatch.ofExcept line y) post := by
  cases x with
  | ok a =>
    cases y with
    | ok b => exact Simulates.pure h
    | error cause => exact h.elim
  | error cause =>
    cases y with
    | ok b => exact h.elim
    | error cause' =>
      obtain ⟨rfl, -⟩ := h
      exact .fail line cause'

/-- One run after the other. -/
protected theorem bind {run' : α → Lexical.Run γ} {spec' : β → Run δ} {post : World → γ → δ → Prop}
    (h : Simulates w run spec mid)
    (hnext : ∀ w' a b, w <+: w' → mid w' a b → Simulates w' (run' a) (spec' b) post) :
    Simulates w (run >>= run') (spec >>= spec') post := by
  intro st st' ha
  have h := h st st' ha
  generalize hr : run st = r, hs : spec st' = s at h
  cases h with
  | ok extend agrees holds =>
    rw [bind_ok hr, bind_ok hs]
    have h' := hnext _ _ _ extend holds _ _ agrees
    generalize run' _ _ = r', spec' _ _ = s' at h'
    cases h' with
    | ok extend' agrees' holds' => exact .ok (extend.trans extend') agrees' holds'
    | error agrees' => exact .error agrees'
  | error agrees =>
    rw [bind_error hr, bind_error hs]
    exact .error agrees

theorem map {f : α → γ} {g : β → δ} {post : World → γ → δ → Prop}
    (h : Simulates w run spec fun w' a b => post w' (f a) (g b)) :
    Simulates w (f <$> run) (g <$> spec) post := by
  rw [map_eq_pure_bind, map_eq_pure_bind]
  exact h.bind fun _ _ _ _ hpost => .pure hpost

protected theorem discard (h : Simulates w run spec post) :
    Simulates w (discard run) (discard spec) fun _ _ _ => True :=
  (h.conseq fun _ _ _ _ _ => trivial).map

/-- The same runs on all members of a list. -/
theorem mapM {σ : Type} {f : σ → Lexical.Run α} {g : σ → Run β} {r : World → α → β → Prop}
    (hr : ∀ {w w' : World} {a b}, w <+: w' → r w a b → r w' a b) (xs : List σ)
    (h : ∀ x ∈ xs, ∀ w', w <+: w' → Simulates w' (f x) (g x) r) :
    Simulates w (xs.mapM f) (xs.mapM g) fun w' as bs => List.Forall₂ (r w') as bs := by
  induction xs generalizing w with
  | nil => exact .pure .nil
  | cons x xs ih =>
    rw [List.mapM_cons, List.mapM_cons]
    refine (h x List.mem_cons_self w List.prefix_rfl).bind fun w₁ a b hext ha => ?_
    refine (ih fun y hy w' hext' =>
      h y (List.mem_cons_of_mem _ hy) w' (hext.trans hext')).bind fun w₂ as bs hext' has => ?_
    exact .pure (.cons (hr hext' ha) has)

/-! ### Steps that leave the memory as it is -/

theorem newIdentity :
    Simulates w Lexical.newIdentity Dispatch.newIdentity fun _ a b => b = a :=
  of_ok fun _ _ ha =>
    ⟨_, _, _, _, w, rfl, rfl, List.prefix_rfl, ha.identity_step, ha.nextIdentity⟩

theorem newObject : Simulates w Lexical.newObject Dispatch.newObject fun _ a b => b = a :=
  of_ok fun _ _ ha => ⟨_, _, _, _, w, rfl, rfl, List.prefix_rfl, ha.object_step, ha.objects⟩

theorem field? (object : Nat) (name : String) :
    Simulates w (Lexical.field? object name) (Dispatch.field? object name)
      fun w' a b => Option.Rel (ValueRel w') a b :=
  of_ok fun st st' ha =>
    ⟨_, st, _, st', w, rfl, rfl, List.prefix_rfl, ha, (ha.fields object).get? name⟩

theorem setField (object : Nat) (name : String) {v : Value Names} {v' : Value Place}
    (hv : ValueRel w v v') :
    Simulates w (Lexical.setField object name v) (Dispatch.setField object name v')
      fun _ _ _ => True :=
  of_ok fun _ _ ha =>
    ⟨_, _, _, _, w, rfl, rfl, List.prefix_rfl, ha.field_step object name hv, trivial⟩

/-- A use of the host. -/
theorem ofHost {use : EStateM Stop Host α} {use' : EStateM Stop Host β}
    (h : UsesAlike (post w) use use') :
    Simulates w (Lexical.ofHost use) (Dispatch.ofHost use') post := by
  intro st st' ha
  have h := h st.toHost
  simp only [Lexical.ofHost, Dispatch.ofHost, ha.host]
  split at h
  · rename_i a host' b host'' hu hu'
    obtain ⟨rfl, hpost⟩ := h
    rw [hu, hu']
    exact .ok List.prefix_rfl (ha.host_step host'') hpost
  · rename_i line cause host' stop host'' hu hu'
    obtain ⟨rfl, rfl, -⟩ := h
    rw [hu, hu']
    exact .error (ha.host_step host'')
  · exact h.elim

end

/-! ### Variables -/

section

variable {w : World} {scopes : List (Bindings Bool)} {names : Names} {place : Place} {name : Token}
  {v : Value Names} {v' : Value Place}

/-- A variable is read. -/
theorem read (h : SameVariables w names place) (hn : name.IsName) (line : Nat) :
    Simulates w (Lexical.read names name.lexeme line) (Dispatch.read place name.lexeme line)
      ValueRel := by
  intro st st' ha
  unfold Lexical.read Dispatch.read
  rcases eq_none_or_eq_some_of_rel (h name.lexeme hn.1 hn.2) with ⟨hx, hy⟩ | ⟨l, l', hx, hy, hl⟩
  · simp only [hx, hy]
    rcases eq_none_or_eq_some_of_rel (ha.globals.get? name.lexeme) with
      ⟨hg, hg'⟩ | ⟨u, u', hg, hg', hu⟩
    · rw [hg, hg']
      exact .error ha
    · rw [hg, hg']
      exact .ok List.prefix_rfl ha hu
  · obtain ⟨u, u', hu, hu', hrel⟩ := ha.cells hl
    simp only [hx, hy, hu, hu', Option.getD_some]
    exact .ok List.prefix_rfl ha hrel

/-- A variable gets a new value. -/
theorem write (h : SameVariables w names place) (hn : name.IsName) (hv : ValueRel w v v') :
    Simulates w (Lexical.write names name v) (Dispatch.write place name v') fun _ _ _ => True := by
  intro st st' ha
  unfold Lexical.write Dispatch.write
  rcases eq_none_or_eq_some_of_rel (h name.lexeme hn.1 hn.2) with ⟨hx, hy⟩ | ⟨l, l', hx, hy, hl⟩
  · simp only [hx, hy, ← ha.globals.binds name.lexeme]
    split
    · exact .ok List.prefix_rfl (ha.global_step name.lexeme hv) trivial
    · exact .error ha
  · simp only [hx, hy]
    exact .ok List.prefix_rfl (ha.variable_step hl hv) trivial

/-- A variable gets its first value. -/
theorem settle (h : SameVariables w names place) (hn : name.IsName) (hv : ValueRel w v v') :
    Simulates w (Lexical.settle names name.lexeme v) (Dispatch.settle place name.lexeme v')
      fun _ _ _ => True := by
  intro st st' ha
  unfold Lexical.settle Dispatch.settle
  rcases eq_none_or_eq_some_of_rel (h name.lexeme hn.1 hn.2) with ⟨hx, hy⟩ | ⟨l, l', hx, hy, hl⟩
  · simp only [hx, hy]
    exact .ok List.prefix_rfl (ha.global_step name.lexeme hv) trivial
  · simp only [hx, hy]
    exact .ok List.prefix_rfl (ha.variable_step hl hv) trivial

/-- A variable is declared. -/
theorem declare (h : Stands w scopes names place) (hn : name.IsName) :
    Simulates w (Lexical.declare names name.lexeme) (Dispatch.declare place name.lexeme)
      fun w' names' place' => Stands w' scopes names' place' := by
  refine of_ok fun st st' ha => ?_
  cases hnames : names with
  | none =>
    have hp : place.names = none := h.outermost.1 hnames
    refine ⟨none, st, place, st', w, rfl, ?_, List.prefix_rfl, ha, hnames ▸ h⟩
    simp only [Dispatch.declare, hp]
  | some locations =>
    obtain ⟨locations', hp⟩ : ∃ locations', place.names = some locations' := by
      refine Option.ne_none_iff_exists'.1 fun hp => ?_
      rw [h.outermost.2 hp] at hnames
      cases hnames
    have hdeclared := h.declared hn st'.memory.size
    rw [hnames, hp, ← ha.memory] at hdeclared
    refine ⟨_, _, _, _, _, rfl, ?_, List.prefix_append _ _, ha.declare_step, hdeclared⟩
    simp only [Dispatch.declare, hp]
    rfl

/-- Variables are declared with their values, one after the other. -/
theorem declareEach {params : List Token} {args : List (Value Names)} {args' : List (Value Place)}
    (h : Stands w scopes names place) (hn : ∀ p ∈ params, p.IsName)
    (hargs : List.Forall₂ (ValueRel w) args args') :
    Simulates w (Lexical.declareEach names ((params.map Token.lexeme).zip args))
      (Dispatch.declareEach place ((params.map Token.lexeme).zip args'))
      fun w' names' place' => Stands w' scopes names' place' := by
  induction params generalizing w names place args args' with
  | nil => exact .pure h
  | cons p params ih =>
    cases hargs with
    | nil => exact .pure h
    | cons hv hargs =>
      have hp : p.IsName := hn p List.mem_cons_self
      refine (declare h hp).bind fun w₁ names₁ place₁ hext₁ h₁ => ?_
      refine (settle h₁.locals hp (hv.later hext₁)).bind fun w₂ _ _ hext₂ _ => ?_
      refine ih (h₁.mono hext₂) (fun q hq => hn q (List.mem_cons_of_mem _ hq)) ?_
      exact hargs.imp fun _ _ hr => hr.later (hext₁.trans hext₂)

/-! ### What `this` and `super` stand for -/

variable {α β : Type} {run : Value Names → Lexical.Run α} {spec : Run β}
  {post : World → α → β → Prop}

/-- The lexical meaning reads a name that goes on standing for one value. -/
theorem constant_bind {n : String} {l : Location} (hl : names.find? n = some l)
    (hw : w[l]? = some (.constant v')) (line : Nat)
    (h : ∀ v, ValueRel w v v' → Simulates w (run v) spec post) :
    Simulates w (Lexical.read names n line >>= run) spec post := by
  intro st st' ha
  obtain ⟨v, hv, hrel⟩ := ha.constant hw
  have hread : Lexical.read names n line st = .ok v st := by
    simp only [Lexical.read, hl, hv, Option.getD_some]
  rw [bind_ok hread]
  exact h v hrel st st' ha

/-- The object that the method around a place is bound to. -/
theorem receiver (h : SameReceiver w names place) (line : Nat) :
    Simulates w (Lexical.read names "this" line) (Dispatch.receiver place line) ValueRel := by
  obtain ⟨l, object, description, hl, hplace, hw⟩ := h
  unfold Dispatch.receiver
  rw [← bind_pure (Lexical.read names "this" line), hplace]
  exact constant_bind hl hw line fun v hv => .pure hv

/-- The lexical meaning declares a name that goes on standing for one value. -/
theorem declared_bind {n : String} {run : Names → Lexical.Run α} (hv : ValueRel w v v')
    (h : Simulates (w ++ [.constant v']) (run (names.declared n w.length)) spec post) :
    Simulates w (Lexical.declareEach names.enter [(n, v)] >>= run) spec post := by
  intro st st' ha
  have hdeclare : Lexical.declareEach names.enter [(n, v)] st
      = .ok (names.declared n w.length) { st with memory := st.memory.push v } := by
    rw [← ha.memory]
    simp [Lexical.declareEach, Lexical.declare, Lexical.settle, Names.enter, Names.find?,
      Names.declared, Bind.bind, EStateM.bind, Pure.pure, EStateM.pure, Bindings.get?_cons,
      Array.setIfInBounds, Array.set_push]
  rw [bind_ok hdeclare]
  have h := h _ _ (ha.constant_step hv)
  generalize run _ _ = r, spec _ = s at h
  cases h with
  | ok extend agrees holds => exact .ok ((List.prefix_append _ _).trans extend) agrees holds
  | error agrees => exact .error agrees

end

end Simulates

end Dispatch

end Lox
