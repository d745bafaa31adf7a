import Lox.Proofs.Execution.Values

/-!
Runs of a program and of the same one with other code. `Follows` is said of two runs: from machines that
are the same but for their code, the second one ends as the first one does, in machines that are again the
same, and at a fault of the line that stands for that of the first one. If the second one was given more
fuel, it need not do so where the first one has used up its own.
-/

namespace Lox

/-- Where the run stops with other lines. -/
def Stop.relabel (g : Relabel) : Stop → Stop
  | .fault line cause => .fault (g.line line) cause
  | .outOfFuel => .outOfFuel

/-- The run has used up its fuel. -/
def OutOfFuel {σ α : Type} (r : EStateM.Result Stop σ α) : Prop :=
  ∃ s, r = .error .outOfFuel s

section

variable (g : Recoding) (exact : Prop)

/-- The second result is the first one with other code. -/
inductive SameResult {α β : Type} (f : α → β) :
    EStateM.Result Stop Machine α → EStateM.Result Stop Machine β → Prop where
  | ok {m m' : Machine} (a : α) (h : m.Recoded g m') : SameResult f (.ok a m) (.ok (f a) m')
  | error {m m' : Machine} (stop : Stop) (h : m.Recoded g m') :
      SameResult f (.error stop m) (.error (stop.relabel g.toRelabel) m')

/-- From machines that are the same but for their code the second run does what the first one does;
unless `exact`, only if that does not run out of fuel. -/
def Follows {α β : Type} (f : α → β) (run : Run α) (run' : Run β) : Prop :=
  ∀ m m', m.Recoded g m' → exact ∨ ¬ OutOfFuel (run m) → SameResult g f (run m) (run' m')

end

namespace Follows

variable {g : Recoding} {exact : Prop} {α β γ δ : Type} {f : α → β} {h : γ → δ} {run : Run α}
  {run' : Run β}

/-! ### Rules for all runs -/

/-- A step that always succeeds. -/
theorem of_ok (hstep : ∀ m m', m.Recoded g m' → ∃ a n n', run m = .ok a n
    ∧ run' m' = .ok (f a) n' ∧ n.Recoded g n') : Follows g exact f run run' := by
  intro m m' hm _
  obtain ⟨a, n, n', hr, hr', hn⟩ := hstep m m' hm
  rw [hr, hr']
  exact .ok a hn

protected theorem pure {a : α} {b : β} (hb : b = f a) : Follows g exact f (pure a) (pure b) :=
  of_ok fun m m' hm => ⟨a, m, m', rfl, by rw [hb]; rfl, hm⟩

protected theorem fail (line : Nat) (cause : RuntimeFault) :
    Follows g exact f (Run.fail line cause) (Run.fail (g.line line) cause) :=
  fun _ _ hm _ => .error (.fault line cause) hm

theorem outOfFuel (hr : exact → run' = throw .outOfFuel) :
    Follows g exact f (throw .outOfFuel) run' := by
  intro m m' hm he
  rcases he with he | he
  · rw [hr he]
    exact .error .outOfFuel hm
  · exact absurd ⟨m, rfl⟩ he

theorem ofExcept (line : Nat) (x : Except RuntimeFault α) :
    Follows g exact f (Run.ofExcept line x) (Run.ofExcept (g.line line) (x.map f)) := by
  cases x with
  | ok a => exact .pure rfl
  | error cause => exact .fail line cause

/-- One run after the other, which need only follow where the first one can get to. -/
theorem bind_of_ok {next : α → Run γ} {next' : β → Run δ} (hr : Follows g exact f run run')
    (hnext : ∀ a m n, run m = .ok a n → Follows g exact h (next a) (next' (f a))) :
    Follows g exact h (run >>= next) (run' >>= next') := by
  intro m m' hm he
  have hfuel : exact ∨ ¬ OutOfFuel (run m) := by
    refine he.imp_right fun he ⟨s, hs⟩ => he ⟨s, ?_⟩
    simp only [Bind.bind, EStateM.bind, hs]
  have hr := hr m m' hm hfuel
  simp only [Bind.bind, EStateM.bind] at he ⊢
  generalize hrun : run m = r, run' m' = r' at hr he
  cases hr with
  | ok a hn => exact hnext a _ _ hrun _ _ hn he
  | error stop hn => exact .error stop hn

/-- One run after the other. -/
protected theorem bind {next : α → Run γ} {next' : β → Run δ} (hr : Follows g exact f run run')
    (hnext : ∀ a, Follows g exact h (next a) (next' (f a))) :
    Follows g exact h (run >>= next) (run' >>= next') :=
  hr.bind_of_ok fun a _ _ _ => hnext a

theorem map {k : α → γ} {k' : β → δ} (hr : Follows g exact f run run')
    (hk : ∀ a, k' (f a) = h (k a)) : Follows g exact h (k <$> run) (k' <$> run') := by
  rw [map_eq_pure_bind, map_eq_pure_bind]
  exact hr.bind fun a => .pure (hk a)

protected theorem discard (hr : Follows g exact f run run') :
    Follows g exact (fun u : Unit => u) (discard run) (discard run') :=
  hr.map fun _ => rfl

/-- A run inside another environment. -/
theorem within (environment : Environment) (hr : Follows g exact f run run') :
    Follows g exact f (Run.within environment run) (Run.within environment run') := by
  intro m m' hm he
  have hm' : Machine.Recoded g { m with environment } { m' with environment } :=
    { hm with environment := rfl }
  have hfuel : exact ∨ ¬ OutOfFuel (run { m with environment }) := by
    refine he.imp_right fun he ⟨s, hs⟩ => he ⟨{ s with environment := m.environment }, ?_⟩
    simp only [Run.within, hs]
  have hr := hr _ _ hm' hfuel
  simp only [Run.within]
  generalize run { m with environment } = r, run' { m' with environment } = r' at hr
  cases hr with
  | ok a hn => exact .ok a { hn with environment := hm.environment }
  | error stop hn => exact .error stop { hn with environment := hm.environment }

/-- The same runs on all members of a list. -/
theorem mapM {σ τ : Type} {k : σ → Run α} {k' : τ → Run β} (rename : σ → τ) (xs : List σ)
    (hk : ∀ x ∈ xs, Follows g exact f (k x) (k' (rename x))) :
    Follows g exact (List.map f) (xs.mapM k) ((xs.map rename).mapM k') := by
  induction xs with
  | nil => exact .pure rfl
  | cons x xs ih =>
    rw [List.map_cons, List.mapM_cons, List.mapM_cons]
    refine (hk x List.mem_cons_self).bind fun a => ?_
    refine (ih fun y hy => hk y (List.mem_cons_of_mem _ hy)).bind fun as => ?_
    exact .pure rfl

theorem forM {σ τ : Type} {k : σ → Run Unit} {k' : τ → Run Unit} (rename : σ → τ) (xs : List σ)
    (hk : ∀ x ∈ xs, Follows g exact (fun u => u) (k x) (k' (rename x))) :
    Follows g exact (fun u : Unit => u) (xs.forM k) ((xs.map rename).forM k') := by
  induction xs with
  | nil => exact .pure rfl
  | cons x xs ih =>
    exact (hk x List.mem_cons_self).bind fun _ => ih fun y hy => hk y (List.mem_cons_of_mem _ hy)

/-! ### Steps of the machine -/

theorem environment :
    Follows g exact (fun e : Environment => e) Run.environment Run.environment :=
  of_ok fun m m' hm => ⟨_, m, m', rfl, by rw [Run.environment, hm.environment], hm⟩

theorem extend (outer : Environment) (b : Bindings Value) :
    Follows g exact (fun e : Environment => e) (Run.extend outer b)
      (Run.extend outer (b.mapValues (Value.recode g))) := by
  refine of_ok fun m m' hm =>
    ⟨_, _, { m' with store := m'.store.push (b.mapValues (Value.recode g)) }, rfl, ?_,
      { hm with store := ?_ }⟩
  · rw [Run.extend, hm.store]
    simp [Store.recode]
  · rw [hm.store, Store.recode_push]

theorem define (name : String) (v : Value) :
    Follows g exact (fun u : Unit => u) (Run.define name v) (Run.define name (v.recode g)) := by
  refine of_ok fun m m' hm => ⟨(), _, _, rfl, rfl, { hm with store := ?_ }⟩
  rw [hm.store, hm.environment, Store.recode_define]

theorem distance? (id : Nat) :
    Follows g exact (fun d : Option Nat => d) (Run.distance? id) (Run.distance? (g.number id)) :=
  of_ok fun m m' hm => ⟨_, m, m', rfl, by rw [Run.distance?, hm.distances], hm⟩

theorem lookUp (id : Nat) (name : Token) :
    Follows g exact (Value.recode g) (Run.lookUp id name)
      (Run.lookUp (g.number id) (name.relabel g.toRelabel)) := by
  intro m m' hm he
  have hl : m'.lookUp (g.number id) name.lexeme = (m.lookUp id name.lexeme).map (Value.recode g) := by
    unfold Machine.lookUp
    rw [hm.distances, hm.store, hm.environment]
    split
    · exact m.store.getAt_recode g _ _ _
    · exact m.store.get_recode g _ _
  simp only [Run.lookUp, Token.relabel_lexeme, Token.relabel_line, hl] at he ⊢
  exact ofExcept name.line _ m m' hm he

theorem assign (id : Nat) (name : Token) (v : Value) :
    Follows g exact (fun u : Unit => u) (Run.assign id name v)
      (Run.assign (g.number id) (name.relabel g.toRelabel) (v.recode g)) := by
  intro m m' hm _
  have ha : m'.assignee (g.number id) name.lexeme = m.assignee id name.lexeme := by
    unfold Machine.assignee
    rw [hm.distances, hm.store, hm.environment, Store.owner_recode]
  simp only [Run.assign, Token.relabel_lexeme, Token.relabel_line, ha]
  split
  · refine .ok () { hm with store := ?_ }
    rw [hm.store, Store.recode_setIn]
  · exact .error (.fault _ _) hm

theorem getAt (environment : Environment) (distance : Nat) (name : String) (line : Nat) :
    Follows g exact (Value.recode g) (Run.getAt environment distance name line)
      (Run.getAt environment distance name (g.line line)) := by
  intro m m' hm he
  simp only [Run.getAt, hm.store, Store.getAt_recode] at he ⊢
  exact ofExcept line _ m m' hm he

theorem newIdentity :
    Follows g exact (fun n : Nat => n) Run.newIdentity Run.newIdentity := by
  refine of_ok fun m m' hm => ⟨_, _, _, rfl, by rw [Run.newIdentity, hm.nextIdentity], ?_⟩
  exact { hm with nextIdentity := rfl }

theorem newObject : Follows g exact (fun n : Nat => n) Run.newObject Run.newObject := by
  refine of_ok fun m m' hm =>
    ⟨_, _, { m' with store := m'.store.pushObject }, rfl, ?_, { hm with store := ?_ }⟩
  · rw [Run.newObject, hm.store]
    simp [Store.recode]
  · rw [hm.store, Store.recode_pushObject]

theorem field? (object : Nat) (name : String) :
    Follows g exact (Option.map (Value.recode g)) (Run.field? object name)
      (Run.field? object name) := by
  refine of_ok fun m m' hm => ⟨_, m, m', rfl, ?_, hm⟩
  rw [Run.field?, hm.store, Store.fields_recode, Bindings.get?_mapValues]

theorem setField (object : Nat) (name : String) (v : Value) :
    Follows g exact (fun u : Unit => u) (Run.setField object name v)
      (Run.setField object name (v.recode g)) := by
  refine of_ok fun m m' hm => ⟨(), _, _, rfl, rfl, { hm with store := ?_ }⟩
  rw [hm.store, Store.recode_setField]

/-- A use of the host that does the same on another line. -/
theorem ofHost {use : EStateM Stop Host α} {use' : EStateM Stop Host β}
    (hu : ∀ host, use' host = match use host with
      | .ok a host => .ok (f a) host
      | .error stop host => .error (stop.relabel g.toRelabel) host) :
    Follows g exact f (Run.ofHost use) (Run.ofHost use') := by
  intro m m' hm _
  simp only [Run.ofHost, hm.host, hu]
  cases use m.toHost with
  | ok a host => exact .ok a { hm with host := rfl }
  | error stop host => exact .error stop { hm with host := rfl }

end Follows

end Lox
