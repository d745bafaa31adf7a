import Lox.Proofs.Lexical.Names
import Lox.Proofs.Renaming.World

/-!
Runs of a program followed by runs of the program with the new name. `Mirrors` says of two runs that
from machines that are the same but for names they end in the same way, in machines that are so again,
in a world that extends the one before. The first run may be watched: where it is stopped because a
local name is not bound, the fault of the second one would show the other name, and nothing is said
about it. The rules below follow the shape of the runs.
-/

namespace Lox

namespace Renaming

/-! ### Runs in step -/

section

variable (R : Renaming) (k : Watch)

/-- How a watched run and the run with the new name end together. -/
inductive Outcome (env : Environment) (w : World) {α β : Type} (post : World → α → β → Prop) :
    EStateM.Result Stop Machine α → EStateM.Result Stop Machine β → Prop where
  | ok {w' : World} {a : α} {b : β} {m m' : Machine} (extend : w <+: w')
      (same : R.SameMachine w' m m') (environment : m.environment = env) (holds : post w' a b) :
      Outcome env w post (.ok a m) (.ok b m')
  | error {w' : World} {stop : Stop} {m m' : Machine} (same : R.SameMachine w' m m') :
      Outcome env w post (.error stop m) (.error stop m')
  /-- The watch has ended the run. -/
  | stopped {m : Machine} {r : EStateM.Result Stop Machine β} : Outcome env w post (.error k.stop m) r

/-- From machines that are the same but for names the runs end together, with results that `post`
relates. -/
def Mirrors (env : Environment) (w : World) {α β : Type} (run : Run α) (run' : Run β)
    (post : World → α → β → Prop) : Prop :=
  ∀ m m', R.SameMachine w m m' → m.environment = env → R.Outcome k env w post (run m) (run' m')

end

namespace Mirrors

section

variable {R : Renaming} {k : Watch} {env : Environment} {w : World} {α β γ δ : Type} {run : Run α}
  {run' : Run β} {post mid : World → α → β → Prop}

theorem conseq {post' : World → α → β → Prop} (h : R.Mirrors k env w run run' post)
    (hpost : ∀ w' a b, w <+: w' → post w' a b → post' w' a b) :
    R.Mirrors k env w run run' post' := by
  intro m m' hm he
  have h := h m m' hm he
  generalize run m = r, run' m' = r' at h
  cases h with
  | ok extend same environment holds =>
    exact .ok extend same environment (hpost _ _ _ extend holds)
  | error same => exact .error same
  | stopped => exact .stopped

/-! ### Rules for all runs -/

/-- A step that always succeeds. -/
theorem of_ok (h : ∀ m m', R.SameMachine w m m' → m.environment = env → ∃ a n b n' w',
    run m = .ok a n ∧ run' m' = .ok b n' ∧ w <+: w' ∧ R.SameMachine w' n n' ∧ n.environment = env
      ∧ post w' a b) : R.Mirrors k env w run run' post := by
  intro m m' hm he
  obtain ⟨a, n, b, n', w', hrun, hrun', hext, hsame, henv, hpost⟩ := h m m' hm he
  rw [hrun, hrun']
  exact .ok hext hsame henv hpost

protected theorem pure {a : α} {b : β} (h : post w a b) :
    R.Mirrors k env w (pure a) (pure b) post :=
  of_ok fun m m' hm he => ⟨a, m, b, m', w, rfl, rfl, List.prefix_rfl, hm, he, h⟩

theorem outOfFuel : R.Mirrors k env w (throw .outOfFuel) (throw .outOfFuel) post :=
  fun _ _ hm _ => .error hm

theorem fail (line : Nat) (cause : RuntimeFault) :
    R.Mirrors k env w (Run.fail line cause) (Run.fail line cause) post :=
  fun _ _ hm _ => .error hm

theorem ofExcept (line : Nat) {x : Except RuntimeFault α} {y : Except RuntimeFault β}
    (h : ResultRel (post w) x y) :
    R.Mirrors k env w (Run.ofExcept line x) (Run.ofExcept line y) post := by
  cases x with
  | ok a =>
    cases y with
    | ok b => exact Mirrors.pure h
    | error cause => exact h.elim
  | error cause =>
    cases y with
    | ok b => exact h.elim
    | error cause' =>
      obtain ⟨rfl, -⟩ := h
      exact .fail line cause'

/-- One run after the other. -/
protected theorem bind {next : α → Run γ} {next' : β → Run δ} {post : World → γ → δ → Prop}
    (h : R.Mirrors k env w run run' mid)
    (hnext : ∀ w' a b, w <+: w' → mid w' a b → R.Mirrors k env w' (next a) (next' b) post) :
    R.Mirrors k env w (run >>= next) (run' >>= next') post := by
  intro m m' hm he
  have h := h m m' hm he
  generalize hr : run m = r, hr' : run' m' = r' at h
  cases h with
  | ok extend same environment holds =>
    rw [bind_ok hr, bind_ok hr']
    have h' := hnext _ _ _ extend holds _ _ same environment
    generalize next _ _ = s, next' _ _ = s' at h'
    cases h' with
    | ok extend' same' environment' holds' =>
      exact .ok (extend.trans extend') same' environment' holds'
    | error same' => exact .error same'
    | stopped => exact .stopped
  | error same =>
    rw [bind_error hr, bind_error hr']
    exact .error same
  | stopped =>
    rw [bind_error hr]
    exact .stopped

theorem map {f : α → γ} {g : β → δ} {post : World → γ → δ → Prop}
    (h : R.Mirrors k env w run run' fun w' a b => post w' (f a) (g b)) :
    R.Mirrors k env w (f <$> run) (g <$> run') post := by
  rw [map_eq_pure_bind, map_eq_pure_bind]
  exact h.bind fun _ _ _ _ hpost => .pure hpost

protected theorem discard (h : R.Mirrors k env w run run' post) :
    R.Mirrors k env w (discard run) (discard run') fun _ _ _ => True :=
  (h.conseq fun _ _ _ _ _ => trivial).map

/-- The same runs on all members of a list. -/
theorem mapM {σ τ : Type} {f : σ → Run α} {g : τ → Run β} {r : World → α → β → Prop} {change : σ → τ}
    (hr : ∀ {w w' : World} {a b}, w <+: w' → r w a b → r w' a b) (xs : List σ)
    (h : ∀ x ∈ xs, ∀ w', w <+: w' → R.Mirrors k env w' (f x) (g (change x)) r) :
    R.Mirrors k env w (xs.mapM f) ((xs.map change).mapM g)
      fun w' as bs => List.Forall₂ (r w') as bs := by
  induction xs generalizing w with
  | nil => exact .pure .nil
  | cons x xs ih =>
    rw [List.map_cons, List.mapM_cons, List.mapM_cons]
    refine (h x List.mem_cons_self w List.prefix_rfl).bind fun w₁ a b hext ha => ?_
    refine (ih fun y hy w' hext' =>
      h y (List.mem_cons_of_mem _ hy) w' (hext.trans hext')).bind fun w₂ as bs hext' has => ?_
    exact .pure (.cons (hr hext' ha) has)

/-- The watch looks at an expression; where it lets the run go on, its condition holds. -/
theorem check {e : Expr} {next : Run α}
    (h : ∀ m m', R.SameMachine w m m' → m.environment = env → k.holds m e = true →
      R.Outcome k env w post (next m) (run' m')) :
    R.Mirrors k env w (k.check e >>= fun _ => next) run' post := by
  intro m m' hm he
  by_cases hh : k.holds m e = true
  · have hcheck : k.check e m = .ok () m := if_pos hh
    rw [bind_ok hcheck]
    exact h m m' hm he hh
  · have hcheck : k.check e m = .error k.stop m := if_neg hh
    rw [bind_error hcheck]
    exact .stopped

theorem checked {e : Expr} (h : R.Mirrors k env w run run' post) :
    R.Mirrors k env w (k.check e >>= fun _ => run) run' post :=
  .check fun m m' hm he _ => h m m' hm he

/-! ### Environments -/

/-- A run in another environment. -/
theorem within {inner : Environment} (h : R.Mirrors k inner w run run' post) :
    R.Mirrors k env w (Run.within inner run) (Run.within inner run') post := by
  intro m m' hm he
  have h := h _ _ (hm.environment_step inner) rfl
  have hsame (w' : World) {n n' : Machine} (hn : R.SameMachine w' n n') :
      R.SameMachine w' { n with environment := m.environment }
        { n' with environment := m'.environment } := by
    rw [hm.environment]
    exact hn.environment_step _
  generalize hr : run _ = r, hr' : run' _ = r' at h
  cases h with
  | ok extend same _ holds =>
    rw [within_ok hr, within_ok hr']
    exact .ok extend (hsame _ same) he holds
  | error same =>
    rw [within_error hr, within_error hr']
    exact .error (hsame _ same)
  | stopped =>
    rw [within_error hr]
    exact .stopped

theorem environment :
    R.Mirrors k env w Run.environment Run.environment fun _ a b => a = env ∧ b = env :=
  of_ok fun m m' hm he =>
    ⟨_, m, _, m', w, rfl, rfl, List.prefix_rfl, hm, he, he, hm.environment.trans he⟩

/-- A scope is added inside an environment. -/
theorem extend {marks : List Bool} {outer : Environment} (ho : Marked w marks outer) {marked : Bool}
    {b b' : Bindings Value} (hb : R.SameScope w marked b b') :
    R.Mirrors k env w (Run.extend outer b) (Run.extend outer b')
      fun w' inner inner' => inner' = inner ∧ Marked w' (marked :: marks) inner := by
  refine of_ok fun m m' hm he => ⟨_, _, _, _, w ++ [marked], rfl, rfl, List.prefix_append _ _,
    hm.extend_step hb, he, ?_, ?_⟩
  · rw [hm.size, hm.size']
  · refine .scope ?_ (ho.mono (List.prefix_append _ _))
    rw [hm.size, List.getElem?_concat_length]

/-! ### Identities, objects and the host -/

theorem newIdentity : R.Mirrors k env w Run.newIdentity Run.newIdentity fun _ a b => b = a :=
  of_ok fun _ _ hm he =>
    ⟨_, _, _, _, w, rfl, rfl, List.prefix_rfl, hm.identity_step, he, hm.nextIdentity⟩

theorem newObject : R.Mirrors k env w Run.newObject Run.newObject fun _ a b => b = a :=
  of_ok fun _ _ hm he =>
    ⟨_, _, _, _, w, rfl, rfl, List.prefix_rfl, hm.object_step, he, hm.objects⟩

theorem field? (object : Nat) (name : String) :
    R.Mirrors k env w (Run.field? object name) (Run.field? object name)
      fun w' a b => Option.Rel (R.SameValue w') a b :=
  of_ok fun m m' hm he =>
    ⟨_, m, _, m', w, rfl, rfl, List.prefix_rfl, hm, he, (hm.fields object).get? name⟩

theorem setField (object : Nat) (name : String) {v v' : Value} (hv : R.SameValue w v v') :
    R.Mirrors k env w (Run.setField object name v) (Run.setField object name v')
      fun _ _ _ => True :=
  of_ok fun _ _ hm he =>
    ⟨_, _, _, _, w, rfl, rfl, List.prefix_rfl, hm.field_step object name hv, he, trivial⟩

/-- A use of the host. -/
theorem ofHost {use : EStateM Stop Host α} {use' : EStateM Stop Host β}
    (h : UsesAlike (post w) use use') :
    R.Mirrors k env w (Run.ofHost use) (Run.ofHost use') post := by
  intro m m' hm he
  have h := h m.toHost
  simp only [Run.ofHost, hm.host]
  split at h
  · rename_i a host b host' hu hu'
    obtain ⟨rfl, hpost⟩ := h
    rw [hu, hu']
    exact .ok List.prefix_rfl (hm.host_step host') he hpost
  · rename_i line cause host stop host' hu hu'
    obtain ⟨rfl, rfl, -⟩ := h
    rw [hu, hu']
    exact .error (hm.host_step host')
  · exact h.elim

end

/-! ### Variables -/

section

variable {R : Renaming} {k : Watch} {env : Environment} {w : World} {marks : List Bool}
  {name : Token} {v v' : Value}

/-- A variable is bound in the innermost scope. -/
theorem define (h : Marked w marks env) {n : String} (hn : n ≠ R.new) (hv : R.SameValue w v v') :
    R.Mirrors k env w (Run.define n v) (Run.define (R.name (marks.headD false) n) v')
      fun _ _ _ => True := by
  refine of_ok fun m m' hm he => ⟨(), _, (), _, w, rfl, rfl, List.prefix_rfl, ?_, he, trivial⟩
  cases env with
  | nil => cases h
  | cons i outer =>
    have hset := hm.set_step (h.head hm.globals rfl) hn hv
    simpa only [Store.define, hm.environment, he] using hset

/-- What a word is bound to in the scope at a distance, a word that is not renamed. -/
theorem getAt {outer : Environment} (h : Marked w marks outer) (distance : Nat) {word : String}
    (hold : word ≠ R.old) (hnew : word ≠ R.new) (line : Nat) :
    R.Mirrors k env w (Run.getAt outer distance word line) (Run.getAt outer distance word line)
      R.SameValue := by
  intro m m' hm he
  unfold Run.getAt Store.getAt Environment.scopeAt
  cases hd : outer[distance]? with
  | none => exact .error hm
  | some i =>
    have hget := hm.get? (h.getElem? hm.globals hd) hnew
    rw [R.name_of_ne hold] at hget
    show R.Outcome k env w _ (Run.ofExcept line (m.store.getIn i word) m)
      (Run.ofExcept line (m'.store.getIn i word) m')
    unfold Store.getIn
    rcases eq_none_or_eq_some_of_rel hget with ⟨hu, hu'⟩ | ⟨u, u', hu, hu', hrel⟩
    · rw [hu, hu']
      exact .error hm
    · rw [hu, hu']
      exact .ok List.prefix_rfl hm he hrel

/-- A global name is looked up. -/
theorem global {m m' : Machine} (hm : R.SameMachine w m m') (he : m.environment = env)
    (name : String) (line : Nat) :
    R.Outcome k env w R.SameValue (Run.ofExcept line (m.store.get .globals name) m)
      (Run.ofExcept line (m'.store.get .globals name) m') := by
  rw [Store.get_globals, Store.get_globals]
  rcases eq_none_or_eq_some_of_rel (hm.get?_global name) with ⟨hu, hu'⟩ | ⟨u, u', hu, hu', hrel⟩
  · rw [hu, hu']
    exact .error hm
  · rw [hu, hu']
    exact .ok List.prefix_rfl hm he hrel

/-- A word that is not renamed is looked up. -/
theorem lookUp_keyword (h : Marked w marks env) (id : Nat) (hold : name.lexeme ≠ R.old)
    (hnew : name.lexeme ≠ R.new) :
    R.Mirrors k env w (Run.lookUp id name) (Run.lookUp id name) R.SameValue := by
  intro m m' hm he
  unfold Run.lookUp Machine.lookUp
  rw [hm.known, hm.known']
  cases R.distances[id]? with
  | none => exact global hm he name.lexeme name.line
  | some d =>
    rw [hm.environment, he]
    exact getAt h d hold hnew name.line m m' hm he

/-- A variable is looked up that is bound wherever the distances tie it to a scope. -/
theorem lookUp (h : Marked w marks env) {id : Nat} (hn : name.lexeme ≠ R.new) {m m' : Machine}
    (hm : R.SameMachine w m m') (he : m.environment = env)
    (hsafe : m.readsSafely (.var id name) = true) :
    R.Outcome k env w R.SameValue (Run.lookUp id name m)
      (Run.lookUp id (R.token (R.ties marks id) name) m') := by
  replace hsafe : (m.distances[id]?.all fun d => (m.bound? d name.lexeme).isSome) = true := hsafe
  unfold Run.lookUp Machine.lookUp Renaming.ties
  rw [hm.known] at hsafe
  rw [hm.known, hm.known']
  cases hd : R.distances[id]? with
  | none =>
    rw [show markAt marks none = false from rfl, token_false]
    exact global hm he name.lexeme name.line
  | some d =>
    rw [hd, Option.all_some] at hsafe
    obtain ⟨u, hu⟩ := Option.isSome_iff_exists.1 hsafe
    obtain ⟨i, hi, hbound⟩ := Option.bind_eq_some_iff.1 hu
    have hget := hm.get? (h.getElem? hm.globals (he ▸ hi)) hn
    rcases eq_none_or_eq_some_of_rel hget with ⟨hx, -⟩ | ⟨x, y, hx, hy, hrel⟩
    · rw [hbound] at hx
      cases hx
    · have hread : m.store.getAt m.environment d name.lexeme = .ok x :=
        Store.getAt_eq_ok (Option.bind_eq_some_iff.2 ⟨i, hi, hx⟩)
      have hread' : m'.store.getAt m'.environment d
          (R.name (markAt marks (some d)) name.lexeme) = .ok y :=
        Store.getAt_eq_ok (Option.bind_eq_some_iff.2 ⟨i, hm.environment ▸ hi, hy⟩)
      simp only [token_lexeme, hread, hread']
      exact .ok List.prefix_rfl hm he hrel

/-- A variable is bound anew. -/
theorem assign (h : Marked w marks env) {id : Nat} (hn : name.lexeme ≠ R.new)
    (hv : R.SameValue w v v') :
    R.Mirrors k env w (Run.assign id name v)
      (Run.assign id (R.token (R.ties marks id) name) v') fun _ _ _ => True := by
  intro m m' hm he
  unfold Run.assign Machine.assignee Renaming.ties
  rw [hm.known, hm.known']
  cases R.distances[id]? with
  | none =>
    rw [show markAt marks none = false from rfl, token_false]
    have hset := hm.set_step hm.globals hn hv
    rw [name_false] at hset
    have hbinds : (m'.store.scope 0).binds name.lexeme = (m.store.scope 0).binds name.lexeme := by
      unfold Bindings.binds
      rcases eq_none_or_eq_some_of_rel (hm.get?_global name.lexeme) with
        ⟨hu, hu'⟩ | ⟨u, u', hu, hu', -⟩ <;> rw [hu, hu']
      rfl
    rw [Store.owner_globals, Store.owner_globals, hbinds]
    cases (m.store.scope 0).binds name.lexeme with
    | false => exact .error hm
    | true => exact .ok List.prefix_rfl hset he trivial
  | some d =>
    simp only [hm.environment, Environment.scopeAt]
    cases hd : m.environment[d]? with
    | none => exact .error hm
    | some i =>
      have hset := hm.set_step (h.getElem? hm.globals (he ▸ hd)) hn hv
      rw [hm.environment] at hset
      exact .ok List.prefix_rfl hset he trivial

theorem distance? (id : Nat) :
    R.Mirrors k env w (Run.distance? id) (Run.distance? id) fun _ a b => b = a :=
  of_ok fun m m' hm he => ⟨_, m, _, m', w, rfl, rfl, List.prefix_rfl, hm, he,
    (hm.known' id).trans (hm.known id).symm⟩

end

end Mirrors

end Renaming

end Lox
