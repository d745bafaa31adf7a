import Lox.Proofs.Scopes.Execution

/-!
Distances and walks. The nearest scope around an expression that binds a name at the moment is the one
that stands at the distance of the name, if the scopes bind no name that the resolver has not seen
there (`Chain.owner?_eq`). In an orderly program no scope ever does, so that the program runs as it
does with an evaluator that walks outward from the current environment for every name and does not
look at distances (`interpret_eq_walking`).
-/

namespace Lox

/-! ### The evaluator that walks -/

/-- The value of a name in the nearest scope that binds it. -/
def Run.get (name : String) (line : Nat) : Run Value := fun m =>
  Run.ofExcept line (m.store.get m.environment name) m

/-- Binds a name anew in the nearest scope that binds it. -/
def Run.reassign (name : Token) (value : Value) : Run Unit := fun m =>
  match m.store.assign m.environment name.lexeme value with
  | .ok store => .ok () { m with store }
  | .error cause => .error (.fault name.line cause) m

/-- The method that `super` gives, the class and the object being those of the nearest scopes that
bind `super` and `this`. -/
def nearestSuperMethod (keyword method : Token) : Run Value := do
  match ← Run.get "super" keyword.line with
  | .classOf _ ancestor =>
    match ← Run.get "this" keyword.line with
    | .object object description => ancestor.boundMethod method (.object object description)
    | _ => Run.fail keyword.line .notAnObject
  | _ => Run.fail keyword.line .superclassNotAClass

/-- Names are found in the nearest scope that binds them, without distances. -/
def Variant.walking : Variant where
  lookUp _ name := Run.get name.lexeme name.line
  assign _ := Run.reassign
  superMethod _ := nearestSuperMethod

namespace Scopes

section

variable {ordered : Prop} {t : Table} {w : World} {m : Machine} {site : Site}

/-- The nearest scope that binds a name is the one at the distance of the name. -/
theorem Chain.owner?_eq {st : Store} {scopes : List (Bindings Bool)} {env : Environment} {n : String}
    (h : Chain w scopes env) (hbinds : ∀ i, w.Binds i n ↔ (st.scope i).binds n = true)
    (hread : scopes.findSome? (·.get? n) ≠ some false) (hk : Known w.Binds (· = n) scopes env) :
    st.owner? env n = match scopes.findIdx? (·.binds n) with
      | some d => env[d]?
      | none => st.owner? .globals n := by
  induction h with
  | globals => rfl
  | @scope scope scopes i env _ _ _ binds ih =>
    rw [Store.owner?, List.findIdx?_cons]
    by_cases hb : scope.binds n = true
    · -- The resolver has seen the name here, and it may be read.
      obtain ⟨flag, hf⟩ := Option.isSome_iff_exists.1 hb
      have hbound : (st.scope i).binds n = true := by
        rw [List.findSome?_cons, hf] at hread
        cases flag
        · exact absurd rfl hread
        · exact (hbinds i).1 (binds n hf)
      rw [if_pos hb, if_pos hbound]
      rfl
    · have hunbound : ¬ (st.scope i).binds n = true := fun hbound =>
        hb (hk.1 n rfl ((hbinds i).2 hbound))
      have hnone : scope.get? n = none := by simpa [Bindings.binds] using hb
      rw [List.findSome?_cons, hnone] at hread
      rw [if_neg hb, if_neg hunbound, ih hread hk.2]
      cases scopes.findIdx? (·.binds n) <;> rfl

/-- Where a name may be read, the nearest scope that binds it is the one at its distance, or one of
the globals. -/
theorem Conforms.owner?_eq (hm : Conforms ordered t w m) (hc : Chain w site.scopes m.environment)
    {n : String} (hread : site.MayRead n)
    (hk : Known w.Binds (· = n) site.scopes m.environment) :
    m.store.owner? m.environment n = match site.distanceOf? n with
      | some d => m.environment[d]?
      | none => m.store.owner? .globals n :=
  hc.owner?_eq (fun _ => hm.binds_iff) hread hk

/-- A name is found where the distance says. -/
theorem Conforms.get_eq (hm : Conforms ordered t w m) (hc : Chain w site.scopes m.environment)
    {n : String} (hread : site.MayRead n)
    (hk : Known w.Binds (· = n) site.scopes m.environment) :
    m.store.get m.environment n = match site.distanceOf? n with
      | some d => m.store.getAt m.environment d n
      | none => m.store.get .globals n := by
  have howner := hm.owner?_eq hc hread hk
  cases hd : site.distanceOf? n with
  | none =>
    rw [hd] at howner
    simp only [Store.get, Store.owner, howner]
  | some d =>
    rw [hd] at howner
    obtain ⟨i, hi, -⟩ := hc.binds_of_distance hd
    simp only [Store.get, Store.owner, Store.getAt, Environment.scopeAt, howner, hi]

/-- What is bound around a method is found at its distance. -/
theorem Conforms.get_run_eq (hm : Conforms ordered t w m)
    (hc : Chain w site.scopes m.environment) {n : String} (hread : site.MayRead n)
    (hk : Known w.Binds (· = n) site.scopes m.environment) {d : Nat}
    (hd : site.distanceOf? n = some d) (line : Nat) :
    Run.get n line m = Run.getAt m.environment d n line m := by
  rw [Run.get, hm.get_eq hc hread hk, hd]
  rfl

end

/-- A step that only looks at the machine goes on as another one that finds the same. -/
theorem ofExcept_bind_congr {α : Type} {x y : Run Value} {m : Machine} {line : Nat}
    {r : Except RuntimeFault Value} (hx : x m = Run.ofExcept line r m)
    (hy : y m = Run.ofExcept line r m) {f g : Value → Run α} (h : ∀ v, f v m = g v m) :
    (x >>= f) m = (y >>= g) m := by
  cases r with
  | ok v => rw [bind_ok hx, bind_ok hy, h]
  | error cause => rw [bind_error hx, bind_error hy]

/-- The evaluator that walks finds what the distances say, if the scopes bind no name that the
resolver has not seen there. -/
theorem Faithful.walking : Faithful True (.everywhere .walking) where
  lookUp := by
    intro own t w m site id name hm hc hg hread hk
    have hget := hm.get_eq hc hread (hk trivial)
    have hdistance : m.distances[id]? = site.distanceOf? name.lexeme := by
      rw [hm.distances]
      exact hg.2
    change Run.get name.lexeme name.line m = Run.lookUp id name m
    cases hd : site.distanceOf? name.lexeme with
    | none | some d =>
      rw [hd] at hget hdistance
      simp only [Run.get, Run.lookUp, Machine.lookUp, hget, hdistance]
  assign := by
    intro own t w m site id name hm hc hg _ h v
    obtain ⟨hread, hk⟩ := h trivial
    have howner := hm.owner?_eq hc hread hk
    have hdistance : m.distances[id]? = site.distanceOf? name.lexeme := by
      rw [hm.distances]
      exact hg.2
    change Run.reassign name v m = Run.assign id name v m
    unfold Run.reassign Run.assign Machine.assignee
    rw [hdistance]
    cases hd : site.distanceOf? name.lexeme with
    | none =>
      rw [hd] at howner
      simp only [Store.assign, Store.owner, howner]
      cases m.store.owner? .globals name.lexeme <;> rfl
    | some d =>
      rw [hd] at howner
      obtain ⟨i, hi, -⟩ := hc.binds_of_distance hd
      simp only [Store.assign, Store.owner, Environment.scopeAt, howner, hi]
      rfl
  superMethod := by
    intro own t w m site id keyword method hm hc hl hk
    obtain ⟨-, hsuper, hthis, d, hg, hd, hd'⟩ := hl
    have hget := hm.get_run_eq hc hsuper ((hk trivial).only (.inr (.inr rfl))) hd keyword.line
    have hget' := hm.get_run_eq hc hthis ((hk trivial).only (.inr (.inl rfl))) hd' keyword.line
    have hdistance : Run.distance? id m = .ok (some (d + 1)) m := by
      rw [Run.distance?, hm.distances, hg.2]
    change nearestSuperMethod keyword method m = Lox.superMethod id keyword method m
    rw [Lox.superMethod, bind_ok hdistance]
    have hread : ∀ {n : String} {d : Nat}, Run.getAt m.environment d n keyword.line m
        = Run.ofExcept keyword.line (m.store.getAt m.environment d n) m := rfl
    refine Eq.trans ?_ (bind_ok (show Run.environment m = .ok m.environment m from rfl)).symm
    refine ofExcept_bind_congr (hget.trans hread) hread fun v => ?_
    cases v with
    | classOf _ ancestor =>
      refine ofExcept_bind_congr (hget'.trans hread) hread fun u => ?_
      cases u <;> rfl
    | _ => rfl
  call _ := rfl
  block _ := rfl
  body _ := rfl

end Scopes

/-- An orderly program that all stages accept runs as it does with an evaluator that finds all names
by walking outward from the current environment. -/
theorem interpret_eq_walking {limit : Limit} {firstId nextId : Nat} {source : String} {p : Program}
    {d : Distances} (h : limit.Reads firstId source p d nextId) (ho : p.orderly = true) (fuel : Nat)
    (console : Console) (clock : Nat → Float) :
    let m := (Machine.fresh console clock).addDistances d
    m.interpret fuel p = m.interpretBy (Variant.walking.execute fuel) p := by
  have hm := Scopes.Conforms.fresh True (h.table (.empty firstId) rfl) console clock
  exact (hm.interpretBy rfl .walking (h.linked (.empty firstId) rfl) (fun _ => ho) fuel).1.symm

/-- The text `class A ( m() ( return 1; ) ) class B : A ( m() ( return super.m() + this.k; ) )
fun f(x) ( var b = B(); b.k = x; fun g() ( x = x + 1; return b.m() + x; ) return g; )
( var g = f(2); print(g()); )`, with braces for the parentheses around statements and methods. -/
def capturing : String :=
  "class A \x7b m() \x7b return 1; \x7d \x7d " ++
    "class B : A \x7b m() \x7b return super.m() + this.k; \x7d \x7d " ++
    "fun f(x) \x7b var b = B(); b.k = x; fun g() \x7b x = x + 1; return b.m() + x; \x7d " ++
    "return g; \x7d \x7b var g = f(2); print(g()); \x7d"

/-- A function assigns a parameter of the function around it and calls a method that uses `super` and
`this`; all of them are found by walking. -/
theorem interpret_eq_walking_capturing :
    ∃ p d n, ({} : Limit).Reads 0 capturing p d n ∧ p.orderly = true
      ∧ (let m := (Machine.fresh {} fun _ => 0).addDistances d
        m.interpret 12 p = m.interpretBy (Variant.walking.execute 12) p)
      ∧ (((Machine.fresh {} fun _ => 0).addDistances d).interpret 12 p).2.console.output.written.data
        = "6".toUTF8.data := by
  have hrun : ((({} : Limit).read? 0 capturing).map fun (p, d, _) => (p.orderly,
      (((Machine.fresh {} fun _ => 0).addDistances d).interpret 12 p).2.console.output.written.data))
      = some (true, "6".toUTF8.data) := by decide +kernel
  obtain ⟨⟨p, d, n⟩, hread, hout⟩ := Option.map_eq_some_iff.1 hrun
  obtain ⟨ho, hout⟩ := Prod.mk.inj hout
  have h := Limit.read?_eq_some_iff.1 hread
  exact ⟨p, d, n, h, ho, interpret_eq_walking h ho 12 {} _, hout⟩

end Lox
