/-!
Bindings: names with what is bound to them, each name at most once, in the order in which the
names came. `get?_set` says what a name is bound to after a binding, and `names_set_of_binds` that
binding a name that is there adds none.
-/

namespace Lox

/-- Names with what is bound to them. -/
abbrev Bindings (α : Type) := List (String × α)

namespace Bindings

variable {α : Type}

/-- What the name is bound to. -/
def get? (b : Bindings α) (name : String) : Option α :=
  b.lookup name

/-- Binds the name: in its old place if it is there, after all others if it is not. -/
def set : Bindings α → String → α → Bindings α
  | [], name, a => [(name, a)]
  | (key, old) :: rest, name, a =>
    if key = name then (key, a) :: rest else (key, old) :: set rest name a

/-- The names that are bound. -/
def names (b : Bindings α) : List String :=
  b.map Prod.fst

/-- The name is bound. -/
def binds (b : Bindings α) (name : String) : Bool :=
  (b.get? name).isSome

@[simp] theorem get?_nil (name : String) : get? ([] : Bindings α) name = none := rfl

theorem get?_cons (key : String) (a : α) (rest : Bindings α) (name : String) :
    get? ((key, a) :: rest) name = if key = name then some a else get? rest name := by
  unfold get?
  by_cases h : key = name
  · simp [h]
  · simp [List.lookup_cons, h, beq_eq_false_iff_ne.2 (Ne.symm h)]

/-- After a binding its name is bound to the new value and every other name to what it was. -/
theorem get?_set (b : Bindings α) (name other : String) (a : α) :
    get? (b.set name a) other = if name = other then some a else b.get? other := by
  induction b with
  | nil => simp [set, get?_cons]
  | cons entry rest ih =>
    obtain ⟨key, old⟩ := entry
    by_cases h : key = name
    · subst h
      by_cases ho : key = other <;> simp [set, get?_cons, ho]
    · rw [set, if_neg h, get?_cons, get?_cons, ih]
      by_cases ho : key = other
      · have hn : name ≠ other := fun hn => h (ho.trans hn.symm)
        simp [ho, hn]
      · simp [ho]

theorem binds_set (b : Bindings α) (name other : String) (a : α) :
    (b.set name a).binds other = (decide (name = other) || b.binds other) := by
  unfold binds
  rw [get?_set]
  by_cases h : name = other <;> simp [h]

/-- After one binding after another a name is bound to what the last entry for it says. -/
theorem get?_foldl_set_eq_find? {σ : Type} (key : σ → String) (value : σ → α) (entries : List σ)
    (b : Bindings α) (name : String) :
    get? (entries.foldl (fun b entry => b.set (key entry) (value entry)) b) name
      = ((entries.reverse.find? fun entry => key entry = name).map value).or (b.get? name) := by
  induction entries generalizing b with
  | nil => rfl
  | cons entry rest ih =>
    rw [List.foldl_cons, ih, get?_set, List.reverse_cons, List.find?_append]
    cases rest.reverse.find? fun entry => key entry = name with
    | some last => rfl
    | none => by_cases h : key entry = name <;> simp [h]

/-- Binding a name that is bound already adds no name. -/
theorem names_set_of_binds {b : Bindings α} {name : String} (a : α) (h : b.binds name = true) :
    (b.set name a).names = b.names := by
  induction b with
  | nil => simp [binds] at h
  | cons entry rest ih =>
    obtain ⟨key, old⟩ := entry
    by_cases hk : key = name
    · simp [set, hk, names]
    · have hr : binds rest name = true := by simpa [binds, get?_cons, hk] using h
      simpa [set, hk, names] using ih hr

end Bindings

end Lox
