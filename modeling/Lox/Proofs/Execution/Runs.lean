import Lox.Machine

/-!
How the results of runs come about: of one run after the other, of a run whose result is changed, and of
a run in another environment.
-/

namespace Lox

/-- What is given if the run is completed. -/
def valueOf? {ε σ α : Type} : EStateM.Result ε σ α → Option α
  | .ok a _ => some a
  | .error _ _ => none

theorem valueOf?_eq_some {ε σ α : Type} {r : EStateM.Result ε σ α} {a : α} (h : valueOf? r = some a) :
    ∃ s, r = .ok a s := by
  cases r with
  | ok b s =>
    cases h
    exact ⟨s, rfl⟩
  | error e s => cases h

/-! ### One run after the other -/

section

variable {ε σ α β : Type} {x : EStateM ε σ α} {f : α → EStateM ε σ β} {s s' : σ}

theorem bind_ok {a : α} (h : x s = .ok a s') : (x >>= f) s = f a s' := by
  simp only [Bind.bind, EStateM.bind, h]

theorem bind_error {e : ε} (h : x s = .error e s') : (x >>= f) s = .error e s' := by
  simp only [Bind.bind, EStateM.bind, h]

theorem exists_of_bind_ok {b : β} (h : (x >>= f) s = .ok b s') :
    ∃ a s₁, x s = .ok a s₁ ∧ f a s₁ = .ok b s' := by
  cases hx : x s with
  | ok a s₁ =>
    rw [bind_ok hx] at h
    exact ⟨a, s₁, rfl, h⟩
  | error e s₁ =>
    rw [bind_error hx] at h
    cases h

end

section

variable {α : Type} {run : Run α} {env : Environment} {m m' : Machine}

theorem within_ok {a : α} (h : run { m with environment := env } = .ok a m') :
    Run.within env run m = .ok a { m' with environment := m.environment } := by
  simp only [Run.within, h]

theorem within_error {stop : Stop} (h : run { m with environment := env } = .error stop m') :
    Run.within env run m = .error stop { m' with environment := m.environment } := by
  simp only [Run.within, h]

theorem exists_of_within_ok {a : α} (h : Run.within env run m = .ok a m') :
    ∃ n, run { m with environment := env } = .ok a n
      ∧ m' = { n with environment := m.environment } := by
  cases hr : run { m with environment := env } with
  | ok b n =>
    rw [within_ok hr] at h
    cases h
    exact ⟨n, rfl, rfl⟩
  | error stop n =>
    rw [within_error hr] at h
    cases h

end

end Lox
