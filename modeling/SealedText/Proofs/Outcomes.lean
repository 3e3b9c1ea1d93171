/-!
# Outcomes in sequence

A sequence of steps that may fail succeeds exactly if every step does and every check passes.
-/

namespace SealedText

variable {ε α β : Type}

theorem ok_bind (a : α) (f : α → Except ε β) : (Except.ok a >>= f) = f a := rfl

theorem error_bind (err : ε) (f : α → Except ε β) :
    ((.error err : Except ε α) >>= f) = .error err := rfl

theorem ite_bind {p : Prop} [Decidable p] {x y : Except ε α} {f : α → Except ε β} :
    ((if p then x else y) >>= f) = if p then x >>= f else y >>= f := by
  split <;> rfl

theorem bind_eq_ok {x : Except ε α} {f : α → Except ε β} {b : β} :
    (x >>= f) = .ok b ↔ ∃ a, x = .ok a ∧ f a = .ok b := by
  constructor
  · intro h
    cases x with
    | error err => cases h
    | ok a => exact ⟨a, rfl, h⟩
  · rintro ⟨a, rfl, h⟩
    exact h

theorem bind_eq_error {x : Except ε α} {f : α → Except ε β} {err : ε} :
    (x >>= f) = .error err ↔ x = .error err ∨ ∃ a, x = .ok a ∧ f a = .error err := by
  cases x with
  | error found => simp [error_bind]
  | ok a => simp [ok_bind]

theorem mapError_eq_ok {ε' : Type} {x : Except ε α} {f : ε → ε'} {a : α} :
    x.mapError f = .ok a ↔ x = .ok a := by
  cases x with
  | error err =>
    constructor <;> intro h <;> cases h
  | ok found =>
    constructor <;> intro h <;> cases h <;> rfl

/-- A check in front of the other steps has to pass. -/
theorem check_bind_eq_ok {p : Prop} [Decidable p] {err : ε} {f : PUnit → Except ε α}
    {x : Except ε α} {b : α} :
    (if p then throw err >>= f else x) = .ok b ↔ ¬ p ∧ x = .ok b := by
  by_cases hp : p
  · rw [if_pos hp]
    constructor
    · intro h
      cases h
    · rintro ⟨hnot, -⟩
      exact absurd hp hnot
  · rw [if_neg hp]
    exact (and_iff_right hp).symm

theorem elim_eq_ok {x : Option α} {err : ε} {f : α → Except ε β} {b : β} :
    x.elim (.error err) f = .ok b ↔ ∃ a, x = some a ∧ f a = .ok b := by
  cases x <;> simp

end SealedText
