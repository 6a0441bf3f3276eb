/-!
Results that may be errors instead: what comes of several steps, if none of them fails.
-/

namespace Swatch

variable {ε α β : Type}

theorem map_eq_ok {f : α → β} {x : Except ε α} {y : β} :
    f <$> x = .ok y ↔ ∃ a, x = .ok a ∧ f a = y := by
  cases x <;> simp [Functor.map, Except.map]

theorem bind_eq_ok {f : α → Except ε β} {x : Except ε α} {y : β} :
    x >>= f = .ok y ↔ ∃ a, x = .ok a ∧ f a = .ok y := by
  cases x <;> simp [bind, Except.bind]

end Swatch
