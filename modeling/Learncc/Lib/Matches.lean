/-
Two programs that do the same on two representations: they fail alike, or
return values that are related. `Matches.bind` puts such programs together.
-/
import Mathlib.Logic.Basic

/-- The same failure, or related values. -/
inductive Matches {ε α β : Type*} (R : α → β → Prop) : Except ε α → Except ε β → Prop
  | ok {a : α} {b : β} (h : R a b) : Matches R (.ok a) (.ok b)
  | error (e : ε) : Matches R (.error e) (.error e)

namespace Matches

variable {ε α β : Type*} {R R' : α → β → Prop} {x : Except ε α} {y : Except ε β}

theorem mono (h : Matches R x y) (hR : ∀ a b, R a b → R' a b) : Matches R' x y := by
  cases h with
  | ok h => exact .ok (hR _ _ h)
  | error e => exact .error e

/-- What the second returns the first does. -/
theorem of_ok {b : β} (h : Matches R x (.ok b)) : ∃ a, x = .ok a ∧ R a b := by
  cases h with
  | ok h => exact ⟨_, rfl, h⟩

/-- And the other way round. -/
theorem ok_of {a : α} (h : Matches R (.ok a) y) : ∃ b, y = .ok b ∧ R a b := by
  cases h with
  | ok h => exact ⟨_, rfl, h⟩

end Matches

section

variable {ε α β γ δ : Type} {R : α → β → Prop} {S : γ → δ → Prop} {x : Except ε α} {y : Except ε β}

theorem Matches.bind (h : Matches R x y) {f : α → Except ε γ} {g : β → Except ε δ}
    (hfg : ∀ a b, x = .ok a → y = .ok b → R a b → Matches S (f a) (g b)) : Matches S (x >>= f) (y >>= g) := by
  cases h with
  | ok h => exact hfg _ _ rfl rfl h
  | error e => exact .error e

/-- Both begin with the same. -/
theorem Matches.bind_same {x : Except ε α} {f : α → Except ε γ} {g : α → Except ε δ}
    (hfg : ∀ a, x = .ok a → Matches S (f a) (g a)) : Matches S (x >>= f) (x >>= g) := by
  cases x with
  | ok a => exact hfg a rfl
  | error e => exact .error e

end
