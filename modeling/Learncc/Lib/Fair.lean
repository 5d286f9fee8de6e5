/-
Infinite runs of a machine, and one rule for showing that something happens
in them.

`eventually_of_rank`: a helpful step lowers a well-founded rank or reaches
the goal, every other step keeps the rank or reaches the goal, and a helpful
step is always still to come, so the goal is reached.
-/
import Learncc.Lib.Run
import Mathlib.Order.WellFounded

namespace Run

variable {σ ι : Type*} {step : σ → ι → Option σ}

/-- The states and inputs of one infinite run. -/
def Trace (step : σ → ι → Option σ) (s : ℕ → σ) (a : ℕ → ι) : Prop :=
  ∀ n, step (s n) (a n) = some (s (n + 1))

/-- Each state of an infinite run is the end of a finite one. -/
theorem Trace.run {s : ℕ → σ} {a : ℕ → ι} (h : Trace step s a) :
    ∀ n, run step (s 0) ((List.range n).map a) = some (s n)
  | 0 => rfl
  | n + 1 => by
    rw [List.range_succ, List.map_append]
    exact run_concat.2 ⟨s n, h.run n, h n⟩

/-- What every step keeps holds from some point on. -/
theorem Trace.keeps {s : ℕ → σ} {a : ℕ → ι} {P : σ → ι → Prop} {Q : σ → Prop} (h : Trace step s a)
    (hstep : ∀ t i u, Q t → P t i → step t i = some u → Q u) {n : ℕ} (hn : Q (s n))
    (hP : ∀ m, n ≤ m → P (s m) (a m)) {m : ℕ} (hm : n ≤ m) : Q (s m) := by
  induction m, hm using Nat.le_induction with
  | base => exact hn
  | succ m hm ih => exact hstep _ _ _ ih (hP m hm) (h m)

/-- The ranking rule. `P` holds until the goal `G` is reached, `H` marks the
helpful steps. -/
theorem eventually_of_rank {W : Type*} [Preorder W] [WellFoundedLT W] {r : ℕ → W} {P G H : ℕ → Prop}
    (hstep : ∀ n, P n → G (n + 1) ∨ (P (n + 1) ∧ r (n + 1) ≤ r n))
    (hhelp : ∀ n, P n → H n → G (n + 1) ∨ r (n + 1) < r n)
    (hfair : ∀ n, P n → ∃ m, n ≤ m ∧ H m) {n : ℕ} (hn : P n) : ∃ m, n ≤ m ∧ G m := by
  induction hr : r n using WellFoundedLT.induction generalizing n with
  | ind w ih =>
    subst hr
    obtain ⟨m, hnm, hH⟩ := hfair n hn
    -- Up to the helpful step the goal is reached, or `P` and the rank stand.
    have walk : ∀ k, n ≤ k → (∃ j, n ≤ j ∧ G j) ∨ (P k ∧ r k ≤ r n) := by
      intro k hk
      induction k, hk using Nat.le_induction with
      | base => exact .inr ⟨hn, le_refl _⟩
      | succ k hk ihk =>
        rcases ihk with hg | ⟨hp, hle⟩
        · exact .inl hg
        · rcases hstep k hp with hg | ⟨hp', hle'⟩
          · exact .inl ⟨k + 1, by omega, hg⟩
          · exact .inr ⟨hp', le_trans hle' hle⟩
    rcases walk m hnm with hg | ⟨hp, hle⟩
    · exact hg
    · rcases hhelp m hp hH with hg | hlt
      · exact ⟨m + 1, by omega, hg⟩
      · rcases hstep m hp with hg | ⟨hp', -⟩
        · exact ⟨m + 1, by omega, hg⟩
        · obtain ⟨j, hj, hg⟩ := ih (r (m + 1)) (lt_of_lt_of_le hlt hle) hp' rfl
          exact ⟨j, by omega, hg⟩

end Run
