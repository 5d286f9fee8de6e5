/-
Blocks of consecutive numbers, each from where the one before it ends.

`Consecutive.cover` and `Consecutive.disjoint` say that they partition the
numbers from the first start to the last end; `Consecutive.sum` adds up
what is additive on adjacent blocks.
-/
import Mathlib.Algebra.BigOperators.Group.List.Basic
import Mathlib.Order.Basic

/-- The blocks, start and end, lead from `a` to `c`; none is empty. -/
def Consecutive : ℕ → List (ℕ × ℕ) → ℕ → Prop
  | a, [], c => a = c
  | a, b :: l, c => b.1 = a ∧ b.1 < b.2 ∧ Consecutive b.2 l c

namespace Consecutive

variable {a b c : ℕ} {l m : List (ℕ × ℕ)}

theorem append : ∀ {l : List (ℕ × ℕ)} {a : ℕ}, Consecutive a l b → Consecutive b m c → Consecutive a (l ++ m) c
  | [], _, hl, hm => by
    cases hl
    exact hm
  | _ :: _, _, hl, hm => ⟨hl.1, hl.2.1, hl.2.2.append hm⟩

/-- One block more. -/
theorem concat (h : Consecutive a l b) (hlt : b < c) : Consecutive a (l ++ [(b, c)]) c := h.append ⟨rfl, hlt, rfl⟩

theorem le : ∀ {l : List (ℕ × ℕ)} {a : ℕ}, Consecutive a l c → a ≤ c
  | [], _, h => Nat.le_of_eq h
  | b :: l, a, h => by
    have hrest := h.2.2.le
    have hlt := h.2.1
    have hstart := h.1
    omega

/-- Every number lies in a block. -/
theorem cover : ∀ {l : List (ℕ × ℕ)} {a i : ℕ}, Consecutive a l c → a ≤ i → i < c → ∃ b ∈ l, b.1 ≤ i ∧ i < b.2
  | [], a, i, h, hai, hic => by
    cases h
    omega
  | b :: l, a, i, h, hai, hic => by
    rcases Nat.lt_or_ge i b.2 with hlt | hge
    · exact ⟨b, List.mem_cons_self, by rw [h.1]; exact hai, hlt⟩
    · obtain ⟨d, hd, hmem⟩ := h.2.2.cover hge hic
      exact ⟨d, List.mem_cons_of_mem b hd, hmem⟩

theorem start_le : ∀ {l : List (ℕ × ℕ)} {a : ℕ}, Consecutive a l c → ∀ b ∈ l, a ≤ b.1
  | b :: l, a, h, d, hd => by
    rcases List.mem_cons.1 hd with rfl | hd
    · exact Nat.le_of_eq h.1.symm
    · have hle := h.2.2.start_le d hd
      have hlt := h.2.1
      have hstart := h.1
      omega

/-- No number lies in two. -/
theorem disjoint : ∀ {l : List (ℕ × ℕ)} {a : ℕ}, Consecutive a l c → l.Pairwise fun b d => b.2 ≤ d.1
  | [], _, _ => List.Pairwise.nil
  | _ :: _, _, h => List.Pairwise.cons h.2.2.start_le h.2.2.disjoint

/-- The blocks have together what the numbers from `a` to `c` have. -/
theorem sum {M : Type*} [AddMonoid M] {f : ℕ → ℕ → M} (hself : ∀ a, f a a = 0)
    (hadd : ∀ {a b c}, a ≤ b → b ≤ c → f a b + f b c = f a c) :
    ∀ {l : List (ℕ × ℕ)} {a : ℕ}, Consecutive a l c → (l.map fun b => f b.1 b.2).sum = f a c
  | [], _, h => by
    cases h
    exact (hself _).symm
  | b :: l, a, h => by
    obtain ⟨rfl, hlt, hrest⟩ := h
    rw [List.map_cons, List.sum_cons, hrest.sum hself hadd, hadd (Nat.le_of_lt hlt) hrest.le]

end Consecutive
