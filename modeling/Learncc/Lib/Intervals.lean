/-
Intervals of natural numbers under names, with a table that finds them.

The intervals tile a set. The table sends each element of an interval
shorter than `lim` to the interval's name, and of a longer one only the first
element; on a `stale` set it may say anything. The operations are those of a
page allocator: an interval is added, split at its tail, joined with its
neighbour (which leaves the table stale on the two), entered in the table
again, and dropped.
-/
import Learncc.Lib.Tiles
import Mathlib.Logic.Function.Basic
import Mathlib.Data.Nat.Init

namespace Intervals

variable {κ : Type*}

/-- First element and length, where the name is in use. -/
abbrev Ranges (κ : Type*) := κ → Option (ℕ × ℕ)

def Holds (r : Ranges κ) (k : κ) (x : ℕ) : Prop := ∃ a n, r k = some (a, n) ∧ a ≤ x ∧ x < a + n

/-- The elements the table has for an interval. -/
def Finds (lim : ℕ) (r : Ranges κ) (k : κ) (x : ℕ) : Prop :=
  ∃ a n, r k = some (a, n) ∧ a ≤ x ∧ x < a + n ∧ (n < lim ∨ x = a)

/-- The table with an interval entered. -/
def fill (table : ℕ → Option κ) (a n : ℕ) (k : κ) (x : ℕ) : Option κ :=
  if a ≤ x ∧ x < a + n then some k else table x

structure Layout (lim top : ℕ) (r : Ranges κ) (S : ℕ → Prop) (table : ℕ → Option κ) (stale : ℕ → Prop) : Prop where
  tiles : Tiles (Holds r) S
  found : ∀ x k, ¬ stale x → (table x = some k ↔ Finds lim r k x)
  bound : ∀ {k a n}, r k = some (a, n) → 0 < a ∧ 0 < n ∧ a + n ≤ top

theorem Finds.holds {lim : ℕ} {r : Ranges κ} {k : κ} {x : ℕ} (h : Finds lim r k x) : Holds r k x := by
  obtain ⟨a, n, hr, h1, h2, -⟩ := h
  exact ⟨a, n, hr, h1, h2⟩

theorem holds_of_eq {r : Ranges κ} {k : κ} {a n x : ℕ} (h : r k = some (a, n)) : Holds r k x ↔ a ≤ x ∧ x < a + n := by
  constructor
  · intro he
    obtain ⟨b, m, hr, h1, h2⟩ := he
    rw [h] at hr
    cases hr
    exact ⟨h1, h2⟩
  · intro he
    obtain ⟨h1, h2⟩ := he
    exact ⟨a, n, h, h1, h2⟩

theorem finds_of_eq {lim : ℕ} {r : Ranges κ} {k : κ} {a n x : ℕ} (h : r k = some (a, n)) :
    Finds lim r k x ↔ a ≤ x ∧ x < a + n ∧ (n < lim ∨ x = a) := by
  constructor
  · intro he
    obtain ⟨b, m, hr, h1⟩ := he
    rw [h] at hr
    cases hr
    exact h1
  · intro h1
    exact ⟨a, n, h, h1⟩

theorem not_holds {r : Ranges κ} {k : κ} {x : ℕ} (h : r k = none) : ¬ Holds r k x := by
  intro he
  obtain ⟨a, n, hr, -⟩ := he
  rw [h] at hr
  cases hr

theorem holds_congr {r r' : Ranges κ} {k : κ} {x : ℕ} (h : r' k = r k) : Holds r' k x ↔ Holds r k x := by
  unfold Holds
  rw [h]

theorem finds_congr {lim : ℕ} {r r' : Ranges κ} {k : κ} {x : ℕ} (h : r' k = r k) :
    Finds lim r' k x ↔ Finds lim r k x := by
  unfold Finds
  rw [h]

namespace Layout

variable {lim top : ℕ} {r r' : Ranges κ} {S S' : ℕ → Prop} {table : ℕ → Option κ} {stale : ℕ → Prop}

/-- Two intervals that share an element are one. -/
theorem eq_of_mem (h : Layout lim top r S table stale) {k l : κ} {a n b m x : ℕ} (hk : r k = some (a, n))
    (hl : r l = some (b, m)) (h1 : a ≤ x ∧ x < a + n) (h2 : b ≤ x ∧ x < b + m) : k = l :=
  h.tiles.unique ((holds_of_eq hk).2 h1) ((holds_of_eq hl).2 h2)

theorem mem (h : Layout lim top r S table stale) {k : κ} {a n x : ℕ} (hk : r k = some (a, n))
    (h1 : a ≤ x ∧ x < a + n) : S x :=
  (h.tiles.cover x).2 ⟨k, (holds_of_eq hk).2 h1⟩

/-- A new interval outside the set, entered in the table whole when it is
short and by its first element when it is long. -/
theorem add (h : Layout lim top r S table fun _ => False) {k : κ} {a n m : ℕ} (hk : r k = none)
    (hself : r' k = some (a, n)) (hother : ∀ l, l ≠ k → r' l = r l) (ha : 0 < a) (hn : 0 < n) (htop : a + n ≤ top)
    (hfresh : ∀ x, a ≤ x → x < a + n → ¬ S x) (hS : ∀ x, S' x ↔ S x ∨ a ≤ x ∧ x < a + n)
    (hm : m = if n < lim then n else 1) : Layout lim top r' S' (fill table a m k) fun _ => False := by
  refine ⟨?_, fun x l _ => ?_, fun {l b c} hl => ?_⟩
  · refine h.tiles.insert (k := k) (fun l x hl => holds_congr (hother l hl)) (fun x => not_holds hk) ?_ fun x => ?_
    · intro x hx
      rw [holds_of_eq hself] at hx
      exact hfresh x hx.1 hx.2
    · rw [hS, holds_of_eq hself]
  · have hmn : m ≤ n := by rw [hm]; split <;> omega
    unfold fill
    split
    · rename_i hx
      rw [Option.some.injEq]
      constructor
      · intro he
        subst he
        rw [finds_of_eq hself]
        refine ⟨hx.1, by omega, ?_⟩
        by_cases hlim : n < lim
        · exact .inl hlim
        · rw [if_neg hlim] at hm
          exact .inr (by omega)
      · intro hl
        by_contra hne
        obtain ⟨b, c, hr, h1, h2, -⟩ := (finds_congr (hother l (Ne.symm hne))).1 hl
        exact hfresh x hx.1 (by omega) (h.mem hr ⟨h1, h2⟩)
    · rename_i hx
      rw [h.found x l (by simp)]
      by_cases hl : l = k
      · subst hl
        constructor
        · intro hf
          exact absurd hf.holds (not_holds hk)
        · intro hf
          rw [finds_of_eq hself] at hf
          refine absurd ⟨hf.1, ?_⟩ hx
          rcases hf.2.2 with hlim | rfl
          · rw [if_pos hlim] at hm
            omega
          · split at hm <;> omega
      · exact (finds_congr (hother l hl)).symm
  · by_cases hl' : l = k
    · subst hl'
      rw [hself] at hl
      cases hl
      exact ⟨ha, hn, htop⟩
    · rw [hother l hl'] at hl
      exact h.bound hl

/-- The last `m` elements of a short interval become one of their own. -/
theorem split (h : Layout lim top r S table fun _ => False) {k l : κ} {a n m : ℕ} (hk : r k = some (a, n))
    (hl : r l = none) (hrk : r' k = some (a, n - m)) (hrl : r' l = some (a + n - m, m))
    (hother : ∀ j, j ≠ k → j ≠ l → r' j = r j) (hlim : n < lim) (hm : 0 < m) (hmn : m < n) :
    Layout lim top r' S (fill table (a + n - m) m l) fun _ => False := by
  obtain ⟨ha, hn, htop⟩ := h.bound hk
  refine ⟨?_, fun x j _ => ?_, fun {j b c} hj => ?_⟩
  · refine h.tiles.reshape (fun j => j = k ∨ j = l) (fun j x hj => ?_) ?_ fun x => ?_
    · rw [not_or] at hj
      exact holds_congr (hother j hj.1 hj.2)
    · rintro i j x (rfl | rfl) (rfl | rfl) hi hj
      · rfl
      · rw [holds_of_eq hrk] at hi
        rw [holds_of_eq hrl] at hj
        omega
      · rw [holds_of_eq hrl] at hi
        rw [holds_of_eq hrk] at hj
        omega
      · rfl
    · constructor
      · intro he
        obtain ⟨j, rfl | rfl, hj⟩ := he
        · rw [holds_of_eq hrk] at hj
          exact ⟨j, .inl rfl, (holds_of_eq hk).2 ⟨hj.1, by omega⟩⟩
        · rw [holds_of_eq hrl] at hj
          exact ⟨k, .inl rfl, (holds_of_eq hk).2 ⟨by omega, by omega⟩⟩
      · intro he
        obtain ⟨j, rfl | rfl, hj⟩ := he
        · rw [holds_of_eq hk] at hj
          by_cases hx : x < a + n - m
          · exact ⟨j, .inl rfl, (holds_of_eq hrk).2 ⟨hj.1, by omega⟩⟩
          · exact ⟨l, .inr rfl, (holds_of_eq hrl).2 ⟨by omega, by omega⟩⟩
        · exact absurd hj (not_holds hl)
  · unfold fill
    split
    · rename_i hx
      rw [Option.some.injEq]
      constructor
      · intro he
        subst he
        exact (finds_of_eq hrl).2 ⟨hx.1, hx.2, .inl (by omega)⟩
      · intro hj
        by_contra hne'
        by_cases hjk : j = k
        · subst hjk
          rw [finds_of_eq hrk] at hj
          omega
        · obtain ⟨b, c, hr, h1, h2, -⟩ := (finds_congr (hother j hjk (Ne.symm hne'))).1 hj
          exact hjk (h.eq_of_mem hr hk ⟨h1, h2⟩ ⟨by omega, by omega⟩)
    · rename_i hx
      rw [h.found x j (by simp)]
      by_cases hjl : j = l
      · subst hjl
        constructor
        · intro hf
          exact absurd hf.holds (not_holds hl)
        · intro hf
          rw [finds_of_eq hrl] at hf
          exact absurd ⟨hf.1, hf.2.1⟩ hx
      · by_cases hjk : j = k
        · subst hjk
          rw [finds_of_eq hk, finds_of_eq hrk]
          constructor
          · intro he
            obtain ⟨h1, h2, -⟩ := he
            exact ⟨h1, by omega, .inl (by omega)⟩
          · intro he
            obtain ⟨h1, h2, -⟩ := he
            exact ⟨h1, by omega, .inl hlim⟩
        · exact (finds_congr (hother j hjk hjl)).symm
  · by_cases hjl : j = l
    · subst hjl
      rw [hrl] at hj
      cases hj
      exact ⟨by omega, hm, by omega⟩
    · by_cases hjk : j = k
      · subst hjk
        rw [hrk] at hj
        cases hj
        exact ⟨ha, by omega, by omega⟩
      · rw [hother j hjk hjl] at hj
        exact h.bound hj

/-- Two neighbours become one under the name of the first; the name of the
second falls out of use, and the table is stale on the two. -/
theorem join (h : Layout lim top r S table stale) {k l : κ} {a n m : ℕ} (hk : r k = some (a, n))
    (hl : r l = some (a + n, m)) (hrk : r' k = some (a, n + m)) (hrl : r' l = none)
    (hother : ∀ j, j ≠ k → j ≠ l → r' j = r j) (hstale : ∀ x, stale x → a ≤ x ∧ x < a + (n + m)) :
    Layout lim top r' S table fun x => a ≤ x ∧ x < a + (n + m) := by
  obtain ⟨ha, hn, -⟩ := h.bound hk
  obtain ⟨-, hm, htop⟩ := h.bound hl
  -- Before, the two held just what the one holds now.
  have hboth : ∀ x, (Holds r k x ∨ Holds r l x) ↔ a ≤ x ∧ x < a + (n + m) := by
    intro x
    rw [holds_of_eq hk, holds_of_eq hl]
    omega
  refine ⟨?_, fun x j hx => ?_, fun {j b c} hj => ?_⟩
  · refine h.tiles.reshape (fun j => j = k ∨ j = l) (fun j x hj => ?_) ?_ fun x => ?_
    · rw [not_or] at hj
      exact holds_congr (hother j hj.1 hj.2)
    · rintro i j x (rfl | rfl) (rfl | rfl) hi hj
      · rfl
      · exact absurd hj (not_holds hrl)
      · exact absurd hi (not_holds hrl)
      · rfl
    · constructor
      · intro he
        obtain ⟨j, rfl | rfl, hj⟩ := he
        · rw [holds_of_eq hrk, ← hboth] at hj
          rcases hj with hj | hj
          · exact ⟨j, .inl rfl, hj⟩
          · exact ⟨l, .inr rfl, hj⟩
        · exact absurd hj (not_holds hrl)
      · intro he
        obtain ⟨j, rfl | rfl, hj⟩ := he
        · exact ⟨j, .inl rfl, (holds_of_eq hrk).2 ((hboth x).1 (.inl hj))⟩
        · exact ⟨k, .inl rfl, (holds_of_eq hrk).2 ((hboth x).1 (.inr hj))⟩
  · rw [h.found x j fun hs => hx (hstale x hs)]
    have hout : ¬ Holds r k x ∧ ¬ Holds r l x := not_or.1 fun hb => hx ((hboth x).1 hb)
    by_cases hjk : j = k
    · subst hjk
      constructor
      · intro hf
        exact absurd hf.holds hout.1
      · intro hf
        rw [finds_of_eq hrk] at hf
        exact absurd ⟨hf.1, hf.2.1⟩ hx
    · by_cases hjl : j = l
      · subst hjl
        constructor
        · intro hf
          exact absurd hf.holds hout.2
        · intro hf
          exact absurd hf.holds (not_holds hrl)
      · exact (finds_congr (hother j hjk hjl)).symm
  · by_cases hjk : j = k
    · subst hjk
      rw [hrk] at hj
      cases hj
      exact ⟨ha, by omega, by omega⟩
    · by_cases hjl : j = l
      · subst hjl
        rw [hrl] at hj
        cases hj
      · rw [hother j hjk hjl] at hj
        exact h.bound hj

/-- A short interval is entered in the table, which was stale on it only. -/
theorem enter (h : Layout lim top r S table stale) {k : κ} {a n : ℕ} (hk : r k = some (a, n)) (hlim : n < lim)
    (hstale : ∀ x, stale x → a ≤ x ∧ x < a + n) : Layout lim top r S (fill table a n k) fun _ => False := by
  refine ⟨h.tiles, fun x j _ => ?_, h.bound⟩
  unfold fill
  split
  · rename_i hx
    rw [Option.some.injEq]
    constructor
    · intro he
      subst he
      exact (finds_of_eq hk).2 ⟨hx.1, hx.2, .inl hlim⟩
    · intro hj
      exact h.tiles.unique ((holds_of_eq hk).2 hx) hj.holds
  · rename_i hx
    exact h.found x j fun hs => hx (hstale x hs)

/-- A long interval is given up. -/
theorem drop (h : Layout lim top r S table fun _ => False) {k : κ} {a n : ℕ} (hk : r k = some (a, n))
    (hself : r' k = none) (hother : ∀ l, l ≠ k → r' l = r l) (hlim : lim ≤ n)
    (hS : ∀ x, S' x ↔ S x ∧ ¬ (a ≤ x ∧ x < a + n)) :
    Layout lim top r' S' (Function.update table a none) fun _ => False := by
  obtain ⟨-, hn, -⟩ := h.bound hk
  refine ⟨?_, fun x l _ => ?_, fun {l b c} hl => ?_⟩
  · refine h.tiles.erase (k := k) (fun l x hl => holds_congr (hother l hl)) (fun x => not_holds hself) fun x => ?_
    rw [hS, holds_of_eq hk]
  · by_cases hx : x = a
    · subst hx
      rw [Function.update_self]
      constructor
      · intro hf
        cases hf
      · intro hf
        by_cases hl : l = k
        · subst hl
          exact absurd hf.holds (not_holds hself)
        · have hf' := ((finds_congr (hother l hl)).1 hf).holds
          exact absurd (h.tiles.unique hf' ((holds_of_eq hk).2 ⟨Nat.le_refl _, by omega⟩)) hl
    · rw [Function.update_of_ne hx, h.found x l (by simp)]
      by_cases hl : l = k
      · subst hl
        constructor
        · intro hf
          rw [finds_of_eq hk] at hf
          omega
        · intro hf
          exact absurd hf.holds (not_holds hself)
      · exact (finds_congr (hother l hl)).symm
  · by_cases hl' : l = k
    · subst hl'
      rw [hself] at hl
      cases hl
    · rw [hother l hl'] at hl
      exact h.bound hl

end Layout

end Intervals
