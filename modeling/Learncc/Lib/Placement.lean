/-
Things kept in lists under names: every thing of a set is in exactly one
place, once.

`Placed.exchange` moves things between two places, in either direction;
`Placed.add` and `Placed.remove` change the set.
-/
import Learncc.Lib.Tiles
import Mathlib.Data.List.Nodup
import Mathlib.Data.List.Perm.Basic

/-- The lists `f k` hold each element of `S`, and no other, once. -/
structure Placed {κ α : Type*} (f : κ → List α) (S : α → Prop) : Prop where
  nodup : ∀ k, (f k).Nodup
  tiles : Tiles (fun k x => x ∈ f k) S

namespace Placed

variable {κ α : Type*} {f f' : κ → List α} {S S' : α → Prop}

theorem empty (hf : ∀ k, f k = []) (hS : ∀ x, ¬ S x) : Placed f S := by
  refine ⟨fun k => ?_, fun {k l x} hx => ?_, fun x => ⟨fun hx => absurd hx (hS x), ?_⟩⟩
  · rw [hf k]
    exact List.nodup_nil
  · rw [hf k] at hx
    cases hx
  · intro he
    obtain ⟨k, hx⟩ := he
    rw [hf k] at hx
    cases hx

theorem disjoint (h : Placed f S) {k l : κ} (hkl : k ≠ l) : List.Disjoint (f k) (f l) :=
  fun _ hk hl => hkl (h.tiles.unique hk hl)

theorem mem (h : Placed f S) {k : κ} {x : α} (hx : x ∈ f k) : S x := (h.tiles.cover x).2 ⟨k, hx⟩

/-- Two places share out anew what they hold together. -/
theorem exchange (h : Placed f S) {k l : κ} (hkl : k ≠ l) (same : ∀ j, j ≠ k → j ≠ l → f' j = f j)
    (perm : (f' k ++ f' l).Perm (f k ++ f l)) : Placed f' S := by
  have hnd : (f' k ++ f' l).Nodup :=
    perm.nodup_iff.2 (List.nodup_append'.2 ⟨h.nodup k, h.nodup l, h.disjoint hkl⟩)
  obtain ⟨hk, hl, hdis⟩ := List.nodup_append'.1 hnd
  refine ⟨fun j => ?_, h.tiles.reshape (fun j => j = k ∨ j = l) (fun j x hj => ?_) ?_ fun x => ?_⟩
  · by_cases hjk : j = k
    · exact hjk ▸ hk
    · by_cases hjl : j = l
      · exact hjl ▸ hl
      · rw [same j hjk hjl]
        exact h.nodup j
  · rw [not_or] at hj
    rw [same j hj.1 hj.2]
  · rintro i j x (rfl | rfl) (rfl | rfl) hi hj
    · rfl
    · exact absurd hj (hdis hi)
    · exact absurd hi (hdis hj)
    · rfl
  · have := perm.mem_iff (a := x)
    simp only [List.mem_append] at this
    simpa [or_and_right, exists_or] using this

/-- A place takes in things from outside the set. -/
theorem add (h : Placed f S) (k : κ) (xs : List α) (hxs : xs.Nodup) (fresh : ∀ x ∈ xs, ¬ S x)
    (same : ∀ j, j ≠ k → f' j = f j) (empty : f k = []) (hk : f' k = xs) (hS : ∀ x, S' x ↔ S x ∨ x ∈ xs) :
    Placed f' S' := by
  refine ⟨fun j => ?_, h.tiles.insert (k := k) (fun j x hj => by rw [same j hj]) (fun x => ?_) (fun x hx => ?_)
    fun x => ?_⟩
  · by_cases hj : j = k
    · rw [hj, hk]
      exact hxs
    · rw [same j hj]
      exact h.nodup j
  · simp [empty]
  · exact fresh x (hk ▸ hx)
  · rw [hS, hk]

/-- A place gives up what it holds. -/
theorem remove (h : Placed f S) {k : κ} (same : ∀ j, j ≠ k → f' j = f j) (empty : f' k = [])
    (hS : ∀ x, S' x ↔ S x ∧ x ∉ f k) : Placed f' S' := by
  refine ⟨fun j => ?_, h.tiles.erase (k := k) (fun j x hj => by rw [same j hj]) (fun x => ?_) hS⟩
  · by_cases hj : j = k
    · rw [hj, empty]
      exact List.nodup_nil
    · rw [same j hj]
      exact h.nodup j
  · simp [empty]

end Placed
