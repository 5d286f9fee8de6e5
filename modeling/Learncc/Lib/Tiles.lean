/-
A family of pieces that tile a set: every element lies in at most one
piece, and the elements that lie in some piece are those of the set.

`Tiles.replace` is the one rule about change: pieces under some names are
replaced by others, which share out what these held and what was outside the
set. Adding, dropping, splitting and joining pieces, and moving elements from
one to another, are cases of it.
-/
import Mathlib.Logic.Basic

/-- The pieces `f k` tile `S`. -/
structure Tiles {κ α : Type*} (f : κ → α → Prop) (S : α → Prop) : Prop where
  unique : ∀ {k l : κ} {x : α}, f k x → f l x → k = l
  cover : ∀ x, S x ↔ ∃ k, f k x

namespace Tiles

variable {κ α : Type*} {f f' : κ → α → Prop} {S S' : α → Prop}

/-- The pieces named by `K` are replaced. -/
theorem replace (h : Tiles f S) (K : κ → Prop) (same : ∀ k x, ¬ K k → (f' k x ↔ f k x))
    (unique : ∀ {k l : κ} {x : α}, K k → K l → f' k x → f' l x → k = l)
    (source : ∀ k x, K k → f' k x → (∃ l, K l ∧ f l x) ∨ ¬ S x)
    (cover : ∀ x, S' x ↔ (S x ∧ ∀ l, K l → ¬ f l x) ∨ ∃ k, K k ∧ f' k x) : Tiles f' S' := by
  -- A replaced piece and one that stays share nothing.
  have apart : ∀ {k l x}, K k → ¬ K l → f' k x → ¬ f' l x := by
    intro k l x hk hl hkx hlx
    have hlx' := (same l x hl).1 hlx
    rcases source k x hk hkx with ⟨m, hm, hmx⟩ | hS
    · exact hl (h.unique hmx hlx' ▸ hm)
    · exact hS ((h.cover x).2 ⟨l, hlx'⟩)
  constructor
  · intro k l x hkx hlx
    by_cases hk : K k <;> by_cases hl : K l
    · exact unique hk hl hkx hlx
    · exact absurd hlx (apart hk hl hkx)
    · exact absurd hkx (apart hl hk hlx)
    · exact h.unique ((same k x hk).1 hkx) ((same l x hl).1 hlx)
  · intro x
    rw [cover]
    constructor
    · intro he
      rcases he with ⟨hS, hno⟩ | ⟨k, -, hkx⟩
      · obtain ⟨k, hkx⟩ := (h.cover x).1 hS
        exact ⟨k, (same k x fun hk => hno k hk hkx).2 hkx⟩
      · exact ⟨k, hkx⟩
    · intro he
      obtain ⟨k, hkx⟩ := he
      by_cases hk : K k
      · exact .inr ⟨k, hk, hkx⟩
      · have hkx' := (same k x hk).1 hkx
        exact .inl ⟨(h.cover x).2 ⟨k, hkx'⟩, fun l hl hlx => hk (h.unique hlx hkx' ▸ hl)⟩

/-- Pieces are reshaped within the set: those named by `K` hold together what
they held before. -/
theorem reshape (h : Tiles f S) (K : κ → Prop) (same : ∀ k x, ¬ K k → (f' k x ↔ f k x))
    (unique : ∀ {k l : κ} {x : α}, K k → K l → f' k x → f' l x → k = l)
    (total : ∀ x, (∃ k, K k ∧ f' k x) ↔ ∃ k, K k ∧ f k x) : Tiles f' S := by
  refine h.replace K same unique (fun k x hk hx => .inl ((total x).1 ⟨k, hk, hx⟩)) fun x => ?_
  rw [total]
  constructor
  · intro hS
    by_cases hx : ∃ k, K k ∧ f k x
    · exact .inr hx
    · exact .inl ⟨hS, fun l hl hlx => hx ⟨l, hl, hlx⟩⟩
  · intro he
    rcases he with ⟨hS, -⟩ | ⟨k, -, hkx⟩
    · exact hS
    · exact (h.cover x).2 ⟨k, hkx⟩

/-- Only one piece changes, and by taking in what was outside the set. -/
theorem insert (h : Tiles f S) {k : κ} (same : ∀ l x, l ≠ k → (f' l x ↔ f l x)) (empty : ∀ x, ¬ f k x)
    (fresh : ∀ x, f' k x → ¬ S x) (cover : ∀ x, S' x ↔ S x ∨ f' k x) : Tiles f' S' := by
  refine h.replace (· = k) same (fun hk hl _ _ => hk.trans hl.symm) ?_ fun x => ?_
  · intro _ x he hx
    subst he
    exact .inr (fresh x hx)
  · rw [cover]
    constructor
    · intro he
      rcases he with hS | hx
      · exact .inl ⟨hS, by rintro _ rfl; exact empty x⟩
      · exact .inr ⟨k, rfl, hx⟩
    · intro he
      rcases he with ⟨hS, -⟩ | ⟨_, rfl, hx⟩
      · exact .inl hS
      · exact .inr hx

/-- One piece is given up. -/
theorem erase (h : Tiles f S) {k : κ} (same : ∀ l x, l ≠ k → (f' l x ↔ f l x)) (empty : ∀ x, ¬ f' k x)
    (cover : ∀ x, S' x ↔ S x ∧ ¬ f k x) : Tiles f' S' := by
  refine h.replace (· = k) same (fun hk hl _ _ => hk.trans hl.symm) ?_ fun x => ?_
  · intro _ x he hx
    subst he
    exact absurd hx (empty x)
  · rw [cover]
    constructor
    · intro he
      obtain ⟨hS, hx⟩ := he
      exact .inl ⟨hS, by rintro _ rfl; exact hx⟩
    · intro he
      rcases he with ⟨hS, hx⟩ | ⟨_, rfl, hx⟩
      · exact ⟨hS, hx k rfl⟩
      · exact absurd hx (empty x)

end Tiles
