/-
Extents of memory, and lists of them that share no address.

`Separate.replace` is the rule about change: an extent gives way to parts of
it. Carving, shrinking, moving from one list to another and giving up are
cases of it, up to the order of the list; `Separate.add` lets a new extent in.
-/
import Mathlib.Data.List.Perm.Basic
import Mathlib.Algebra.Ring.Nat

/-- `size` addresses from `start` on. -/
structure Extent where
  start : ℕ
  size : ℕ
deriving Repr, DecidableEq

namespace Extent

/-- No address in common. -/
def Apart (a b : Extent) : Prop := a.size = 0 ∨ b.size = 0 ∨ a.start + a.size ≤ b.start ∨ b.start + b.size ≤ a.start

/-- Every address of `a` is one of `b`. -/
def Within (a b : Extent) : Prop := a.size = 0 ∨ b.start ≤ a.start ∧ a.start + a.size ≤ b.start + b.size

instance (a b : Extent) : Decidable (a.Apart b) := inferInstanceAs (Decidable (_ ∨ _))

instance (a b : Extent) : Decidable (a.Within b) := inferInstanceAs (Decidable (_ ∨ _))

variable {a b c : Extent}

theorem Apart.symm (h : a.Apart b) : b.Apart a := by
  unfold Apart at *
  omega

theorem Apart.mono (h : a.Apart b) (hc : c.Within a) : c.Apart b := by
  unfold Apart Within at *
  omega

theorem Within.refl (a : Extent) : a.Within a := by
  unfold Within
  omega

theorem Within.trans (h : a.Within b) (hc : b.Within c) : a.Within c := by
  unfold Within at *
  omega

/-- A part of an extent is not apart from it. -/
theorem Within.not_apart (h : a.Within b) (ha : 0 < a.size) : ¬ a.Apart b := by
  unfold Apart Within at *
  omega

/-- The extents share no address. -/
def Separate (l : List Extent) : Prop := l.Pairwise Apart

namespace Separate

variable {l m : List Extent}

theorem perm (h : Separate l) (hp : l.Perm m) : Separate m := (hp.pairwise_iff Apart.symm).1 h

theorem apart (h : Separate (a :: l)) (hb : b ∈ l) : a.Apart b := List.rel_of_pairwise_cons h hb

theorem tail (h : Separate (a :: l)) : Separate l := List.Pairwise.of_cons h

theorem append (hl : Separate l) (hm : Separate m) (h : ∀ a ∈ l, ∀ b ∈ m, a.Apart b) : Separate (l ++ m) :=
  List.pairwise_append.2 ⟨hl, hm, h⟩

theorem left (h : Separate (l ++ m)) : Separate l := (List.pairwise_append.1 h).1

theorem right (h : Separate (l ++ m)) : Separate m := (List.pairwise_append.1 h).2.1

theorem across (h : Separate (l ++ m)) (ha : a ∈ l) (hb : b ∈ m) : a.Apart b := (List.pairwise_append.1 h).2.2 a ha b hb

theorem add (h : Separate l) (ha : ∀ b ∈ l, a.Apart b) : Separate (a :: l) := List.pairwise_cons.2 ⟨ha, h⟩

/-- An extent gives way to parts of it. -/
theorem replace (h : Separate (a :: l)) (hm : Separate m) (hin : ∀ b ∈ m, b.Within a) : Separate (m ++ l) :=
  hm.append h.tail fun b hb _ hc => (h.apart hc).mono (hin b hb)

/-- Each extent gives way to parts of it. -/
theorem flatMap {α : Type*} {f : α → Extent} {g : α → List Extent} {l : List α} (h : Separate (l.map f))
    (hg : ∀ x ∈ l, Separate (g x) ∧ ∀ e ∈ g x, e.Within (f x)) : Separate (l.flatMap g) := by
  induction l with
  | nil => exact List.Pairwise.nil
  | cons x l ih =>
    rw [List.map_cons] at h
    obtain ⟨hx, hin⟩ := hg x List.mem_cons_self
    have hl := ih h.tail fun y hy => hg y (List.mem_cons_of_mem x hy)
    rw [List.flatMap_cons]
    refine hx.append hl fun e he e' he' => ?_
    obtain ⟨y, hy, hey⟩ := List.mem_flatMap.1 he'
    have hxy : (f x).Apart (f y) := h.apart (List.mem_map_of_mem hy)
    exact ((hxy.mono (hin e he)).symm.mono ((hg y (List.mem_cons_of_mem x hy)).2 e' hey)).symm

/-- Extents with something in them start at different addresses. -/
theorem nodup_start (h : Separate l) (hpos : ∀ a ∈ l, 0 < a.size) : (l.map Extent.start).Nodup := by
  rw [List.nodup_iff_pairwise_ne, List.pairwise_map]
  refine List.Pairwise.imp_of_mem (fun {a b} ha hb hab he => ?_) h
  have h1 := hpos a ha
  have h2 := hpos b hb
  unfold Apart at hab
  omega

end Separate

/-! ## Extents cut from regions -/

/-- The extents share no address, and each lies in one of the regions. -/
structure Cut (regions l : List Extent) : Prop where
  separate : Separate l
  within : ∀ b ∈ l, b.size = 0 ∨ ∃ r ∈ regions, b.Within r

namespace Cut

variable {regions l m : List Extent}

theorem perm (h : Cut regions l) (hp : l.Perm m) : Cut regions m :=
  ⟨h.separate.perm hp, fun b hb => h.within b (hp.mem_iff.2 hb)⟩

theorem tail (h : Cut regions (a :: l)) : Cut regions l :=
  ⟨h.separate.tail, fun b hb => h.within b (List.mem_cons_of_mem a hb)⟩

/-- An extent gives way to parts of it. -/
theorem replace (h : Cut regions (a :: l)) (hm : Separate m) (hin : ∀ b ∈ m, b.Within a) : Cut regions (m ++ l) := by
  refine ⟨h.separate.replace hm hin, fun b hb => ?_⟩
  rcases List.mem_append.1 hb with hb | hb
  · rcases h.within a List.mem_cons_self with ha | ⟨r, hr, hw⟩
    · have := hin b hb
      unfold Within at this
      exact .inl (by omega)
    · exact .inr ⟨r, hr, (hin b hb).trans hw⟩
  · exact h.within b (List.mem_cons_of_mem a hb)

/-- An extent without addresses is nowhere. -/
theorem empty (h : Cut regions l) (ha : a.size = 0) : Cut regions (a :: l) := by
  refine ⟨h.separate.add fun b _ => .inl ha, fun b hb => ?_⟩
  rcases List.mem_cons.1 hb with rfl | hb
  · exact .inl ha
  · exact h.within b hb

/-- A new region, used whole. -/
theorem enter (h : Cut regions l) (ha : ∀ r ∈ regions, a.Apart r) : Cut (a :: regions) (a :: l) := by
  refine ⟨h.separate.add fun b hb => ?_, fun b hb => ?_⟩
  · rcases h.within b hb with hz | ⟨r, hr, hw⟩
    · exact .inr (.inl hz)
    · exact ((ha r hr).symm.mono hw).symm
  · rcases List.mem_cons.1 hb with rfl | hb
    · exact .inr ⟨b, List.mem_cons_self, .refl b⟩
    · rcases h.within b hb with hz | ⟨r, hr, hw⟩
      · exact .inl hz
      · exact .inr ⟨r, List.mem_cons_of_mem a hr, hw⟩

/-- A region that is used whole is given up. -/
theorem leave (h : Cut regions (a :: l)) : Cut (regions.erase a) l := by
  refine ⟨h.separate.tail, fun b hb => ?_⟩
  rcases h.within b (List.mem_cons_of_mem a hb) with hz | ⟨r, hr, hw⟩
  · exact .inl hz
  by_cases hb0 : b.size = 0
  · exact .inl hb0
  refine .inr ⟨r, ?_, hw⟩
  rw [List.mem_erase_of_ne]
  · exact hr
  · intro he
    exact hw.not_apart (by omega) (he ▸ (h.separate.apart hb).symm)

end Cut

/-! ## Pieces in a row -/

/-- `k` extents of `n` addresses each, the first at `p`. -/
def pieces (n : ℕ) : ℕ → ℕ → List Extent
  | _, 0 => []
  | p, k + 1 => ⟨p, n⟩ :: pieces n (p + n) k

variable {n : ℕ}

theorem pieces_within : ∀ (k p : ℕ), ∀ b ∈ pieces n p k, b.Within ⟨p, n * k⟩
  | 0, p, b, hb => by cases hb
  | k + 1, p, b, hb => by
    rw [pieces, List.mem_cons] at hb
    rw [Nat.mul_succ]
    rcases hb with rfl | hb
    · unfold Within
      simp only
      omega
    · have := pieces_within k (p + n) b hb
      unfold Within at *
      simp only at *
      omega

theorem pieces_separate : ∀ (k p : ℕ), Separate (pieces n p k)
  | 0, _ => List.Pairwise.nil
  | k + 1, p => by
    refine (pieces_separate k (p + n)).add fun b hb => ?_
    have := pieces_within k (p + n) b hb
    unfold Within at this
    unfold Apart
    simp only at *
    omega

end Extent
