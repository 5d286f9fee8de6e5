/-
Raw memory for objects of one type, counted in elements. A cell that is not
allocated is `none`, an allocated one without an object `some none`.

`block` is the memory of one array that is filled from its start; the operations on the
first free place and on the last object lead from block to block. `beside` puts one memory
before another, for the time when an array is moved.
-/
import Mathlib.Data.List.Basic
import Mathlib.Logic.Function.Basic

abbrev Cells (α : Type*) := ℕ → Option (Option α)

namespace Cells

variable {α : Type*}

def read (m : Cells α) (p : ℕ) : Option α := (m p).join

/-- Defined on raw memory alone: an object is never constructed over another. -/
def construct (m : Cells α) (p : ℕ) (a : α) : Option (Cells α) :=
  match m p with
  | some none => some (Function.update m p (some (some a)))
  | _ => none

def destroy (m : Cells α) (p : ℕ) : Option (Cells α) :=
  match m p with
  | some (some _) => some (Function.update m p (some none))
  | _ => none

def allocate (m : Cells α) (base n : ℕ) : Cells α := fun p => if base ≤ p ∧ p < base + n then some none else m p

def deallocate (m : Cells α) (base n : ℕ) : Cells α := fun p => if base ≤ p ∧ p < base + n then none else m p

/-! ## One array -/

/-- `n` cells from `base`, the first of them with the items. -/
def block (base n : ℕ) (items : List α) : Cells α :=
  fun p => if base ≤ p ∧ p < base + n then some items[p - base]? else none

section

variable {base n k : ℕ} {items : List α} {a : α}

theorem block_add (hk : k < n) : block base n items (base + k) = some items[k]? := by
  rw [block, if_pos ⟨Nat.le_add_right _ _, Nat.add_lt_add_left hk _⟩, Nat.add_sub_cancel_left]

theorem block_eq_none {p : ℕ} : block base n items p = none ↔ ¬ (base ≤ p ∧ p < base + n) := by
  rw [block]
  split
  · rename_i hin
    exact iff_of_false (fun h => Option.some_ne_none _ h) (not_not_intro hin)
  · rename_i hout
    exact iff_of_true rfl hout

theorem block_zero (base : ℕ) (items : List α) : block base 0 items = fun _ => none := by
  funext p
  exact block_eq_none.2 (by omega)

theorem read_block (hk : k < items.length) (hn : items.length ≤ n) :
    read (block base n items) (base + k) = items[k]? := by
  rw [read, block_add (Nat.lt_of_lt_of_le hk hn), Option.join_some]

/-- Memory that differs from a block in one cell is the block of other items. -/
theorem update_block (base : ℕ) {items' : List α} (hk : k < n) (hsame : ∀ j, j ≠ k → items[j]? = items'[j]?) :
    Function.update (block base n items) (base + k) (some items'[k]?) = block base n items' := by
  funext p
  by_cases hp : p = base + k
  · subst hp
    rw [Function.update_self, block_add hk]
  · rw [Function.update_of_ne hp, block, block]
    split
    · rename_i hin
      rw [hsame _ (by omega)]
    · rfl

theorem getElem?_concat_ne {j : ℕ} (hj : j ≠ items.length) : (items ++ [a])[j]? = items[j]? := by
  rcases Nat.lt_or_gt_of_ne hj with hlt | hgt
  · rw [List.getElem?_append_left hlt]
  · have hlen : (items ++ [a]).length ≤ j := by
      rw [List.length_append, List.length_singleton]
      omega
    rw [List.getElem?_eq_none hlen, List.getElem?_eq_none (by omega)]

/-- An object constructed behind the others. -/
theorem construct_block (hn : items.length < n) :
    construct (block base n items) (base + items.length) a = some (block base n (items ++ [a])) := by
  have hraw : block base n items (base + items.length) = some none := by
    rw [block_add hn, List.getElem?_eq_none (Nat.le_refl _)]
  have hupdate := update_block base hn fun j hj => (getElem?_concat_ne (a := a) hj).symm
  rw [List.getElem?_concat_length] at hupdate
  rw [construct, hraw]
  exact congrArg some hupdate

/-- The last object destroyed. -/
theorem destroy_block (hn : items.length < n) :
    destroy (block base n (items ++ [a])) (base + items.length) = some (block base n items) := by
  have hobject : block base n (items ++ [a]) (base + items.length) = some (some a) := by
    rw [block_add hn, List.getElem?_concat_length]
  have hupdate := update_block base hn fun j hj => getElem?_concat_ne (a := a) hj
  rw [List.getElem?_eq_none (Nat.le_refl _)] at hupdate
  rw [destroy, hobject]
  exact congrArg some hupdate

end

/-! ## Two arrays -/

/-- `m` before what it does not have. -/
def beside (m r : Cells α) : Cells α := fun p => (m p).or (r p)

theorem beside_of_none {m r : Cells α} {p : ℕ} (h : m p = none) : beside m r p = r p := by
  rw [beside, h, Option.none_or]

theorem beside_of_some {m r : Cells α} {p : ℕ} {o : Option α} (h : m p = some o) : beside m r p = some o := by
  rw [beside, h, Option.some_or]

theorem beside_empty (m : Cells α) : beside m (fun _ => none) = m := by
  funext p
  exact Option.or_none

theorem allocate_eq (m : Cells α) (base n : ℕ) : allocate m base n = beside (block base n []) m := by
  funext p
  rw [allocate, beside, block]
  split
  · rw [List.getElem?_nil, Option.some_or]
  · rw [Option.none_or]

theorem read_beside {m r : Cells α} {p : ℕ} (h : m p = none) : read (beside m r) p = read r p := by
  rw [read, beside_of_none h, read]

theorem construct_beside {m m' r : Cells α} {p : ℕ} {a : α} (h : construct m p a = some m') :
    construct (beside m r) p a = some (beside m' r) := by
  unfold construct at h
  split at h
  · rename_i hraw
    cases h
    rw [construct, beside_of_some hraw]
    refine congrArg some (funext fun q => ?_)
    by_cases hq : q = p
    · subst hq
      rw [Function.update_self, beside_of_some (Function.update_self ..)]
    · rw [Function.update_of_ne hq, beside, beside, Function.update_of_ne hq]
  · cases h

/-! ## Arrays destroyed and given back -/

theorem allocate_zero (m : Cells α) (base : ℕ) : allocate m base 0 = m := by
  funext p
  exact if_neg (by omega)

theorem destroy_eq {m : Cells α} {p : ℕ} {a : α} (h : m p = some (some a)) :
    destroy m p = some (Function.update m p (some none)) := by
  rw [destroy, h]

theorem allocate_succ (m : Cells α) (base n : ℕ) :
    Function.update (allocate m base n) (base + n) (some none) = allocate m base (n + 1) := by
  funext p
  by_cases hp : p = base + n
  · subst hp
    rw [Function.update_self, allocate, if_pos (by omega)]
  · rw [Function.update_of_ne hp, allocate, allocate]
    split
    · rw [if_pos (by omega)]
    · rw [if_neg (by omega)]

theorem deallocate_allocate {m : Cells α} {base k n : ℕ} (hk : k ≤ n) :
    deallocate (allocate m base k) base n = deallocate m base n := by
  funext p
  rw [deallocate, deallocate]
  split
  · rfl
  · rw [allocate, if_neg (by omega)]

/-- What is under another memory goes back as a whole. -/
theorem deallocate_beside {m : Cells α} {base n : ℕ} (items : List α) (h : ∀ j < n, m (base + j) = none) :
    deallocate (beside m (block base n items)) base n = m := by
  funext p
  rw [deallocate]
  split
  · rename_i hin
    have hp := h (p - base) (by omega)
    rw [Nat.add_sub_cancel' hin.1] at hp
    exact hp.symm
  · rename_i hout
    rw [beside, block_eq_none.2 hout, Option.or_none]

end Cells
