/-
Blocks of `myallocator` that are given back. `allocate` takes the list for
`n * sizeof(T)` bytes, `deallocate` the list for `n`.

`run_reused_iff`: in every state that can be reached, a block is there for the next
request of as many elements exactly when the two find the same list, or both go to
`malloc`.
-/
import Learncc.Public.AllocatorRun

namespace Learncc.MyAllocator

/-- The block `p` for `n` elements, allocated in `before` with `after` the result, is
whole again once it is given back: to `malloc`, or at the front of the list from which
the next request of `n` elements takes it. Allocating it again asks nothing of `malloc`
and giving it back leads to the same state, so no number of repetitions loses memory. -/
structure Reused (elem n p : ℕ) (before after : MyAllocator) : Prop where
  large : MAX_BYTES < n * elem → (after.deallocate elem p n).mallocs = before.mallocs
  first : n * elem ≤ MAX_BYTES → (after.deallocate elem p n).freeList (freelistIndex (n * elem)) = p
  again : n * elem ≤ MAX_BYTES → ∀ answers, ∃ t,
    (after.deallocate elem p n).allocate elem n answers = some (t, some p) ∧
      t.mallocs = (after.deallocate elem p n).mallocs ∧ t.deallocate elem p n = after.deallocate elem p n

/-- `deallocate` files a block for `n` elements where `allocate` looks for it. -/
def SameClass (elem n : ℕ) : Prop :=
  MAX_BYTES < n ∨ n * elem ≤ MAX_BYTES ∧ freelistIndex n = freelistIndex (n * elem)

instance (elem n : ℕ) : Decidable (SameClass elem n) := inferInstanceAs (Decidable (_ ∨ _))

variable {elem n p : ℕ} {s s' : MyAllocator} {answers : Answers}

/-- A large block is from `malloc`. -/
theorem allocate_large (hbig : MAX_BYTES < n * elem) (hlt : n * elem < 2 ^ 64)
    (ha : s.allocate elem n answers = some (s', some p)) :
    s' = { s with mallocs := ⟨p, n * elem⟩ :: s.mallocs } := by
  have hbytes : size64 (n * elem) = n * elem := Nat.mod_eq_of_lt hlt
  simp only [allocate, hbytes, if_pos hbig] at ha
  obtain ⟨⟨t, r, rest⟩, hm, he⟩ := Option.map_eq_some_iff.1 ha
  cases he
  rcases malloc_cases hm with ⟨hr, -⟩ | ⟨q, hq, -, ht⟩
  · cases hr
  · cases hq
    exact ht

/-- What is at the front of its list is the next block. -/
theorem allocate_front (hsmall : n * elem ≤ MAX_BYTES) (hne : s.freeList (freelistIndex (n * elem)) ≠ 0) :
    s.allocate elem n answers =
      some (s.pop (freelistIndex (n * elem)), some (s.freeList (freelistIndex (n * elem)))) := by
  have hbytes : size64 (n * elem) = n * elem := by
    unfold MAX_BYTES at hsmall
    exact Nat.mod_eq_of_lt (by omega)
  simp only [allocate, hbytes, if_neg (Nat.not_lt.2 hsmall), if_neg hne]

theorem push_front (s : MyAllocator) (p : ℕ) {i j : ℕ} (h : i = j) : (s.push i p).freeList j = p := by
  subst h
  exact Function.update_self ..

/-- Taking a block that was put back and putting it back again changes nothing. -/
theorem push_pop_push (s : MyAllocator) (p : ℕ) {i j : ℕ} (h : i = j) : ((s.push i p).pop j).push i p = s.push i p := by
  subst h
  simp only [pop, push, Function.update_self, Function.update_idem]

theorem reused_large (hbig : MAX_BYTES < n * elem) (hlt : n * elem < 2 ^ 64)
    (ha : s.allocate elem n answers = some (s', some p)) : Reused elem n p s s' ↔ MAX_BYTES < n := by
  obtain rfl := allocate_large hbig hlt ha
  have hno : ¬ n * elem ≤ MAX_BYTES := Nat.not_le.2 hbig
  constructor
  · intro h
    by_contra hn
    -- The block is filed, and `malloc` never has it back.
    have hback := h.large hbig
    rw [deallocate, if_neg hn] at hback
    exact List.cons_ne_self _ _ hback
  · intro hn
    refine ⟨fun _ => ?_, fun hle => absurd hle hno, fun hle => absurd hle hno⟩
    rw [deallocate, if_pos hn]
    exact List.erase_cons_head ..

theorem reused_small {L : ℕ → List ℕ} (h : Inv elem s L) (hn : 0 < n) (helem : 0 < elem) (hsmall : n * elem ≤ MAX_BYTES)
    (ha : s.allocate elem n answers = some (s', some p)) :
    Reused elem n p s s' ↔ freelistIndex n = freelistIndex (n * elem) := by
  have hpos : 0 < n * elem := Nat.mul_pos hn helem
  have hle : n ≤ n * elem := Nat.le_mul_of_pos_right n helem
  have hno : ¬ MAX_BYTES < n * elem := Nat.not_lt.2 hsmall
  have hlt : n * elem < 2 ^ 64 := by
    unfold MAX_BYTES at hsmall
    omega
  have hfile : s'.deallocate elem p n = s'.push (freelistIndex n) p := by
    rw [deallocate, if_neg (by omega)]
  obtain ⟨L', -, ⟨hr, -⟩ | ⟨q, hq, hinv, -⟩⟩ := allocate_spec h hpos hlt ha
  · cases hr
  cases hq
  have howned : 0 < owned elem n := Nat.lt_of_lt_of_le hpos (owned_ge elem n)
  have hi := freelistIndex_lt hpos hsmall
  constructor
  · intro hr
    by_contra hne
    have hfirst := hr.first hsmall
    rw [hfile, push] at hfirst
    simp only [Function.update_of_ne (Ne.symm hne)] at hfirst
    -- Then the block would have been on the list while the user had it.
    have hlinked := hinv.held.linked _ hi
    obtain ⟨l, hl, -⟩ := hlinked.uncons (hfirst ▸ hinv.held.ne_zero howned)
    have hnot := hinv.held.not_mem howned hi
    rw [hl, hfirst] at hnot
    exact hnot List.mem_cons_self
  · intro heq
    have hfront : (s'.push (freelistIndex n) p).freeList (freelistIndex (n * elem)) = p := push_front s' p heq
    have hagain := push_pop_push s' p heq
    refine ⟨fun hbig => absurd hbig hno, fun _ => ?_, fun _ answers' => ?_⟩
    · rw [hfile]
      exact hfront
    · have hne : (s'.push (freelistIndex n) p).freeList (freelistIndex (n * elem)) ≠ 0 := by
        rw [hfront]
        exact hinv.held.ne_zero howned
      have hnext : (s'.push (freelistIndex n) p).allocate elem n answers' = _ := allocate_front hsmall hne
      rw [hfront] at hnext
      rw [hfile]
      refine ⟨_, hnext, rfl, ?_⟩
      rw [deallocate, if_neg (by omega)]
      exact hagain

/-- **A block comes back whole exactly when both calls name one class.** In every state
that can be reached, for every element size and count, and whatever `malloc` answers. -/
theorem run_reused_iff (helem : 0 < elem) {link : ℕ → ℕ} {ops : List Op}
    (h : Run.run (step elem) (init link) ops = some s) (hn : 0 < n) (hlt : n * elem < 2 ^ 64)
    (ha : s.allocate elem n answers = some (s', some p)) : Reused elem n p s s' ↔ SameClass elem n := by
  obtain ⟨L, hinv⟩ := run_inv helem h
  have hle : n ≤ n * elem := Nat.le_mul_of_pos_right n helem
  unfold SameClass
  by_cases hbig : MAX_BYTES < n * elem
  · rw [reused_large hbig hlt ha]
    exact (or_iff_left fun hs => absurd hbig (Nat.not_lt.2 hs.1)).symm
  · have hsmall := Nat.not_lt.1 hbig
    rw [reused_small hinv hn helem hsmall ha]
    constructor
    · exact fun heq => .inr ⟨hsmall, heq⟩
    · intro hc
      rcases hc with hmax | ⟨-, heq⟩
      · exact absurd (Nat.lt_of_lt_of_le hmax hle) hbig
      · exact heq

/-- Twelve elements of one byte: both calls find the list for 16 bytes. -/
theorem run_reused_iff_bytes :
    ∃ s', (init fun _ => 0).allocate 1 12 [some 4096] = some (s', some 4096) ∧
      Reused 1 12 4096 (init fun _ => 0) s' := by
  have hrun : ((init fun _ => 0).allocate 1 12 [some 4096]).map Prod.snd = some (some 4096) := by
    decide +kernel
  obtain ⟨⟨s', r⟩, hs, hr⟩ := Option.map_eq_some_iff.1 hrun
  cases hr
  have hstart : Run.run (step 1) (init fun _ => 0) [] = some (init fun _ => 0) := rfl
  exact ⟨s', hs, (run_reused_iff (by decide) hstart (by decide) (by decide) hs).2 (by decide)⟩

/-- Forty elements of 4 bytes are from `malloc`, and are filed among the blocks of 40. -/
theorem not_reused_ints :
    ∃ s', (init fun _ => 0).allocate 4 40 [some 65536] = some (s', some 65536) ∧
      ¬ Reused 4 40 65536 (init fun _ => 0) s' := by
  have hrun : ((init fun _ => 0).allocate 4 40 [some 65536]).map Prod.snd = some (some 65536) := by
    decide +kernel
  obtain ⟨⟨s', r⟩, hs, hr⟩ := Option.map_eq_some_iff.1 hrun
  cases hr
  refine ⟨s', hs, fun h => ?_⟩
  have hbig := (reused_large (by decide) (by decide) hs).1 h
  exact absurd hbig (by decide)

end Learncc.MyAllocator
