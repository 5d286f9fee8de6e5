/-
`size_class` (inc/memory_pool/comm.h): request sizes, their classes and the
batches they move in. `size_t` arithmetic is modulo `2^64`, which shows at the
two ends: a request of nothing, and one that rounds past the top.

`index_injective`: on the sizes `round_up` yields, the list index names the
size, so what is filed under an index is all of one size.
-/
import Mathlib.Data.Nat.Bitwise
import Mathlib.Tactic.IntervalCases

namespace Learncc

def NLISTS : ℕ := 240

def MAXBYTES : ℕ := 64 * 1024

def PAGESHIFT : ℕ := 12

def NPAGES : ℕ := 129

/-- Reduction to a `size_t`. -/
def size64 (n : ℕ) : ℕ := n % 2 ^ 64

/-- `--` on a `size_t`. -/
def dec64 (n : ℕ) : ℕ := size64 (n + (2 ^ 64 - 1))

/-- Why an operation of the pool does not return: `mmap` failed
(`std::bad_alloc`), an `assert` failed, or the code did something undefined
(followed a null or deleted pointer, unlinked a span from a list it is not
in, left an array, went round a loop for ever). -/
inductive Fault
  | badAlloc
  | assertion
  | undefined
deriving Repr, DecidableEq

/-- An `assert`. -/
def check (p : Prop) [Decidable p] : Except Fault Unit := if p then .ok () else .error .assertion

/-- A sequence returns when its first part does and then its second. -/
theorem bind_ok {α β : Type} {x : Except Fault α} {f : α → Except Fault β} {b : β} :
    (x >>= f) = .ok b ↔ ∃ a, x = .ok a ∧ f a = .ok b := by
  cases x with
  | error e => simp [bind, Except.bind]
  | ok a => simp [bind, Except.bind]

theorem toOption_eq_some {α : Type} {x : Except Fault α} {a : α} : x.toOption = some a ↔ x = .ok a := by
  cases x with
  | error e => simp [Except.toOption]
  | ok b => simp [Except.toOption]

namespace SizeClass

/-- `(size + align - 1) & ~(align - 1)`. -/
def roundUpTo (size align : ℕ) : ℕ := size64 (size + align - 1) &&& (2 ^ 64 - align)

def roundUp (size : ℕ) : Except Fault ℕ :=
  if size ≤ MAXBYTES then
    .ok (if size ≤ 128 then roundUpTo size 8
      else if size ≤ 1024 then roundUpTo size 16
      else if size ≤ 8 * 1024 then roundUpTo size 128
      else roundUpTo size 512)
  else .error .assertion

def indexIn (bytes alignShift : ℕ) : ℕ := dec64 (size64 (bytes + 2 ^ alignShift - 1) / 2 ^ alignShift)

def index (bytes : ℕ) : Except Fault ℕ :=
  if bytes < MAXBYTES then
    .ok (if bytes ≤ 128 then indexIn bytes 3
      else if bytes ≤ 1024 then indexIn (bytes - 128) 4 + 16
      else if bytes ≤ 8 * 1024 then indexIn (bytes - 1024) 7 + 56 + 16
      else indexIn (bytes - 8 * 1024) 9 + 56 + 56 + 16)
  else .error .assertion

/-- How many blocks move between the caches at once. -/
def moveNum (size : ℕ) : ℕ := if size = 0 then 0 else min 512 (max 2 (MAXBYTES / size))

/-- How many pages a span of blocks has. -/
def movePage (size : ℕ) : ℕ :=
  let npage := size64 (moveNum size * size) / 2 ^ PAGESHIFT
  if npage = 0 then 1 else npage

/-! ## Rounding -/

theorem land_highBits {x k : ℕ} (hx : x < 2 ^ 64) (hk : k ≤ 64) : x &&& (2 ^ 64 - 2 ^ k) = x / 2 ^ k * 2 ^ k := by
  have hmask : 2 ^ 64 - 2 ^ k = (2 ^ (64 - k) - 1) <<< k := by
    rw [Nat.shiftLeft_eq, Nat.sub_mul, ← Nat.pow_add, Nat.one_mul, Nat.sub_add_cancel hk]
  rw [hmask, ← Nat.shiftRight_eq_div_pow, ← Nat.shiftLeft_eq]
  apply Nat.eq_of_testBit_eq
  intro i
  simp only [Nat.testBit_and, Nat.testBit_shiftLeft, Nat.testBit_two_pow_sub_one, Nat.testBit_shiftRight]
  by_cases hi : k ≤ i
  · by_cases h64 : i < 64
    · simp [hi]; omega
    · have hpow : 2 ^ 64 ≤ 2 ^ i := Nat.pow_le_pow_right (by decide) (by omega)
      have hbit : x.testBit i = false := Nat.testBit_lt_two_pow (Nat.lt_of_lt_of_le hx hpow)
      simp [hbit, hi]
  · simp [hi]

/-- Rounding to a power of two, short of the top. -/
theorem roundUpTo_eq (size k : ℕ) (hk : k ≤ 64) (hs : size + 2 ^ k - 1 < 2 ^ 64) :
    roundUpTo size (2 ^ k) = (size + 2 ^ k - 1) / 2 ^ k * 2 ^ k := by
  rw [roundUpTo, size64, Nat.mod_eq_of_lt hs, land_highBits hs hk]

theorem dec64_eq {n : ℕ} (h0 : 0 < n) (h : n < 2 ^ 64) : dec64 n = n - 1 := by
  unfold dec64 size64
  omega

theorem indexIn_eq {bytes k : ℕ} (h0 : 0 < bytes) (hb : bytes + 2 ^ k - 1 < 2 ^ 64) :
    indexIn bytes k = (bytes + 2 ^ k - 1) / 2 ^ k - 1 := by
  have hpos : 0 < (bytes + 2 ^ k - 1) / 2 ^ k := Nat.div_pos (by omega) (Nat.two_pow_pos k)
  have hlt : (bytes + 2 ^ k - 1) / 2 ^ k < 2 ^ 64 := Nat.lt_of_le_of_lt (Nat.div_le_self _ _) hb
  rw [indexIn, size64, Nat.mod_eq_of_lt hb, dec64_eq hpos hlt]

/-! ## Classes -/

/-- The sizes of the classes a request below the cut-off can fall in. -/
structure IsClass (b : ℕ) : Prop where
  pos : 0 < b
  le : b ≤ 65024
  aligned : if b ≤ 128 then b % 8 = 0 else if b ≤ 1024 then b % 16 = 0 else if b ≤ 8192 then b % 128 = 0
    else b % 512 = 0

theorem roundUp_class {size : ℕ} (h0 : 0 < size) (hs : size ≤ 65024) :
    ∃ b, roundUp size = .ok b ∧ size ≤ b ∧ IsClass b := by
  have hmax : size ≤ MAXBYTES := by unfold MAXBYTES; omega
  have h8 := roundUpTo_eq size 3 (by decide) (by omega)
  have h16 := roundUpTo_eq size 4 (by decide) (by omega)
  have h128 := roundUpTo_eq size 7 (by decide) (by omega)
  have h512 := roundUpTo_eq size 9 (by decide) (by omega)
  norm_num at h8 h16 h128 h512
  refine ⟨_, if_pos hmax, ?_, ?_⟩
  · split
    · omega
    · split
      · omega
      · split <;> omega
  · split
    · exact ⟨by omega, by omega, by split <;> (try split) <;> (try split) <;> omega⟩
    · split
      · exact ⟨by omega, by omega, by split <;> (try split) <;> (try split) <;> omega⟩
      · split
        · exact ⟨by omega, by omega, by split <;> (try split) <;> (try split) <;> omega⟩
        · exact ⟨by omega, by omega, by split <;> (try split) <;> (try split) <;> omega⟩

/-- The list index of a class, without the `size_t` arithmetic. -/
def classIndex (b : ℕ) : ℕ :=
  if b ≤ 128 then b / 8 - 1
  else if b ≤ 1024 then (b - 128) / 16 + 15
  else if b ≤ 8192 then (b - 1024) / 128 + 71
  else (b - 8192) / 512 + 127

theorem index_eq {b : ℕ} (h : IsClass b) : index b = .ok (classIndex b) := by
  obtain ⟨hpos, hle, hal⟩ := h
  have hmax : b < MAXBYTES := by unfold MAXBYTES; omega
  simp only [index, if_pos hmax, Except.ok.injEq, classIndex]
  split
  · rw [indexIn_eq (by omega) (by omega)]
    simp only [if_pos ‹b ≤ 128›] at hal
    omega
  · rename_i h1
    simp only [if_neg h1] at hal
    split
    · rename_i h2
      simp only [if_pos h2] at hal
      rw [indexIn_eq (by omega) (by omega)]
      omega
    · rename_i h2
      simp only [if_neg h2] at hal
      split
      · rename_i h3
        rw [indexIn_eq (by omega) (by omega)]
        simp only [if_pos h3] at hal
        omega
      · rename_i h3
        rw [indexIn_eq (by omega) (by omega)]
        simp only [if_neg h3] at hal
        omega

theorem classIndex_lt {b : ℕ} (h : IsClass b) : classIndex b < NLISTS := by
  obtain ⟨hpos, hle, -⟩ := h
  unfold classIndex NLISTS
  split
  · omega
  · split
    · omega
    · split <;> omega

theorem classIndex_injective {b c : ℕ} (hb : IsClass b) (hc : IsClass c) (h : classIndex b = classIndex c) : b = c := by
  obtain ⟨hb0, hb1, hb2⟩ := hb
  obtain ⟨hc0, hc1, hc2⟩ := hc
  unfold classIndex at h
  split_ifs at h hb2 hc2 <;> omega

theorem moveNum_pos {b : ℕ} (h : IsClass b) : 0 < moveNum b := by
  have := h.pos
  unfold moveNum
  rw [if_neg (by omega)]
  omega

/-- A span of blocks comes from the page lists. -/
theorem movePage_range {b : ℕ} (h : IsClass b) : 0 < movePage b ∧ movePage b < NPAGES := by
  obtain ⟨hpos, hle, -⟩ := h
  have hmul : moveNum b * b ≤ 130048 := by
    unfold moveNum MAXBYTES
    rw [if_neg (by omega)]
    rcases Nat.le_total (64 * 1024 / b) 2 with h2 | h2
    · rw [Nat.max_eq_left h2, Nat.min_eq_right (by decide)]
      omega
    · rw [Nat.max_eq_right h2]
      calc min 512 (64 * 1024 / b) * b ≤ 64 * 1024 / b * b := Nat.mul_le_mul_right _ (Nat.min_le_right _ _)
        _ ≤ 64 * 1024 := Nat.div_mul_le_self _ _
        _ ≤ 130048 := by decide
  unfold movePage NPAGES PAGESHIFT size64
  dsimp only
  split <;> omega

end SizeClass

end Learncc
