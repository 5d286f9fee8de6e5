/-
`myallocator` (inc/public/myallocator.h): blocks of up to 128 bytes from
sixteen free lists, which are filled from a reserve, which is filled by
`malloc`; larger blocks straight from `malloc`.

`run_safe`: whatever `malloc` answers, the blocks on the lists, the blocks
handed out and the reserve share no byte, and a block on a list has the bytes
that the list is for.
-/
import Learncc.Lib.Extents
import Learncc.Lib.Linked
import Learncc.Lib.Run
import Learncc.MemoryPool.SizeClass

namespace Learncc

/-- The static members of `myallocator<T>`; an `_Obj` is known by its address,
and `link` is its `_M_free_list_link`. Beside them, what the users hold (the
address with the `__n` it was allocated with) and what `malloc` has given. -/
structure MyAllocator where
  freeList : ℕ → ℕ
  link : ℕ → ℕ
  startFree : ℕ
  endFree : ℕ
  heapSize : ℕ
  live : List (ℕ × ℕ)
  mallocs : List Extent

namespace MyAllocator

def ALIGN : ℕ := 8

def MAX_BYTES : ℕ := 128

def NFREELISTS : ℕ := 16

def roundUp (bytes : ℕ) : ℕ := SizeClass.roundUpTo bytes ALIGN

def freelistIndex (bytes : ℕ) : ℕ := dec64 (size64 (bytes + ALIGN - 1) / ALIGN)

/-- What memory holds at first is not known. -/
def init (link : ℕ → ℕ) : MyAllocator :=
  { freeList := fun _ => 0, link := link, startFree := 0, endFree := 0, heapSize := 0, live := [], mallocs := [] }

/-! ## `malloc` -/

/-- A block that `malloc` may give: aligned, and clear of all it has given. -/
def Fresh (mallocs : List Extent) (e : Extent) : Prop :=
  0 < e.start ∧ e.start % ALIGN = 0 ∧ e.start + e.size < 2 ^ 64 ∧ ∀ r ∈ mallocs, e.Apart r

instance (mallocs : List Extent) (e : Extent) : Decidable (Fresh mallocs e) := inferInstanceAs (Decidable (_ ∧ _))

/-- What the calls of `malloc` answer, in turn: an address, or null. -/
abbrev Answers := List (Option ℕ)

def malloc (s : MyAllocator) (bytes : ℕ) : Answers → Option (MyAllocator × Option ℕ × Answers)
  | [] => none
  | none :: rest => some (s, none, rest)
  | some p :: rest =>
    if Fresh s.mallocs ⟨p, bytes⟩ then some ({ s with mallocs := ⟨p, bytes⟩ :: s.mallocs }, some p, rest) else none

/-! ## The free lists -/

/-- `*__my_free_list = __p -> _M_free_list_link`. -/
def pop (s : MyAllocator) (i : ℕ) : MyAllocator :=
  { s with freeList := Function.update s.freeList i (s.link (s.freeList i)) }

def push (s : MyAllocator) (i p : ℕ) : MyAllocator :=
  { s with
    link := Function.update s.link p (s.freeList i)
    freeList := Function.update s.freeList i p }

/-- The loop of `_S_refill`: `k + 1` objects of `n` bytes in a row become a
list. -/
def linkObjs (n : ℕ) : ℕ → ℕ → (ℕ → ℕ) → ℕ → ℕ
  | 0, current, link => Function.update link current 0
  | k + 1, current, link => linkObjs n k (current + n) (Function.update link current (current + n))

/-! ## The reserve -/

/-- `_S_end_free - _S_start_free`, a `size_t`. -/
def bytesLeft (s : MyAllocator) : ℕ := size64 (s.endFree + 2 ^ 64 - s.startFree)

/-- `_S_chunk_alloc` where there is enough for one object: where they start,
and how many they are. -/
def chunkFrom (s : MyAllocator) (size nobjs : ℕ) : MyAllocator × ℕ × ℕ :=
  if size * nobjs ≤ s.bytesLeft then ({ s with startFree := s.startFree + size * nobjs }, s.startFree, nobjs)
  else
    ({ s with startFree := s.startFree + size * (s.bytesLeft / size) }, s.startFree, s.bytesLeft / size)

/-- The left-over piece goes to a list. -/
def fileLeftover (s : MyAllocator) : MyAllocator :=
  if 0 < s.bytesLeft then s.push (freelistIndex s.bytesLeft) s.startFree else s

/-- The loop over the lists, from objects of `i` bytes on. -/
def findObj (s : MyAllocator) : ℕ → ℕ → Option ℕ
  | 0, _ => none
  | k + 1, i =>
    if i ≤ MAX_BYTES then
      if s.freeList (freelistIndex i) ≠ 0 then some i else s.findObj k (i + ALIGN)
    else none

def setReserve (s : MyAllocator) (p bytes : ℕ) : MyAllocator := { s with startFree := p, endFree := p + bytes }

/-- A new reserve from `malloc`. -/
def grown (s : MyAllocator) (p bytes : ℕ) : MyAllocator :=
  { s.setReserve p bytes with heapSize := size64 (s.heapSize + bytes) }

def bytesToGet (s : MyAllocator) (size nobjs : ℕ) : ℕ := 2 * (size * nobjs) + roundUp (s.heapSize / 2 ^ 4)

/-- `_S_chunk_alloc` where there is not enough, up to its recursive call;
`false` stands for `std::bad_alloc`. -/
def grow (s : MyAllocator) (size nobjs : ℕ) (answers : Answers) : Option (MyAllocator × Bool) :=
  let bytes := s.bytesToGet size nobjs
  match s.fileLeftover.malloc bytes answers with
  | none => none
  | some (s, some p, _) => some (s.grown p bytes, true)
  | some (s, none, answers) =>
    match s.findObj NFREELISTS size with
    | some i => some ((s.pop (freelistIndex i)).setReserve (s.freeList (freelistIndex i)) i, true)
    | none =>
      -- `_S_end_free` is cleared first; `malloc_alloc::allocate` asks once more.
      match (s.setReserve 0 0).malloc bytes answers with
      | none => none
      | some (s, some p, _) => some (s.grown p bytes, true)
      | some (s, none, _) => some (s, false)

/-- The recursive call finds enough, so it goes no deeper (`chunkAllocRec_eq`). -/
def chunkAlloc (s : MyAllocator) (size nobjs : ℕ) (answers : Answers) : Option (MyAllocator × Option (ℕ × ℕ)) :=
  if size ≤ s.bytesLeft then some ((s.chunkFrom size nobjs).1, some (s.chunkFrom size nobjs).2)
  else
    match s.grow size nobjs answers with
    | none => none
    | some (s, false) => some (s, none)
    | some (s, true) => some ((s.chunkFrom size nobjs).1, some (s.chunkFrom size nobjs).2)

def refill (s : MyAllocator) (n : ℕ) (answers : Answers) : Option (MyAllocator × Option ℕ) :=
  match s.chunkAlloc n 20 answers with
  | none => none
  | some (s, none) => some (s, none)
  | some (s, some (chunk, nobjs)) =>
    if nobjs = 1 then some (s, some chunk)
    else
      some ({ s with
        freeList := Function.update s.freeList (freelistIndex n) (chunk + n)
        link := linkObjs n (nobjs - 2) (chunk + n) s.link }, some chunk)

/-! ## The interface -/

/-- `allocate`, for elements of `elem` bytes; null stands for
`std::bad_alloc`. -/
def allocate (s : MyAllocator) (elem n : ℕ) (answers : Answers) : Option (MyAllocator × Option ℕ) :=
  let bytes := size64 (n * elem)
  if MAX_BYTES < bytes then (s.malloc bytes answers).map fun (s, p, _) => (s, p)
  else if s.freeList (freelistIndex bytes) = 0 then s.refill (roundUp bytes) answers
  else some (s.pop (freelistIndex bytes), some (s.freeList (freelistIndex bytes)))

/-- `deallocate`; `free` gives a block back to `malloc`. -/
def deallocate (s : MyAllocator) (elem p n : ℕ) : MyAllocator :=
  if MAX_BYTES < n then { s with mallocs := s.mallocs.erase ⟨p, n * elem⟩ } else s.push (freelistIndex n) p

/-- What a block that was allocated with `n` has. -/
def owned (elem n : ℕ) : ℕ := if MAX_BYTES < n * elem then n * elem else roundUp (n * elem)

inductive Op
  | allocate (n : ℕ) (answers : Answers)
  | deallocate (p n : ℕ)
  /-- A user writes the byte at `x` of a block it holds; `words` is what the
  words with this byte become. -/
  | write (p n x : ℕ) (words : ℕ → ℕ)

def step (elem : ℕ) (s : MyAllocator) : Op → Option MyAllocator
  | .allocate n answers =>
    if 0 < n ∧ n * elem < 2 ^ 64 then
      match s.allocate elem n answers with
      | none => none
      | some (s, none) => some s
      | some (s, some p) => some { s with live := (p, n) :: s.live }
    else none
  | .deallocate p n =>
    if (p, n) ∈ s.live then some { s.deallocate elem p n with live := s.live.erase (p, n) } else none
  | .write p n x words =>
    if (p, n) ∈ s.live ∧ p ≤ x ∧ x < p + n * elem then
      some { s with link := fun a => if a ≤ x ∧ x < a + ALIGN then words a else s.link a }
    else none

end MyAllocator

end Learncc
