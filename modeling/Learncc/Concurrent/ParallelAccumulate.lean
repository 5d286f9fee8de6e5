/-
`parallel_accumulate` (src/concurrent/thread_.cc): all blocks of a sequence but the
last go to a thread each, the last is for the caller, which then joins the threads and
adds up what they have.

A step is one step of the caller or of a thread, so one list of events is one order in
which they run. `run_accumulates`: in every order, the caller comes to return what
`std::accumulate` returns.
-/
import Learncc.Lib.Calls
import Learncc.Lib.Consecutive
import Learncc.MemoryPool.SizeClass

namespace Learncc.ParallelAccumulate

/-- The elements from `first` to `last`. -/
structure Range (T : Type) where
  elems : List T
  /-- `std::distance` is a `ptrdiff_t`. -/
  distance_lt : elems.length < 2 ^ 63

/-! ## The sizes -/

def minPerThread : ℕ := 25

def maxThreads (length : ℕ) : ℕ := size64 (length + minPerThread - 1) / minPerThread

def numThreads (length hardwareThreads : ℕ) : ℕ :=
  min (if hardwareThreads ≠ 0 then hardwareThreads else 2) (maxThreads length)

def blockSize (length hardwareThreads : ℕ) : ℕ := length / numThreads length hardwareThreads

/-! ## One block -/

/-- `std::accumulate`. -/
def accumulate {T : Type} [Add T] (elems : List T) (init : T) : T := elems.foldl (· + ·) init

/-- Where a call of `accumulate_block` is: before it reads `result`, in the loop of
`std::accumulate`, or back. -/
inductive Pc (T : Type)
  | enter
  | loop (pos : ℕ) (sum : T)
  | returned

structure Task (T : Type) where
  blockStart : ℕ
  blockEnd : ℕ
  pc : Pc T

variable {T : Type}

def Task.block (t : Task T) : ℕ × ℕ := (t.blockStart, t.blockEnd)

/-- A step of the call for `results[i]`. -/
def accumulateBlock [Add T] (elems : List T) (i : ℕ) (t : Task T) (results : List T) : Option (Task T × List T) :=
  match t.pc with
  | .enter => results[i]?.map fun init => ({ t with pc := .loop t.blockStart init }, results)
  | .loop pos sum =>
    if pos = t.blockEnd then some ({ t with pc := .returned }, results.set i sum)
    else elems[pos]?.map fun x => ({ t with pc := .loop (pos + 1) (sum + x) }, results)
  | .returned => none

/-! ## The caller -/

/-- Where the caller is: in the loop that starts the threads, at its own block, in the
loop that joins the threads, or back. -/
inductive Main (T : Type)
  | loop
  | block (t : Task T)
  | join (i : ℕ)
  | returned (value : T)

def Main.value : Main T → Option T
  | .returned value => some value
  | .loop | .block _ | .join _ => none

structure State (T : Type) where
  results : List T
  threads : List (Task T)
  blockStart : ℕ
  main : Main T

/-- The caller before the loop; `0` is `T()`. -/
def start [Zero T] (r : Range T) (hardwareThreads : ℕ) (init : T) : State T :=
  if r.elems.length = 0 then { results := [], threads := [], blockStart := 0, main := .returned init }
  else
    { results := List.replicate (numThreads r.elems.length hardwareThreads) 0, threads := [], blockStart := 0,
      main := .loop }

def moveMain [Add T] (r : Range T) (hardwareThreads : ℕ) (init : T) (s : State T) : Option (State T) :=
  let num := numThreads r.elems.length hardwareThreads
  match s.main with
  | .loop =>
    if s.threads.length < num - 1 then
      let blockEnd := s.blockStart + blockSize r.elems.length hardwareThreads
      some { s with threads := s.threads ++ [⟨s.blockStart, blockEnd, .enter⟩], blockStart := blockEnd }
    else some { s with main := .block ⟨s.blockStart, r.elems.length, .enter⟩ }
  | .block t =>
    match t.pc with
    | .returned => some { s with main := .join 0 }
    | .enter | .loop .. =>
      (accumulateBlock r.elems (num - 1) t s.results).map fun q => { s with results := q.2, main := .block q.1 }
  | .join i =>
    match s.threads[i]? with
    | none => some { s with main := .returned (accumulate s.results init) }
    | some t =>
      match t.pc with
      | .returned => some { s with main := .join (i + 1) }
      | .enter | .loop .. => none
  | .returned _ => none

inductive Event
  | main
  | thread (i : ℕ)

def step [Add T] (r : Range T) (hardwareThreads : ℕ) (init : T) (s : State T) : Event → Option (State T)
  | .main => moveMain r hardwareThreads init s
  | .thread i => s.threads[i]?.bind fun t => (accumulateBlock r.elems i t s.results).map fun q =>
      { s with results := q.2, threads := s.threads.set i q.1 }

/-- The blocks that have been assigned, the caller's own last. -/
def State.blocks (s : State T) (length : ℕ) : List (ℕ × ℕ) :=
  s.threads.map Task.block ++ match s.main with
    | .loop => []
    | .block _ | .join _ | .returned _ => [(s.blockStart, length)]

/-! ## The sizes fit -/

variable {length hardwareThreads : ℕ}

theorem maxThreads_eq (hlt : length < 2 ^ 63) : maxThreads length = (length + 24) / 25 := by
  unfold maxThreads minPerThread size64
  omega

/-- There is a block for the caller. -/
theorem numThreads_pos (hpos : 0 < length) (hlt : length < 2 ^ 63) (hardwareThreads : ℕ) :
    0 < numThreads length hardwareThreads := by
  have hmax := maxThreads_eq hlt
  unfold numThreads
  split
  · omega
  · omega

theorem numThreads_le (hpos : 0 < length) (hlt : length < 2 ^ 63) (hardwareThreads : ℕ) :
    numThreads length hardwareThreads ≤ length := by
  have hmax := maxThreads_eq hlt
  have hmin : numThreads length hardwareThreads ≤ maxThreads length := Nat.min_le_right _ _
  omega

/-- No block is empty. -/
theorem blockSize_pos (hpos : 0 < length) (hlt : length < 2 ^ 63) (hardwareThreads : ℕ) :
    0 < blockSize length hardwareThreads :=
  Nat.div_pos (numThreads_le hpos hlt _) (numThreads_pos hpos hlt _)

/-- The blocks of the threads leave something for the caller. -/
theorem mul_blockSize_lt (hpos : 0 < length) (hlt : length < 2 ^ 63) {k : ℕ}
    (hk : k ≤ numThreads length hardwareThreads - 1) : k * blockSize length hardwareThreads < length := by
  have hn := numThreads_pos hpos hlt hardwareThreads
  have hb := blockSize_pos hpos hlt hardwareThreads
  calc k * blockSize length hardwareThreads
      < numThreads length hardwareThreads * blockSize length hardwareThreads := by
        exact Nat.mul_lt_mul_of_pos_right (by omega) hb
    _ ≤ length := Nat.mul_div_le _ _

/-- There is a block for the caller, none is empty, and those of the threads leave
something for the caller. -/
structure Sizes (length num size : ℕ) : Prop where
  num_pos : 0 < num
  size_pos : 0 < size
  fits : ∀ k ≤ num - 1, k * size < length

theorem sizes (r : Range T) (hpos : 0 < r.elems.length) (hardwareThreads : ℕ) :
    Sizes r.elems.length (numThreads r.elems.length hardwareThreads) (blockSize r.elems.length hardwareThreads) :=
  ⟨numThreads_pos hpos r.distance_lt _, blockSize_pos hpos r.distance_lt _,
    fun _ hk => mul_blockSize_lt hpos r.distance_lt hk⟩

/-! ## Sums -/

section

variable [AddMonoid T] {elems : List T}

theorem accumulate_eq : ∀ (elems : List T) (init : T), accumulate elems init = init + elems.sum
  | [], init => (add_zero init).symm
  | x :: elems, init => by
    rw [List.sum_cons, ← add_assoc]
    exact accumulate_eq elems (init + x)

/-- The sum of the elements from `a` to `c`. -/
def part (elems : List T) (a c : ℕ) : T := ((elems.drop a).take (c - a)).sum

theorem part_self (a : ℕ) : part elems a a = 0 := by
  rw [part, Nat.sub_self, List.take_zero, List.sum_nil]

theorem part_add {a b c : ℕ} (hab : a ≤ b) (hbc : b ≤ c) : part elems a b + part elems b c = part elems a c := by
  have hsub : c - a = (b - a) + (c - b) := by omega
  have hdrop : (elems.drop a).drop (b - a) = elems.drop b := by rw [List.drop_drop, Nat.add_sub_cancel' hab]
  rw [part, part, part, hsub, List.take_add, List.sum_append, hdrop]

theorem part_succ {a pos : ℕ} (h : a ≤ pos) {x : T} (hx : elems[pos]? = some x) :
    part elems a (pos + 1) = part elems a pos + x := by
  have hone : part elems pos (pos + 1) = x := by
    obtain ⟨hlt, rfl⟩ := List.getElem?_eq_some_iff.1 hx
    rw [part, Nat.add_sub_cancel_left, List.drop_eq_getElem_cons hlt, List.take_succ_cons, List.take_zero,
      List.sum_singleton]
  rw [← part_add h (Nat.le_succ pos), hone]

theorem part_all : part elems 0 elems.length = elems.sum := by
  rw [part, List.drop_zero, Nat.sub_zero, List.take_length]

/-! ## One block -/

/-- What a call knows, and what is in its cell of `results`. -/
def Task.Holds (elems : List T) (cell : Option T) (t : Task T) : Prop :=
  match t.pc with
  | .enter => cell = some 0
  | .loop pos sum => t.blockStart ≤ pos ∧ pos ≤ t.blockEnd ∧ sum = part elems t.blockStart pos
  | .returned => cell = some (part elems t.blockStart t.blockEnd)

structure Task.Ok (elems : List T) (results : List T) (i : ℕ) (t : Task T) : Prop where
  le : t.blockStart ≤ t.blockEnd
  fits : t.blockEnd ≤ elems.length
  cell : i < results.length
  holds : t.Holds elems results[i]?

def Task.remaining (t : Task T) : ℕ :=
  match t.pc with
  | .enter => t.blockEnd - t.blockStart + 2
  | .loop pos _ => t.blockEnd - pos + 1
  | .returned => 0

/-- What a step of a call does: it writes to no cell but its own, and comes closer to
its end. -/
structure Advance (results results' : List T) (i : ℕ) (t t' : Task T) : Prop where
  block : t'.block = t.block
  length : results'.length = results.length
  others : ∀ j, j ≠ i → results'[j]? = results[j]?
  remaining : t'.remaining + 1 = t.remaining

variable {results results' : List T} {i : ℕ} {t t' : Task T}

theorem accumulateBlock_spec (h : t.Ok elems results i) (hs : accumulateBlock elems i t results = some (t', results')) :
    t'.Ok elems results' i ∧ Advance results results' i t t' := by
  obtain ⟨first, last, pc⟩ := t
  obtain ⟨hle, hfits, hcell, hholds⟩ := h
  cases pc with
  | enter =>
    have hzero : results[i]? = some 0 := hholds
    rw [accumulateBlock] at hs
    dsimp only at hs hle hfits
    rw [hzero, Option.map_some] at hs
    cases hs
    refine ⟨⟨hle, hfits, hcell, Nat.le_refl _, hle, (part_self _).symm⟩, rfl, rfl, fun j _ => rfl, rfl⟩
  | loop pos sum =>
    obtain ⟨hfirst, hlast, hsum⟩ := hholds
    rw [accumulateBlock] at hs
    dsimp only at hs hle hfits hfirst hlast hsum
    split at hs
    · rename_i hend
      cases hs
      refine ⟨⟨hle, hfits, ?_, ?_⟩, rfl, List.length_set .., fun j hj => ?_, ?_⟩
      · rw [List.length_set]
        exact hcell
      · show (results.set i sum)[i]? = some (part elems first last)
        rw [List.getElem?_set_self hcell, hsum, hend]
      · exact List.getElem?_set_ne (Ne.symm hj)
      · show 0 + 1 = last - pos + 1
        rw [hend, Nat.sub_self]
    · rename_i hmore
      obtain ⟨x, hx, he⟩ := Option.map_eq_some_iff.1 hs
      cases he
      refine ⟨⟨hle, hfits, hcell, ?_, ?_, ?_⟩, rfl, rfl, fun j _ => rfl, ?_⟩
      · show first ≤ pos + 1
        omega
      · show pos + 1 ≤ last
        omega
      · show sum + x = part elems first (pos + 1)
        rw [hsum, part_succ hfirst hx]
      · show last - (pos + 1) + 1 + 1 = last - pos + 1
        omega
  | returned => cases hs

/-- A call that is not back can go on. -/
theorem exists_accumulateBlock (h : t.Ok elems results i) (hpc : t.pc ≠ .returned) :
    ∃ q, accumulateBlock elems i t results = some q := by
  obtain ⟨first, last, pc⟩ := t
  obtain ⟨hle, hfits, hcell, hholds⟩ := h
  cases pc with
  | enter => exact ⟨_, by rw [accumulateBlock, List.getElem?_eq_getElem hcell, Option.map_some]⟩
  | loop pos sum =>
    obtain ⟨hfirst, hlast, -⟩ := hholds
    dsimp only at hfits hlast
    rw [accumulateBlock]
    dsimp only
    by_cases hend : pos = last
    · rw [if_pos hend]
      exact ⟨_, rfl⟩
    · have hlt : pos < elems.length := by omega
      rw [if_neg hend, List.getElem?_eq_getElem hlt]
      exact ⟨_, rfl⟩
  | returned => exact absurd rfl hpc

/-! ## The whole -/

/-- Where the caller is, and what it relies on there. -/
def MainOk (r : Range T) (num : ℕ) (init : T) (s : State T) : Prop :=
  match s.main with
  | .loop => ∀ j, s.threads.length ≤ j → j < num → s.results[j]? = some 0
  | .block t =>
    s.threads.length = num - 1 ∧ t.block = (s.blockStart, r.elems.length) ∧ t.Ok r.elems s.results (num - 1)
  | .join i =>
    s.threads.length = num - 1 ∧ s.results[num - 1]? = some (part r.elems s.blockStart r.elems.length) ∧ i ≤ num - 1 ∧
      ∀ j (t : Task T), j < i → s.threads[j]? = some t → t.pc = .returned
  | .returned value => s.threads.length = num - 1 ∧ value = accumulate r.elems init

structure Inv (r : Range T) (num size : ℕ) (init : T) (s : State T) : Prop where
  length : s.results.length = num
  few : s.threads.length ≤ num - 1
  start : s.blockStart = s.threads.length * size
  blocks : Consecutive 0 (s.threads.map Task.block) s.blockStart
  threads : ∀ i (t : Task T), s.threads[i]? = some t → t.Ok r.elems s.results i
  main : MainOk r num init s

/-- The steps that are to come. -/
def State.remaining (length num size : ℕ) (s : State T) : ℕ :=
  Calls.total Task.remaining s.threads + match s.main with
    | .loop => (num - 1 - s.threads.length) * (size + 3) + (length - (num - 1) * size) + num + 4
    | .block t => t.remaining + num + 1
    | .join i => num - 1 - i + 1
    | .returned _ => 0

/-- The invariant, and the steps to come, for the sizes that are computed. -/
abbrev Sound (r : Range T) (hardwareThreads : ℕ) (init : T) (s : State T) : Prop :=
  Inv r (numThreads r.elems.length hardwareThreads) (blockSize r.elems.length hardwareThreads) init s

abbrev State.toCome (r : Range T) (hardwareThreads : ℕ) (s : State T) : ℕ :=
  s.remaining r.elems.length (numThreads r.elems.length hardwareThreads) (blockSize r.elems.length hardwareThreads)

/-- Another cell is written. -/
theorem Task.Ok.congr (h : t.Ok elems results i) (hlength : results'.length = results.length)
    (hcell : results'[i]? = results[i]?) : t.Ok elems results' i := by
  refine ⟨h.le, h.fits, ?_, ?_⟩
  · rw [hlength]
    exact h.cell
  · rw [hcell]
    exact h.holds

variable {r : Range T} {num size : ℕ} {init : T} {s s' : State T}

theorem accumulateBlock_returned (hs : accumulateBlock elems i t results = some (t', results')) : t.pc ≠ .returned := by
  intro hpc
  rw [accumulateBlock, hpc] at hs
  cases hs

/-- A thread writes to a cell that the caller does not look at. -/
theorem MainOk.thread (h : MainOk r num init s) (hi : s.threads[i]? = some t) (hlt : i < num - 1)
    (hs : accumulateBlock r.elems i t s.results = some (t', results')) (hadv : Advance s.results results' i t t') :
    MainOk r num init { s with results := results', threads := s.threads.set i t' } := by
  have hthreads : i < s.threads.length := (List.getElem?_eq_some_iff.1 hi).1
  have hother : results'[num - 1]? = s.results[num - 1]? := hadv.others _ (by omega)
  unfold MainOk at h ⊢
  split at h
  · rename_i hmain
    simp only [hmain, List.length_set]
    intro j hj hjn
    rw [hadv.others j (by omega)]
    exact h j hj hjn
  · rename_i u hmain
    simp only [hmain, List.length_set]
    exact ⟨h.1, h.2.1, h.2.2.congr hadv.length hother⟩
  · rename_i k hmain
    simp only [hmain, List.length_set]
    refine ⟨h.1, hother.trans h.2.1, h.2.2.1, fun j d hj hd => ?_⟩
    rcases Calls.getElem?_set_cases hd with ⟨rfl, -⟩ | ⟨-, hd⟩
    · exact absurd (h.2.2.2 j t hj hi) (accumulateBlock_returned hs)
    · exact h.2.2.2 j d hj hd
  · rename_i value hmain
    simp only [hmain, List.length_set]
    exact h

/-- A thread makes a step. -/
theorem Inv.thread (h : Inv r num size init s) (hi : s.threads[i]? = some t)
    (hs : accumulateBlock r.elems i t s.results = some (t', results')) :
    Inv r num size init { s with results := results', threads := s.threads.set i t' } ∧
      State.remaining r.elems.length num size { s with results := results', threads := s.threads.set i t' } + 1 =
        s.remaining r.elems.length num size := by
  obtain ⟨hok, hadv⟩ := accumulateBlock_spec (h.threads i t hi) hs
  have hlt : i < s.threads.length := (List.getElem?_eq_some_iff.1 hi).1
  have hfew := h.few
  refine ⟨⟨hadv.length.trans h.length, ?_, ?_, ?_, fun j d hd => ?_, h.main.thread hi (by omega) hs hadv⟩, ?_⟩
  · rw [List.length_set]
    exact hfew
  · rw [List.length_set]
    exact h.start
  · have hblocks : (s.threads.set i t').map Task.block = s.threads.map Task.block := by
      refine List.ext_getElem? fun j => ?_
      rw [List.getElem?_map, List.getElem?_map]
      by_cases hj : i = j
      · subst hj
        rw [List.getElem?_set_self hlt, hi, Option.map_some, Option.map_some, hadv.block]
      · rw [List.getElem?_set_ne hj]
    show Consecutive 0 ((s.threads.set i t').map Task.block) s.blockStart
    rw [hblocks]
    exact h.blocks
  · rcases Calls.getElem?_set_cases hd with ⟨rfl, rfl⟩ | ⟨hj, hd⟩
    · exact hok
    · exact (h.threads j d hd).congr hadv.length (hadv.others j hj)
  · have htotal : Calls.total Task.remaining (s.threads.set i t') + _ = _ := Calls.total_set hi
    have hrem := hadv.remaining
    simp only [State.remaining, List.length_set]
    omega

/-- The next thread. -/
theorem Inv.spawn (h : Inv r num size init s) (hsizes : Sizes r.elems.length num size) (hmain : s.main = .loop)
    (hmore : s.threads.length < num - 1)
    (hs : s' = { s with
      threads := s.threads ++ [⟨s.blockStart, s.blockStart + size, .enter⟩], blockStart := s.blockStart + size }) :
    Inv r num size init s' ∧ s'.remaining r.elems.length num size + 1 = s.remaining r.elems.length num size := by
  subst hs
  have hmainOk := h.main
  rw [MainOk, hmain] at hmainOk
  dsimp only at hmainOk
  have hstart := h.start
  have hlength := h.length
  have hfits := hsizes.fits (s.threads.length + 1) hmore
  rw [Nat.add_mul, Nat.one_mul, ← hstart] at hfits
  refine ⟨⟨hlength, ?_, ?_, ?_, fun j d hd => ?_, ?_⟩, ?_⟩
  · rw [List.length_append]
    exact hmore
  · rw [List.length_append, List.length_singleton, Nat.add_mul, Nat.one_mul, hstart]
  · rw [List.map_append]
    exact h.blocks.concat (Nat.lt_add_of_pos_right hsizes.size_pos)
  · rcases Calls.getElem?_concat_cases hd with hd | ⟨rfl, rfl⟩
    · exact h.threads j d hd
    · refine ⟨Nat.le_add_right _ _, Nat.le_of_lt hfits, ?_, hmainOk _ (Nat.le_refl _) (by omega)⟩
      show s.threads.length < s.results.length
      omega
  · rw [MainOk, hmain]
    intro j hj hjn
    rw [List.length_append, List.length_singleton] at hj
    exact hmainOk j (by omega) hjn
  · obtain ⟨m, hm⟩ : ∃ m, num - 1 - s.threads.length = m + 1 := ⟨num - 1 - s.threads.length - 1, by omega⟩
    have hm' : num - 1 - (s.threads.length + 1) = m := by omega
    simp only [State.remaining, hmain, Calls.total_concat, List.length_append, List.length_singleton, hm, hm',
      Task.remaining, Nat.add_mul]
    omega

/-- All threads have been started. -/
theorem Inv.own (h : Inv r num size init s) (hsizes : Sizes r.elems.length num size) (hmain : s.main = .loop)
    (hall : ¬ s.threads.length < num - 1)
    (hs : s' = { s with main := .block ⟨s.blockStart, r.elems.length, .enter⟩ }) :
    Inv r num size init s' ∧ s'.remaining r.elems.length num size + 1 = s.remaining r.elems.length num size := by
  subst hs
  have hmainOk := h.main
  rw [MainOk, hmain] at hmainOk
  dsimp only at hmainOk
  have hnum := hsizes.num_pos
  have hfew := h.few
  have hlast : s.threads.length = num - 1 := by omega
  have hstart := h.start
  have hlength := h.length
  have hfits := hsizes.fits (num - 1) (Nat.le_refl _)
  rw [hlast] at hstart
  refine ⟨⟨hlength, hfew, h.start, h.blocks, h.threads, hlast, rfl, ?_, Nat.le_refl _, ?_, ?_⟩, ?_⟩
  · show s.blockStart ≤ r.elems.length
    omega
  · show num - 1 < s.results.length
    omega
  · exact hmainOk _ (by omega) (by omega)
  · simp only [State.remaining, hmain, hlast, Nat.sub_self, Nat.zero_mul, Task.remaining, hstart]
    omega

/-- The caller makes a step in its own block. -/
theorem Inv.block (h : Inv r num size init s) (hmain : s.main = .block t)
    (ha : accumulateBlock r.elems (num - 1) t s.results = some (t', results'))
    (hs : s' = { s with results := results', main := .block t' }) :
    Inv r num size init s' ∧ s'.remaining r.elems.length num size + 1 = s.remaining r.elems.length num size := by
  subst hs
  have hmainOk := h.main
  rw [MainOk, hmain] at hmainOk
  obtain ⟨hlast, hblock, hown⟩ := hmainOk
  obtain ⟨hok, hadv⟩ := accumulateBlock_spec hown ha
  refine ⟨⟨hadv.length.trans h.length, h.few, h.start, h.blocks, fun j d hd => ?_, hlast, hadv.block.trans hblock, hok⟩,
    ?_⟩
  · have hlt : j < s.threads.length := (List.getElem?_eq_some_iff.1 hd).1
    exact (h.threads j d hd).congr hadv.length (hadv.others j (by omega))
  · have hrem := hadv.remaining
    simp only [State.remaining, hmain]
    omega

/-- The own block is done. -/
theorem Inv.blocked (h : Inv r num size init s) (hsizes : Sizes r.elems.length num size) (hmain : s.main = .block t)
    (hpc : t.pc = .returned) (hs : s' = { s with main := .join 0 }) :
    Inv r num size init s' ∧ s'.remaining r.elems.length num size + 1 = s.remaining r.elems.length num size := by
  subst hs
  have hmainOk := h.main
  rw [MainOk, hmain] at hmainOk
  obtain ⟨hlast, hblock, hown⟩ := hmainOk
  have hholds := hown.holds
  rw [Task.Holds, hpc] at hholds
  obtain ⟨hfirst, hend⟩ := Prod.mk.inj hblock
  refine ⟨⟨h.length, h.few, h.start, h.blocks, h.threads, hlast, ?_, Nat.zero_le _, fun j d hj => ?_⟩, ?_⟩
  · rw [← hfirst, ← hend]
    exact hholds
  · exact absurd hj (Nat.not_lt_zero j)
  · have hnum := hsizes.num_pos
    simp only [State.remaining, hmain, Task.remaining, hpc]
    omega

/-- One thread is joined. -/
theorem Inv.join (h : Inv r num size init s) (hmain : s.main = .join i) (hi : s.threads[i]? = some t)
    (hpc : t.pc = .returned) (hs : s' = { s with main := .join (i + 1) }) :
    Inv r num size init s' ∧ s'.remaining r.elems.length num size + 1 = s.remaining r.elems.length num size := by
  subst hs
  have hlt : i < s.threads.length := (List.getElem?_eq_some_iff.1 hi).1
  have hmainOk := h.main
  rw [MainOk, hmain] at hmainOk
  obtain ⟨hlast, hcell, hle, hjoined⟩ := hmainOk
  refine ⟨⟨h.length, h.few, h.start, h.blocks, h.threads, hlast, hcell, ?_, fun j d hj hd => ?_⟩, ?_⟩
  · omega
  · rcases Nat.lt_succ_iff_lt_or_eq.1 hj with hj | rfl
    · exact hjoined j d hj hd
    · rw [hi] at hd
      cases hd
      exact hpc
  · simp only [State.remaining, hmain]
    omega

/-- What `results` has in the end. -/
theorem Inv.results_eq (h : Inv r num size init s) (hnum : 0 < num) (hlast : s.threads.length = num - 1)
    (hcell : s.results[num - 1]? = some (part r.elems s.blockStart r.elems.length))
    (hjoined : ∀ (j : ℕ) (t : Task T), s.threads[j]? = some t → t.pc = .returned) :
    s.results = (s.threads.map Task.block ++ [(s.blockStart, r.elems.length)]).map fun b => part r.elems b.1 b.2 := by
  have hlength := h.length
  refine List.ext_getElem? fun j => ?_
  rw [List.map_append, List.map_map]
  rcases Nat.lt_trichotomy j (num - 1) with hlt | rfl | hgt
  · have hj : j < s.threads.length := by omega
    rw [List.getElem?_append_left (by rw [List.length_map]; exact hj), List.getElem?_map]
    have hd := List.getElem?_eq_getElem hj
    have hholds := (h.threads j _ hd).holds
    rw [Task.Holds, hjoined j _ hd] at hholds
    rw [hholds, hd]
    rfl
  · rw [List.getElem?_append_right (by rw [List.length_map, hlast]), List.length_map, hlast, Nat.sub_self]
    exact hcell
  · rw [List.getElem?_eq_none (by omega), List.getElem?_eq_none]
    rw [List.length_append, List.length_map, List.length_map, List.length_singleton]
    omega

/-- The threads are joined, and their results added up. -/
theorem Inv.result (h : Inv r num size init s) (hsizes : Sizes r.elems.length num size) (hmain : s.main = .join i)
    (hi : s.threads[i]? = none) (hs : s' = { s with main := .returned (accumulate s.results init) }) :
    Inv r num size init s' ∧ s'.remaining r.elems.length num size + 1 = s.remaining r.elems.length num size := by
  subst hs
  have hmainOk := h.main
  rw [MainOk, hmain] at hmainOk
  obtain ⟨hlast, hcell, hle, hjoined⟩ := hmainOk
  have hge := List.getElem?_eq_none_iff.1 hi
  have hall : ∀ (j : ℕ) (t : Task T), s.threads[j]? = some t → t.pc = .returned := by
    intro j t hj
    have hlt : j < s.threads.length := (List.getElem?_eq_some_iff.1 hj).1
    exact hjoined j t (by omega) hj
  have hfits := hsizes.fits (num - 1) (Nat.le_refl _)
  have hstart := h.start
  rw [hlast] at hstart
  have hblocks := h.blocks.concat (c := r.elems.length) (by omega)
  refine ⟨⟨h.length, h.few, h.start, h.blocks, h.threads, hlast, ?_⟩, ?_⟩
  · rw [accumulate_eq, accumulate_eq, h.results_eq hsizes.num_pos hlast hcell hall, hblocks.sum part_self part_add,
      part_all]
  · simp only [State.remaining, hmain]
    omega

theorem moveMain_sound {hardwareThreads : ℕ} (h : Sound r hardwareThreads init s) (hpos : 0 < r.elems.length)
    (hm : moveMain r hardwareThreads init s = some s') :
    Sound r hardwareThreads init s' ∧ s'.toCome r hardwareThreads + 1 = s.toCome r hardwareThreads := by
  have hsizes := sizes r hpos hardwareThreads
  unfold Sound State.toCome at *
  unfold moveMain at hm
  generalize numThreads r.elems.length hardwareThreads = num at *
  generalize blockSize r.elems.length hardwareThreads = size at *
  dsimp only at hm
  split at hm
  · rename_i hmain
    split at hm
    · rename_i hmore
      exact h.spawn hsizes hmain hmore (Option.some.inj hm).symm
    · rename_i hall
      exact h.own hsizes hmain hall (Option.some.inj hm).symm
  · rename_i t hmain
    split at hm
    · rename_i hpc
      exact h.blocked hsizes hmain hpc (Option.some.inj hm).symm
    all_goals
      obtain ⟨q, hq, he⟩ := Option.map_eq_some_iff.1 hm
      exact h.block hmain hq he.symm
  · rename_i i hmain
    split at hm
    · rename_i hi
      exact h.result hsizes hmain hi (Option.some.inj hm).symm
    · rename_i t hi
      split at hm
      · rename_i hpc
        exact h.join hmain hi hpc (Option.some.inj hm).symm
      all_goals cases hm
  · cases hm

/-- Nothing waits for ever: a thread that is waited for can go on. -/
theorem Inv.progress {hardwareThreads : ℕ} (h : Sound r hardwareThreads init s) :
    (∃ value, s.main = .returned value) ∨ ∃ e t, step r hardwareThreads init s e = some t := by
  have hmainOk := h.main
  rw [MainOk] at hmainOk
  cases hmain : s.main with
  | loop =>
    refine .inr ⟨.main, ?_⟩
    rw [step, moveMain, hmain]
    dsimp only
    split
    · exact ⟨_, rfl⟩
    · exact ⟨_, rfl⟩
  | block t =>
    refine .inr ⟨.main, ?_⟩
    rw [hmain] at hmainOk
    obtain ⟨-, -, hok⟩ := hmainOk
    rw [step, moveMain, hmain]
    cases hpc : t.pc with
    | returned => exact ⟨_, by simp only [hpc]; rfl⟩
    | enter =>
      obtain ⟨q, hq⟩ := exists_accumulateBlock hok (by rw [hpc]; simp)
      exact ⟨_, by simp only [hpc, hq]; rfl⟩
    | loop pos sum =>
      obtain ⟨q, hq⟩ := exists_accumulateBlock hok (by rw [hpc]; simp)
      exact ⟨_, by simp only [hpc, hq]; rfl⟩
  | join i =>
    refine .inr ?_
    cases hi : s.threads[i]? with
    | none => exact ⟨.main, _, by rw [step, moveMain, hmain]; simp only [hi]; rfl⟩
    | some t =>
      by_cases hpc : t.pc = .returned
      · exact ⟨.main, _, by rw [step, moveMain, hmain]; simp only [hi, hpc]; rfl⟩
      · obtain ⟨q, hq⟩ := exists_accumulateBlock (h.threads i t hi) hpc
        exact ⟨.thread i, _, by rw [step, hi, Option.bind_some, hq, Option.map_some]⟩
  | returned value => exact .inl ⟨value, rfl⟩

end

/-! ## Runs -/

variable [AddMonoid T] {hardwareThreads : ℕ} {r : Range T} {init : T} {s s' : State T}

/-- The invariant at the start, and how many steps there are. -/
theorem start_sound (r : Range T) (hpos : 0 < r.elems.length) (hardwareThreads : ℕ) (init : T) :
    Sound r hardwareThreads init (start r hardwareThreads init) ∧
      (start r hardwareThreads init).toCome r hardwareThreads =
        r.elems.length + 4 * numThreads r.elems.length hardwareThreads + 1 := by
  have hsizes := sizes r hpos hardwareThreads
  unfold Sound State.toCome
  rw [start, if_neg (Nat.ne_of_gt hpos)]
  generalize numThreads r.elems.length hardwareThreads = num at *
  generalize blockSize r.elems.length hardwareThreads = size at *
  have hnum := hsizes.num_pos
  have hfits := hsizes.fits (num - 1) (Nat.le_refl _)
  refine ⟨⟨List.length_replicate, Nat.zero_le _, (Nat.zero_mul _).symm, rfl, fun i t hi => ?_, fun j _ hj => ?_⟩, ?_⟩
  · cases hi
  · exact List.getElem?_replicate_of_lt hj
  · simp only [State.remaining, Calls.total_nil, List.length_nil, Nat.sub_zero, Nat.mul_add]
    omega

theorem step_sound (h : Sound r hardwareThreads init s) (hpos : 0 < r.elems.length) {e : Event}
    (hs : step r hardwareThreads init s e = some s') :
    Sound r hardwareThreads init s' ∧ s'.toCome r hardwareThreads + 1 = s.toCome r hardwareThreads := by
  cases e with
  | main => exact moveMain_sound h hpos hs
  | thread i =>
    obtain ⟨t, hi, hs⟩ := Option.bind_eq_some_iff.1 hs
    obtain ⟨q, hq, rfl⟩ := Option.map_eq_some_iff.1 hs
    exact h.thread hi hq

/-- After the steps of a run, the others are to come. -/
theorem run_sound (hpos : 0 < r.elems.length) {events : List Event}
    (h : Run.run (step r hardwareThreads init) (start r hardwareThreads init) events = some s) :
    Sound r hardwareThreads init s ∧
      events.length + s.toCome r hardwareThreads =
        r.elems.length + 4 * numThreads r.elems.length hardwareThreads + 1 := by
  obtain ⟨hstart, hsteps⟩ := start_sound r hpos hardwareThreads init
  refine Run.run_history (fun events s => Sound r hardwareThreads init s ∧
    events.length + s.toCome r hardwareThreads = r.elems.length + 4 * numThreads r.elems.length hardwareThreads + 1)
    ⟨hstart, ?_⟩ (fun is s e t _ hp hs => ?_) h
  · rw [List.length_nil, Nat.zero_add]
    exact hsteps
  · obtain ⟨hsound, hless⟩ := step_sound hp.1 hpos hs
    have hsum := hp.2
    refine ⟨hsound, ?_⟩
    rw [List.length_append, List.length_singleton]
    omega

/-- Nothing is to be done for an empty sequence. -/
theorem run_empty (hzero : r.elems.length = 0) {events : List Event}
    (h : Run.run (step r hardwareThreads init) (start r hardwareThreads init) events = some s) :
    events = [] ∧ s.main = .returned init := by
  rw [start, if_pos hzero] at h
  cases events with
  | nil =>
    cases h
    exact ⟨rfl, rfl⟩
  | cons e events =>
    obtain ⟨t, ht, -⟩ := Run.run_cons.1 h
    cases e with
    | main => cases ht
    | thread i => cases ht

/-- The blocks are consecutive and partition the sequence, one for each thread and one
for the caller. -/
structure Assigned (length num : ℕ) (blocks : List (ℕ × ℕ)) : Prop where
  count : blocks.length = num
  consecutive : Consecutive 0 blocks length
  disjoint : blocks.Pairwise fun b d => b.2 ≤ d.1
  cover : ∀ i < length, ∃ b ∈ blocks, b.1 ≤ i ∧ i < b.2

theorem Inv.assigned {num size : ℕ} (h : Inv r num size init s) (hsizes : Sizes r.elems.length num size) {value : T}
    (hmain : s.main = .returned value) : Assigned r.elems.length num (s.blocks r.elems.length) := by
  have hmainOk := h.main
  rw [MainOk, hmain] at hmainOk
  obtain ⟨hlast, -⟩ := hmainOk
  have hnum := hsizes.num_pos
  have hfits := hsizes.fits (num - 1) (Nat.le_refl _)
  have hstart := h.start
  rw [hlast] at hstart
  have hblocks : Consecutive 0 (s.blocks r.elems.length) r.elems.length := by
    rw [State.blocks, hmain]
    exact h.blocks.concat (by omega)
  refine ⟨?_, hblocks, hblocks.disjoint, fun i hi => hblocks.cover (Nat.zero_le i) hi⟩
  rw [State.blocks, hmain, List.length_append, List.length_map, List.length_singleton]
  omega

/-- **`parallel_accumulate` is `std::accumulate`.** For an addition that is associative
and has `T()` for its identity, every sequence, every value of `hardware_concurrency()`
and every order in which the caller and the threads run: there is at least one block,
and the blocks partition the sequence; what is returned is what `std::accumulate`
returns; until then some step can be made; and there are no more steps than the last
part says. -/
theorem run_accumulates {events : List Event}
    (h : Run.run (step r hardwareThreads init) (start r hardwareThreads init) events = some s) :
    (r.elems ≠ [] → 0 < numThreads r.elems.length hardwareThreads) ∧
      (∀ value, s.main = .returned value → value = accumulate r.elems init ∧
        (r.elems ≠ [] →
          Assigned r.elems.length (numThreads r.elems.length hardwareThreads) (s.blocks r.elems.length))) ∧
      ((∃ value, s.main = .returned value) ∨ ∃ e t, step r hardwareThreads init s e = some t) ∧
      events.length ≤ r.elems.length + 4 * numThreads r.elems.length hardwareThreads + 1 := by
  rcases Nat.eq_zero_or_pos r.elems.length with hzero | hpos
  · have hnil := List.length_eq_zero_iff.1 hzero
    obtain ⟨rfl, hmain⟩ := run_empty hzero h
    refine ⟨fun hne => absurd hnil hne, fun value hvalue => ⟨?_, fun hne => absurd hnil hne⟩, .inl ⟨init, hmain⟩,
      Nat.zero_le _⟩
    rw [hmain] at hvalue
    cases hvalue
    rw [hnil]
    rfl
  · obtain ⟨hinv, hsteps⟩ := run_sound hpos h
    have hsizes := sizes r hpos hardwareThreads
    refine ⟨fun _ => hsizes.num_pos, fun value hmain => ⟨?_, fun _ => hinv.assigned hsizes hmain⟩, hinv.progress, ?_⟩
    · have hmainOk := hinv.main
      rw [MainOk, hmain] at hmainOk
      exact hmainOk.2
    · omega

/-- Two blocks of 13 numbers, one for a thread and one for the caller, who take turns. -/
def turns : List Event :=
  [.main, .main] ++ (List.replicate 15 [.main, .thread 0]).flatten ++ [.main, .main, .main]

theorem run_accumulates_turns :
    ∃ s, Run.run (step ⟨List.range 26, by decide⟩ 4 100) (start ⟨List.range 26, by decide⟩ 4 100) turns = some s ∧
      s.main = .returned (accumulate (List.range 26) 100) ∧ Assigned 26 2 (s.blocks 26) := by
  have hrun : (Run.run (step ⟨List.range 26, by decide⟩ 4 100) (start ⟨List.range 26, by decide⟩ 4 100) turns).bind
      (fun s => s.main.value) = some 425 := by
    decide +kernel
  obtain ⟨s, hs, hvalue⟩ := Option.bind_eq_some_iff.1 hrun
  cases hmain : s.main with
  | returned value =>
    obtain ⟨hsum, hblocks⟩ := (run_accumulates hs).2.1 value hmain
    refine ⟨s, hs, ?_, hblocks (by decide)⟩
    rw [hmain, hsum]
  | loop =>
    rw [hmain] at hvalue
    cases hvalue
  | block t =>
    rw [hmain] at hvalue
    cases hvalue
  | join i =>
    rw [hmain] at hvalue
    cases hvalue

end Learncc.ParallelAccumulate
