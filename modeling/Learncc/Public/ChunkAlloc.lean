/-
`_S_chunk_alloc` (inc/public/myallocator.h) as the function that calls itself;
`chunkAlloc` has the recursion unrolled.

`chunkAllocRec_ends`: from any state with good free lists, and whatever `malloc`
answers, one recursive call is enough.
-/
import Learncc.Public.AllocatorRun

namespace Learncc.MyAllocator

open Extent

/-- How far a call comes by itself: to a chunk, to the recursive call, or to
`std::bad_alloc`. -/
inductive Call
  | chunk (s : MyAllocator) (p nobjs : ℕ)
  | again (s : MyAllocator) (answers : Answers)
  | badAlloc (s : MyAllocator)

def call (s : MyAllocator) (size nobjs : ℕ) (answers : Answers) : Option Call :=
  if size * nobjs ≤ s.bytesLeft then
    some (.chunk { s with startFree := s.startFree + size * nobjs } s.startFree nobjs)
  else if size ≤ s.bytesLeft then
    let nobjs := s.bytesLeft / size
    some (.chunk { s with startFree := s.startFree + size * nobjs } s.startFree nobjs)
  else
    let bytes := s.bytesToGet size nobjs
    match s.fileLeftover.malloc bytes answers with
    | none => none
    | some (s, some p, answers) => some (.again (s.grown p bytes) answers)
    | some (s, none, answers) =>
      match s.findObj NFREELISTS size with
      | some i => some (.again ((s.pop (freelistIndex i)).setReserve (s.freeList (freelistIndex i)) i) answers)
      | none =>
        match (s.setReserve 0 0).malloc bytes answers with
        | none => none
        | some (s, some p, answers) => some (.again (s.grown p bytes) answers)
        | some (s, none, _) => some (.badAlloc s)

/-- `deeper`: there would be more recursive calls than are followed. -/
inductive Outcome
  | returned (s : MyAllocator) (p nobjs : ℕ)
  | badAlloc (s : MyAllocator)
  | deeper

/-- The chunk, if there is one. -/
def Outcome.chunk : Outcome → Option (ℕ × ℕ)
  | .returned _ p nobjs => some (p, nobjs)
  | .badAlloc _ | .deeper => none

/-- The end of the unrolled function. -/
def Outcome.ofPair : MyAllocator × Option (ℕ × ℕ) → Outcome
  | (s, some (p, nobjs)) => .returned s p nobjs
  | (s, none) => .badAlloc s

/-- `_S_chunk_alloc`, followed through at most `depth` recursive calls. -/
def chunkAllocRec (depth : ℕ) (s : MyAllocator) (size nobjs : ℕ) (answers : Answers) : Option Outcome :=
  match s.call size nobjs answers with
  | none => none
  | some (.chunk s p nobjs) => some (.returned s p nobjs)
  | some (.badAlloc s) => some (.badAlloc s)
  | some (.again s answers) =>
    match depth with
    | 0 => some .deeper
    | depth + 1 => chunkAllocRec depth s size nobjs answers

/-! ## The calls and the unrolled function -/

variable {elem size nobjs depth : ℕ} {s t u : MyAllocator} {L : ℕ → List ℕ} {X : List Extent} {answers : Answers}

/-- Enough for one object. -/
theorem call_of_le (hle : size ≤ s.bytesLeft) :
    s.call size nobjs answers =
      some (.chunk (s.chunkFrom size nobjs).1 (s.chunkFrom size nobjs).2.1 (s.chunkFrom size nobjs).2.2) := by
  rw [call, chunkFrom, if_pos hle]
  split
  · rfl
  · rfl

/-- Not enough for one object. -/
theorem call_of_lt (hlt : s.bytesLeft < size) (hn : 0 < nobjs) (answers : Answers) :
    s.call size nobjs answers = none ∧ s.grow size nobjs answers = none ∨
      (∃ t rest, s.call size nobjs answers = some (.again t rest) ∧ s.grow size nobjs answers = some (t, true)) ∨
      ∃ t, s.call size nobjs answers = some (.badAlloc t) ∧ s.grow size nobjs answers = some (t, false) := by
  have hmany : ¬ size * nobjs ≤ s.bytesLeft := by
    have hmul : size ≤ size * nobjs := Nat.le_mul_of_pos_right size hn
    omega
  rw [call, if_neg hmany, if_neg (Nat.not_le.2 hlt), grow]
  dsimp only
  cases s.fileLeftover.malloc (s.bytesToGet size nobjs) answers with
  | none => exact .inl ⟨rfl, rfl⟩
  | some r =>
    obtain ⟨t, p, rest⟩ := r
    cases p with
    | some p => exact .inr (.inl ⟨_, _, rfl, rfl⟩)
    | none =>
      dsimp only
      cases t.findObj NFREELISTS size with
      | some i => exact .inr (.inl ⟨_, _, rfl, rfl⟩)
      | none =>
        dsimp only
        cases (t.setReserve 0 0).malloc (s.bytesToGet size nobjs) rest with
        | none => exact .inl ⟨rfl, rfl⟩
        | some r =>
          obtain ⟨u, p, rest⟩ := r
          cases p with
          | some p => exact .inr (.inl ⟨_, _, rfl, rfl⟩)
          | none => exact .inr (.inr ⟨_, rfl, rfl⟩)

/-! ## Good free lists -/

/-- The objects on the list `i` have `8 * (i + 1)` bytes of their own, as has the reserve,
a multiple of 8, and what is in hand, `X`. Nothing is asked of what the users hold. -/
structure FreeLists (s : MyAllocator) (L : ℕ → List ℕ) (X : List Extent) : Prop where
  linked : ∀ i < NFREELISTS, Linked s.link (s.freeList i) (L i)
  cut : Cut s.mallocs ((X ++ [⟨s.startFree, s.endFree - s.startFree⟩]) ++ free L)
  bounds : ∀ r ∈ s.mallocs, 0 < r.start ∧ r.start + r.size < 2 ^ 64
  le : s.startFree ≤ s.endFree
  lt : s.endFree < 2 ^ 64
  whole : (s.endFree - s.startFree) % 8 = 0

/-- They are good in every state that can be reached. -/
theorem InvWith.freeLists (h : InvWith elem s L X) : FreeLists s L X := by
  have hcut := h.held.cut
  rw [← List.append_assoc] at hcut
  refine ⟨h.held.linked, ⟨hcut.separate.left, fun b hb => ?_⟩, h.held.bounds, h.le, h.lt, h.whole⟩
  exact hcut.within b (List.mem_append_left _ hb)

/-- They are as good for an allocator whose users hold nothing. -/
theorem freeLists_iff : FreeLists s L X ↔ InvWith 1 { s with live := [] } L X := by
  constructor
  · intro h
    refine ⟨⟨h.linked, ?_, h.bounds, fun b hb => ?_, fun b hb => ?_⟩, h.le, h.lt, h.whole⟩
    · rw [held, List.map_nil, List.append_nil]
      exact h.cut
    · cases hb
    · cases hb
  · exact fun h => ⟨h.freeLists.linked, h.freeLists.cut, h.freeLists.bounds, h.le, h.lt, h.whole⟩

/-! ## What the users hold is not touched -/

theorem malloc_live (s : MyAllocator) (live : List (ℕ × ℕ)) (bytes : ℕ) (answers : Answers) :
    ({ s with live := live }).malloc bytes answers =
      (s.malloc bytes answers).map fun r => ({ r.1 with live := live }, r.2) := by
  unfold malloc
  split
  · rfl
  · rfl
  · split
    · rfl
    · rfl

theorem push_live (s : MyAllocator) (live : List (ℕ × ℕ)) (i p : ℕ) :
    ({ s with live := live }).push i p = { s.push i p with live := live } := rfl

theorem stolen_live (s : MyAllocator) (live : List (ℕ × ℕ)) (i p bytes : ℕ) :
    (({ s with live := live }).pop i).setReserve p bytes = { (s.pop i).setReserve p bytes with live := live } := rfl

theorem fileLeftover_live (s : MyAllocator) (live : List (ℕ × ℕ)) :
    ({ s with live := live }).fileLeftover = { s.fileLeftover with live := live } := by
  have hleft : ({ s with live := live }).bytesLeft = s.bytesLeft := rfl
  rw [fileLeftover, fileLeftover, hleft, push_live]
  split
  · rfl
  · rfl

theorem chunkFrom_live (s : MyAllocator) (live : List (ℕ × ℕ)) (size nobjs : ℕ) :
    ({ s with live := live }).chunkFrom size nobjs =
      ({ (s.chunkFrom size nobjs).1 with live := live }, (s.chunkFrom size nobjs).2) := by
  have hleft : ({ s with live := live }).bytesLeft = s.bytesLeft := rfl
  rw [chunkFrom, chunkFrom, hleft]
  split
  · rfl
  · rfl

theorem findObj_live (s : MyAllocator) (live : List (ℕ × ℕ)) :
    ∀ k i, ({ s with live := live }).findObj k i = s.findObj k i
  | 0, _ => rfl
  | k + 1, i => by
    rw [findObj, findObj, findObj_live s live k]

theorem grow_live (s : MyAllocator) (live : List (ℕ × ℕ)) (size nobjs : ℕ) (answers : Answers) :
    ({ s with live := live }).grow size nobjs answers =
      (s.grow size nobjs answers).map fun r => ({ r.1 with live := live }, r.2) := by
  have hbytes : ({ s with live := live }).bytesToGet size nobjs = s.bytesToGet size nobjs := rfl
  rw [grow, grow, hbytes, fileLeftover_live, malloc_live]
  cases s.fileLeftover.malloc (s.bytesToGet size nobjs) answers with
  | none => rfl
  | some r =>
    obtain ⟨t, p, rest⟩ := r
    cases p with
    | some p => rfl
    | none =>
      simp only [Option.map_some, findObj_live]
      cases t.findObj NFREELISTS size with
      | some i =>
        dsimp only
        rw [stolen_live]
        rfl
      | none =>
        have hreserve : ({ t with live := live }).setReserve 0 0 = { t.setReserve 0 0 with live := live } := rfl
        rw [hreserve, malloc_live]
        cases (t.setReserve 0 0).malloc (s.bytesToGet size nobjs) rest with
        | none => rfl
        | some r =>
          obtain ⟨u, p, rest⟩ := r
          cases p with
          | some p => rfl
          | none => rfl

/-! ## The end of the recursion -/

/-- What `malloc` answers when `_S_chunk_alloc` asks it, twice at most: null, or a block
that it may give. -/
structure Answered (s : MyAllocator) (size nobjs : ℕ) (answers : Answers) : Prop where
  enough : 2 ≤ answers.length
  fresh : ∀ p, some p ∈ answers.take 2 → Fresh s.mallocs ⟨p, s.bytesToGet size nobjs⟩

theorem exists_malloc {a : Option ℕ} {bytes : ℕ} (answers : Answers)
    (hf : ∀ p, a = some p → Fresh s.mallocs ⟨p, bytes⟩) :
    ∃ t p, s.malloc bytes (a :: answers) = some (t, p, answers) ∧ (p = none → t = s) := by
  cases a with
  | none => exact ⟨s, none, rfl, fun _ => rfl⟩
  | some p =>
    refine ⟨{ s with mallocs := ⟨p, bytes⟩ :: s.mallocs }, some p, ?_, fun hp => by cases hp⟩
    rw [malloc, if_pos (hf p rfl)]

theorem setReserve_mallocs (s : MyAllocator) (p bytes : ℕ) : (s.setReserve p bytes).mallocs = s.mallocs := rfl

theorem fileLeftover_mallocs (s : MyAllocator) : s.fileLeftover.mallocs = s.mallocs := by
  unfold fileLeftover
  split
  · rfl
  · rfl

/-- No call waits for a third answer. -/
theorem Answered.exists_call (h : Answered s size nobjs answers) : ∃ r, s.call size nobjs answers = some r := by
  obtain ⟨a, b, rest, rfl⟩ : ∃ a b rest, answers = a :: b :: rest := by
    match answers, h.enough with
    | a :: b :: rest, _ => exact ⟨a, b, rest, rfl⟩
  have hfirst : ∀ p, a = some p → Fresh s.fileLeftover.mallocs ⟨p, s.bytesToGet size nobjs⟩ := by
    intro p ha
    rw [fileLeftover_mallocs]
    exact h.fresh p (by rw [ha]; exact List.mem_cons_self)
  have hsecond : ∀ p, b = some p → Fresh (s.fileLeftover.setReserve 0 0).mallocs ⟨p, s.bytesToGet size nobjs⟩ := by
    intro p hb
    rw [setReserve_mallocs, fileLeftover_mallocs]
    exact h.fresh p (by rw [hb]; exact List.mem_cons_of_mem _ List.mem_cons_self)
  obtain ⟨t, p, hm, hsame⟩ := exists_malloc (s := s.fileLeftover) (b :: rest) hfirst
  unfold call
  split
  · exact ⟨_, rfl⟩
  split
  · exact ⟨_, rfl⟩
  dsimp only
  rw [hm]
  cases p with
  | some p => exact ⟨_, rfl⟩
  | none =>
    obtain rfl := hsame rfl
    dsimp only
    cases s.fileLeftover.findObj NFREELISTS size with
    | some i => exact ⟨_, rfl⟩
    | none =>
      obtain ⟨u, p, hm', -⟩ := exists_malloc (s := s.fileLeftover.setReserve 0 0) rest hsecond
      dsimp only
      rw [hm']
      cases p with
      | some p => exact ⟨_, rfl⟩
      | none => exact ⟨_, rfl⟩

/-- The chunk is `k` objects from the front of the reserve of `u`, and the rest stays. -/
structure Chunk (size nobjs : ℕ) (u t : MyAllocator) (p k : ℕ) : Prop where
  least : 1 ≤ k
  most : k ≤ nobjs
  front : p = u.startFree
  fits : p + size * k ≤ u.endFree
  rest : t = { u with startFree := p + size * k }

/-- A call with enough for one object. -/
theorem FreeLists.chunk (h : FreeLists u L []) (h8 : size % 8 = 0) (hpos : 0 < size) (hn : 1 ≤ nobjs)
    (hle : size ≤ u.bytesLeft) (depth : ℕ) (answers : Answers) :
    ∃ t p k, u.chunkAllocRec depth size nobjs answers = some (.returned t p k) ∧ Chunk size nobjs u t p k ∧
      FreeLists t L [⟨p, size * k⟩] := by
  have hinv := freeLists_iff.1 h
  have hleft : u.bytesLeft = u.endFree - u.startFree := hinv.bytesLeft_eq
  obtain ⟨k, hk, hmost, hfit, heq⟩ := chunkFrom_eq hpos hle hn
  have hrec : u.chunkAllocRec depth size nobjs answers =
      some (.returned { u with startFree := u.startFree + size * k } u.startFree k) := by
    unfold chunkAllocRec
    rw [call_of_le hle, heq]
  refine ⟨_, _, k, hrec, ⟨hk, hmost, rfl, ?_, rfl⟩, freeLists_iff.2 ?_⟩
  · have hse := h.le
    omega
  · obtain ⟨k', -, hsnd, -, hchunk⟩ := chunkFrom_spec hinv hpos h8 hle hn
    rw [chunkFrom_live, heq] at hsnd hchunk
    cases hsnd
    exact hchunk

/-- A call without: enough for the recursive call, or an empty reserve. -/
theorem FreeLists.grow (h : FreeLists s L []) (h8 : size % 8 = 0) (hlo : 8 ≤ size) (hhi : size ≤ 128) (hn : 1 ≤ nobjs)
    (hlt : s.bytesLeft < size) {ok : Bool} (hg : s.grow size nobjs answers = some (t, ok)) :
    ∃ L', FreeLists t L' [] ∧ (ok = true → size ≤ t.bytesLeft) ∧ (ok = false → t.startFree = 0 ∧ t.endFree = 0) := by
  obtain ⟨i, hi, rfl⟩ : ∃ i, i < NFREELISTS ∧ size = ALIGN * (i + 1) := by
    refine ⟨size / 8 - 1, ?_, ?_⟩
    · unfold NFREELISTS
      omega
    · unfold ALIGN
      omega
  have hg' : ({ s with live := [] } : MyAllocator).grow (ALIGN * (i + 1)) nobjs answers =
      some ({ t with live := [] }, ok) := by
    rw [grow_live, hg]
    rfl
  obtain ⟨L', hinv, -, -, hleft, hempty⟩ := grow_spec (freeLists_iff.1 h) hi hlt hn hg'
  exact ⟨L', freeLists_iff.2 hinv, hleft, hempty⟩

/-- `chunkAlloc` is the function that calls itself. -/
theorem chunkAllocRec_eq (h : FreeLists s L []) (h8 : size % 8 = 0) (hlo : 8 ≤ size) (hhi : size ≤ 128) (hn : 1 ≤ nobjs)
    (depth : ℕ) (answers : Answers) :
    s.chunkAllocRec (depth + 1) size nobjs answers = (s.chunkAlloc size nobjs answers).map Outcome.ofPair := by
  by_cases hle : size ≤ s.bytesLeft
  · rw [chunkAllocRec, call_of_le hle, chunkAlloc, if_pos hle]
    rfl
  · have hlt := Nat.not_le.1 hle
    rw [chunkAlloc, if_neg hle, chunkAllocRec]
    rcases call_of_lt hlt hn answers with ⟨hcall, hg⟩ | ⟨u, rest, hcall, hg⟩ | ⟨t, hcall, hg⟩
    · rw [hcall, hg]
      rfl
    · obtain ⟨L', -, hleft, -⟩ := h.grow h8 hlo hhi hn hlt hg
      rw [hcall, hg]
      dsimp only
      unfold chunkAllocRec
      rw [call_of_le (hleft rfl)]
      rfl
    · rw [hcall, hg]
      rfl

/-- **`_S_chunk_alloc` calls itself once at most.** From any state with good free lists,
for every size and number of objects and whatever `malloc` answers: it returns, or
throws `std::bad_alloc`. It returns a chunk of one to `nobjs` objects from the front of
the reserve, the one it found or the one it grew before the recursive call, which is
nobody else's; when it throws, both pointers of the reserve are null. The free lists are
good in both cases. -/
theorem chunkAllocRec_ends (h : FreeLists s L []) (h8 : size % 8 = 0) (hlo : 8 ≤ size) (hhi : size ≤ 128)
    (hn : 1 ≤ nobjs) (ha : Answered s size nobjs answers) (depth : ℕ) :
    (∃ u t p k L', s.chunkAllocRec (depth + 1) size nobjs answers = some (.returned t p k) ∧
      (u = s ∨ ∃ rest, s.call size nobjs answers = some (.again u rest)) ∧ Chunk size nobjs u t p k ∧
        FreeLists t L' [⟨p, size * k⟩]) ∨
      ∃ t L', s.chunkAllocRec (depth + 1) size nobjs answers = some (.badAlloc t) ∧
        t.startFree = 0 ∧ t.endFree = 0 ∧ FreeLists t L' [] := by
  have hpos : 0 < size := by omega
  by_cases hle : size ≤ s.bytesLeft
  · obtain ⟨t, p, k, hrec, hchunk, hlists⟩ := h.chunk h8 hpos hn hle (depth + 1) answers
    exact .inl ⟨s, t, p, k, L, hrec, .inl rfl, hchunk, hlists⟩
  · have hlt := Nat.not_le.1 hle
    rcases call_of_lt hlt hn answers with ⟨hnone, -⟩ | ⟨u, rest, hcall, hg⟩ | ⟨t, hcall, hg⟩
    · obtain ⟨r, hr⟩ := ha.exists_call
      rw [hr] at hnone
      cases hnone
    · obtain ⟨L', hlists, hleft, -⟩ := h.grow h8 hlo hhi hn hlt hg
      obtain ⟨t, p, k, hrec, hchunk, hlists'⟩ := hlists.chunk h8 hpos hn (hleft rfl) depth rest
      refine .inl ⟨u, t, p, k, L', ?_, .inr ⟨rest, hcall⟩, hchunk, hlists'⟩
      rw [chunkAllocRec, hcall]
      exact hrec
    · obtain ⟨L', hlists, -, hempty⟩ := h.grow h8 hlo hhi hn hlt hg
      obtain ⟨hstart, hend⟩ := hempty rfl
      refine .inr ⟨t, L', ?_, hstart, hend, hlists⟩
      rw [chunkAllocRec, hcall]

/-- Objects of 8 bytes from a new allocator: `malloc` refuses once, and then gives 320
bytes, of which 160 are returned. -/
theorem chunkAllocRec_ends_bytes :
    ∃ t L', (init fun _ => 0).chunkAllocRec 1 8 20 [none, some 4096] = some (.returned t 4096 20) ∧
      FreeLists t L' [⟨4096, 160⟩] := by
  have hanswered : Answered (init fun _ => 0) 8 20 [none, some 4096] := by
    refine ⟨by decide, fun p hp => ?_⟩
    simp only [List.take_succ_cons, List.take_zero, List.mem_cons, reduceCtorEq, Option.some.injEq,
      List.not_mem_nil, or_false, false_or] at hp
    rw [hp]
    decide +kernel
  have hrun : ((init fun _ => 0).chunkAllocRec 1 8 20 [none, some 4096]).map Outcome.chunk =
      some (some (4096, 20)) := by
    decide +kernel
  rcases chunkAllocRec_ends (init_inv 1 fun _ => 0).freeLists (by decide) (by decide) (by decide) (by decide)
    hanswered 0 with ⟨u, t, p, k, L', hrec, -, -, hlists⟩ | ⟨t, L', hrec, -⟩
  · rw [hrec] at hrun
    cases hrun
    exact ⟨t, L', hrec, hlists⟩
  · rw [hrec] at hrun
    cases hrun

end Learncc.MyAllocator
