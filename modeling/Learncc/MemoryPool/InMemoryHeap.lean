/-
Histories of the allocator in its memory: calls of `tc_malloc` and `tc_free`,
one at a time, in which only live pointers are freed, and between them what
the users write into their blocks.

The last block of a span can run past the end of the span, over the first
word of a free block. `step_refines`: as long as no write changes such a word
(`Meets`), the history is one of the allocator on lists. `run_never_live`: in
such a history of one thread no pointer is handed out while it is live, and
each live pointer leads back to the span it was cut from.
-/
import Learncc.Lib.Run
import Learncc.MemoryPool.InMemoryOps

namespace Learncc

open SizeClass PageCache

namespace InMemory

/-- The allocator and the users' pointers, each with the size asked for. -/
structure Heap (τ : Type) where
  pool : Pool τ
  live : List (ℕ × ℕ)

/-- A call of thread `t`, with what `mmap` and `munmap` answer if asked and the
rounds `release_to_spans` may take; or a write of a word into a live block. -/
inductive HeapOp (τ : Type)
  | malloc (t : τ) (size : ℕ) (os : Option ℕ)
  | free (t : τ) (ptr : ℕ) (munmapOk : Bool) (rounds : ℕ)
  | write (ptr addr : ℕ) (value : UInt64)

def Pool.Central (pool : Pool τ) (p : SpanPtr) : Prop := ∃ i, p ∈ pool.spanList i

/-- The block is on the chain. -/
def Pool.Chain (pool : Pool τ) (head b : ℕ) : Prop := ∃ l, Linked pool.word head l ∧ b ∈ l

namespace Heap

variable {τ : Type}

def init (found : SpanPtr → UInt64) : Heap τ := ⟨Pool.init found, []⟩

section

variable [DecidableEq τ]

/-- `none` when a user or the system would break their side, and on a fault.
A pointer is the user's until it is passed to `tc_free`. -/
def step (s : Heap τ) : HeapOp τ → Option (Heap τ)
  | .malloc t size os =>
    if s.pool.pc.MmapOk (Learncc.Heap.asked size) os then
      (s.pool.tcMalloc t size os).toOption.map fun r => ⟨r.1, Learncc.Pool.record s.live size r.2⟩
    else none
  | .free t ptr munmapOk rounds =>
    (s.live.find? fun e => e.1 == ptr).bind fun e =>
      (s.pool.tcFree t ptr munmapOk rounds).toOption.map fun pool => ⟨pool, s.live.erase e⟩
  | .write ptr addr value =>
    (s.live.find? fun e => e.1 == ptr).bind fun e =>
      if ptr ≤ addr ∧ addr < ptr + e.2 then
        (s.pool.setNextBlock addr value.toNat).toOption.map fun pool => ⟨pool, s.live⟩
      else none

end

/-! ## What a user may write -/

/-- Where a small block is. -/
def At (s : Heap τ) (b : ℕ) : Learncc.Pool.Place τ → Prop
  | .span p => s.pool.Central p ∧ s.pool.Chain (s.pool.blockList p) b
  | .cache t i => ∃ tc, s.pool.tls t = some tc ∧ s.pool.Chain (tc i).list b
  | .live => ∃ size, (b, size) ∈ s.live ∧ size ≤ MAXBYTES
  | .hand => False

/-- The block is on one of the chains. -/
def Free (s : Heap τ) (b : ℕ) : Prop := (∃ p, s.At b (.span p)) ∨ ∃ t i, s.At b (.cache t i)

/-- The address is on the pages of the span that `ptr` was cut from. -/
def InSpan (s : Heap τ) (ptr addr : ℕ) : Prop :=
  ∃ p ∈ s.pool.origin ptr, ∃ t ∈ s.pool.pc.spans p, t.pageId ≤ addr / 4096 ∧ addr / 4096 < t.pageId + t.npages

instance (s : Heap τ) (ptr addr : ℕ) : Decidable (s.InSpan ptr addr) :=
  inferInstanceAs (Decidable (∃ p ∈ s.pool.origin ptr, ∃ t ∈ s.pool.pc.spans p, _ ∧ _))

/-- Requests are such that their pages are counted without overflow, and what
is written stays on the span of its block. -/
def Confined (s : Heap τ) : HeapOp τ → Prop
  | .malloc _ size _ => size ≤ 2 ^ 64 - 4096
  | .free .. => True
  | .write ptr addr _ => s.InSpan ptr addr

instance (s : Heap τ) : (op : HeapOp τ) → Decidable (s.Confined op)
  | .malloc _ size _ => inferInstanceAs (Decidable (size ≤ 2 ^ 64 - 4096))
  | .free .. => inferInstanceAs (Decidable True)
  | .write ptr addr _ => inferInstanceAs (Decidable (s.InSpan ptr addr))

/-- Or it changes no first word of a free block. -/
def Meets (s : Heap τ) : HeapOp τ → Prop
  | .malloc _ size _ => size ≤ 2 ^ 64 - 4096
  | .free .. => True
  | .write ptr addr value =>
    s.InSpan ptr addr ∨ s.pool.Accessible addr ∧ (s.Free addr → value.toNat = s.pool.word addr)

theorem Confined.meets (s : Heap τ) (op : HeapOp τ) (h : s.Confined op) : s.Meets op := by
  cases op with
  | malloc t size os => exact h
  | free t ptr ok rounds => trivial
  | write ptr addr value => exact .inl h

/-! ## A state -/

section

variable {s : Heap τ} {a : Learncc.Pool τ}

theorem chain_iff {pool : Pool τ} {head : ℕ} {l : List ℕ} (hl : Linked pool.word head l) {b : ℕ} :
    pool.Chain head b ↔ b ∈ l := by
  constructor
  · intro he
    obtain ⟨m, hm, hb⟩ := he
    rwa [← hm.unique hl]
  · intro hb
    exact ⟨l, hl, hb⟩

theorem central_iff (h : s.pool.Holds a) {p : SpanPtr} : s.pool.Central p ↔ a.Central p := by
  unfold Pool.Central Learncc.Pool.Central
  rw [h.spanList]

/-- The places are those of the lists. -/
theorem at_iff (h : s.pool.Holds a) {b : ℕ} {k : Learncc.Pool.Place τ} : s.At b k ↔ b ∈ a.blocksAt s.live [] k := by
  cases k with
  | span p =>
    by_cases hp : a.Central p
    · obtain ⟨i, hi⟩ := id hp
      rw [Learncc.Pool.blocksAt_span hi, At, and_iff_right ((central_iff h).2 hp), chain_iff (h.span hp)]
    · rw [Learncc.Pool.blocksAt_not_central hp]
      exact iff_of_false (fun hx => hp ((central_iff h).1 hx.1)) List.not_mem_nil
  | cache t i =>
    cases hac : a.tls t with
    | none =>
      refine iff_of_false (fun hx => ?_) ?_
      · obtain ⟨tc, htc, -⟩ := hx
        rw [h.uncached hac] at htc
        cases htc
      · simp only [Learncc.Pool.blocksAt, hac, Option.map_none, Option.getD_none, List.not_mem_nil, not_false_eq_true]
    | some ac =>
      obtain ⟨tc, htc, hfiles⟩ := h.cache hac
      simp only [At, htc, Option.some.injEq, exists_eq_left', chain_iff (hfiles i).list, Learncc.Pool.blocksAt, hac,
        Option.map_some, Option.getD_some]
  | live =>
    simp only [At, Learncc.Pool.blocksAt, List.mem_map, List.mem_filter, decide_eq_true_eq]
    constructor
    · intro he
      obtain ⟨size, hb, hsize⟩ := he
      exact ⟨(b, size), ⟨hb, hsize⟩, rfl⟩
    · intro he
      obtain ⟨⟨c, size⟩, ⟨hb, hsize⟩, rfl⟩ := he
      exact ⟨size, hb, hsize⟩
  | hand => exact iff_of_false id List.not_mem_nil

theorem unchained_of_not_free (h : s.pool.Holds a) {b : ℕ} (hb : ¬ s.Free b) : a.Unchained b := by
  refine ⟨fun {p} hp hm => hb (.inl ⟨p, (at_iff h).2 (Learncc.Pool.mem_span hp hm)⟩), fun {t ac} hac i hm => ?_⟩
  exact hb (.inr ⟨t, i, (at_iff h).2 (Learncc.Pool.mem_cache hac hm)⟩)

/-- No free block starts on what a live block has of its span, but for the
block itself. -/
theorem unchained_of_inSpan (h : s.pool.Holds a) (hs : Learncc.Heap.Sound ⟨a, s.live⟩) {ptr size addr : ℕ}
    (hp : (ptr, size) ∈ s.live) (hlow : ptr ≤ addr) (hhigh : addr < ptr + size) (hin : s.InSpan ptr addr) :
    a.Unchained addr := by
  by_contra hno
  obtain ⟨bytes, i, q, u, hq, hu, -, hbu⟩ : ∃ bytes, a.CutFrom bytes addr := by
    by_contra hcut
    exact hno (hs.pool.unchained_of_uncut (not_exists.1 hcut))
  obtain ⟨p, ho, t, ht, hpage⟩ := hin
  rw [h.origin, Option.mem_def] at ho
  rw [h.pc, Option.mem_def] at ht
  obtain ⟨r, hpc⟩ := hs.pool.pages
  have hc := (hs.pool.filed_of hq hu).isClass
  -- The span of the free block has the page too, so it is the span of `ptr`.
  have hmine : ∀ {U : a.InUse s.live p}, p = q := fun {U} =>
    hpc.layout.tiles.unique ⟨_, _, hpc.on ht (.inl U), hpage⟩
      ⟨_, _, hpc.on hu (.inl (.inl ⟨i, hq⟩)), u.page_of_block hc.pos hbu⟩
  by_cases hsize : size ≤ MAXBYTES
  · obtain ⟨m, hr, j, p', t', hp', ht', hm, hbt⟩ := hs.pool.small hp hsize
    have hpp : p' = p := Option.some.inj (((hs.pool.filed_of hp' ht').origin ptr hbt).symm.trans ho)
    subst hpp
    obtain rfl := @hmine (.inl ⟨j, hp'⟩)
    obtain rfl : t' = u := Option.some.inj (ht'.symm.trans hu)
    have hle : size ≤ t'.blockSize := by
      have hfits := hs.fits hp
      unfold Learncc.Heap.Fits at hfits
      unfold MAXBYTES at hsize
      obtain ⟨m', hr', hle, -⟩ := roundUp_class (show 0 < size by omega) (by omega)
      rw [hr] at hr'
      cases hr'
      omega
    obtain rfl := t'.block_unique hc.pos hbt hbu hlow (by omega)
    exact hno (hs.pool.unchained_of_live hp hsize)
  · obtain ⟨p', t', hl⟩ := hs.pool.large hp (Nat.not_le.1 hsize)
    have hpp : p' = p := Option.some.inj (hl.origin.symm.trans ho)
    subst hpp
    obtain rfl := @hmine (.inr ⟨ptr, size, hp, Nat.not_le.1 hsize, hl.origin⟩)
    exact hl.apart ⟨i, hq⟩

/-- A live pointer leads to the span it was cut from, which has the block
size of its request. -/
structure Leads (s : Heap τ) (ptr size : ℕ) (p : SpanPtr) (t : Span) : Prop where
  mapped : s.pool.pc.blockToSpan ptr = .ok p
  origin : s.pool.origin ptr = some p
  span : s.pool.pc.spans p = some t
  small : size ≤ MAXBYTES → roundUp size = .ok t.blockSize ∧ ptr ∈ t.blocks
  large : MAXBYTES < size → t.blockSize = Learncc.Pool.largePages size * 4096 ∧ ptr = t.pageId * 4096

theorem leads (h : s.pool.Holds a) (hs : Learncc.Heap.Sound ⟨a, s.live⟩) {ptr size : ℕ} (hp : (ptr, size) ∈ s.live) :
    ∃ p t, s.Leads ptr size p t := by
  by_cases hsize : size ≤ MAXBYTES
  · obtain ⟨bytes, hr, i, p, t, hm, ht, rfl, hb⟩ := hs.pool.small hp hsize
    exact ⟨p, t, h.pc ▸ hs.pool.blockToSpan_block hm ht hb, h.origin ▸ (hs.pool.filed_of hm ht).origin ptr hb,
      h.pc ▸ ht, fun _ => ⟨hr, hb⟩, fun hlt => absurd hlt (Nat.not_lt.2 hsize)⟩
  · have hlow : MAXBYTES < size := Nat.not_le.1 hsize
    obtain ⟨p, t, hl⟩ := hs.pool.large hp hlow
    exact ⟨p, t, h.pc ▸ hs.pool.blockToSpan_large hp hlow hl, h.origin ▸ hl.origin, h.pc ▸ hl.span,
      fun hle => absurd hle hsize, fun _ => ⟨by rw [hl.bytes, hl.pages]; rfl, hl.addr⟩⟩

theorem init_holds (found : SpanPtr → UInt64) : (init found : Heap τ).pool.Holds (Learncc.Pool.init found) := by
  refine ⟨rfl, rfl, rfl, fun {p} hp => ?_, fun hac => (by cases hac), fun _ => rfl⟩
  exact rfl

/-! ## A step -/

variable [DecidableEq τ] {s' : Heap τ}

theorem malloc_refines (h : s.pool.Holds a) (hs : Learncc.Heap.Sound ⟨a, s.live⟩) {t : τ} {size : ℕ} {os : Option ℕ}
    (hsize : size ≤ 2 ^ 64 - 4096) (hstep : s.step (.malloc t size os) = some s') :
    ∃ a', s'.pool.Holds a' ∧ Learncc.Heap.Call ⟨a, s.live⟩ ⟨a', s'.live⟩ := by
  by_cases hok : s.pool.pc.MmapOk (Learncc.Heap.asked size) os
  · rw [step, if_pos hok] at hstep
    obtain ⟨⟨pool, r⟩, heq, rfl⟩ := Option.map_eq_some_iff.1 hstep
    rw [toOption_eq_some] at heq
    rw [h.pc] at hok
    have hmatch := Pool.tcMalloc_matches h hs.pool hs.used t size hok
    rw [heq] at hmatch
    obtain ⟨⟨a', r'⟩, heq', hr, hholds⟩ := hmatch.ok_of
    obtain rfl : r = r' := hr
    have hfits : Learncc.Heap.Fits size := by
      by_cases hsmall : size ≤ MAXBYTES
      · exact Learncc.Heap.fits_of_small hsmall heq'
      · unfold MAXBYTES at hsmall
        unfold Learncc.Heap.Fits
        omega
    exact ⟨a', hholds, .malloc hfits hok heq'⟩
  · simp only [step, if_neg hok, reduceCtorEq] at hstep

theorem free_refines (h : s.pool.Holds a) (hs : Learncc.Heap.Sound ⟨a, s.live⟩) {t : τ} {ptr rounds : ℕ} {ok : Bool}
    (hstep : s.step (.free t ptr ok rounds) = some s') :
    ∃ a', s'.pool.Holds a' ∧ Learncc.Heap.Call ⟨a, s.live⟩ ⟨a', s'.live⟩ := by
  obtain ⟨⟨b, size⟩, hfind, hstep⟩ := Option.bind_eq_some_iff.1 hstep
  have hm := List.mem_of_find?_eq_some hfind
  obtain rfl : b = ptr := by simpa using List.find?_some hfind
  obtain ⟨pool, heq, rfl⟩ := Option.map_eq_some_iff.1 hstep
  rw [toOption_eq_some] at heq
  obtain ⟨n, hn⟩ := Pool.tcFree_matches h hs.pool hs.used hm (hs.fits hm).le t ok
  obtain ⟨henough, hshort⟩ := hn rounds
  -- The loop had the rounds it takes, since it ended.
  have hle : n ≤ rounds := by
    by_contra hlt
    obtain ⟨f, hf⟩ := hshort (Nat.not_le.1 hlt)
    rw [heq] at hf
    cases hf
  have hmatch := henough hle
  rw [heq] at hmatch
  obtain ⟨a', heq', hholds⟩ := hmatch.ok_of
  exact ⟨a', hholds, .free hm heq'⟩

theorem write_refines (h : s.pool.Holds a) (hs : Learncc.Heap.Sound ⟨a, s.live⟩) {ptr addr : ℕ} {value : UInt64}
    (hm : s.Meets (.write ptr addr value)) (hstep : s.step (.write ptr addr value) = some s') :
    s'.pool.Holds a ∧ s'.live = s.live := by
  obtain ⟨⟨b, size⟩, hfind, hstep⟩ := Option.bind_eq_some_iff.1 hstep
  have hlive := List.mem_of_find?_eq_some hfind
  obtain rfl : b = ptr := by simpa using List.find?_some hfind
  by_cases hin : b ≤ addr ∧ addr < b + size
  · simp only [if_pos hin] at hstep
    obtain ⟨pool, heq, rfl⟩ := Option.map_eq_some_iff.1 hstep
    rw [toOption_eq_some, Pool.setNextBlock] at heq
    split at heq
    · obtain rfl := Except.ok.inj heq
      refine ⟨?_, rfl⟩
      rcases hm with hspan | ⟨-, hsame⟩
      · exact h.update (unchained_of_inSpan h hs hlive hin.1 hin.2 hspan) _
      · by_cases hfree : s.Free addr
        · rwa [hsame hfree, Function.update_eq_self]
        · exact h.update (unchained_of_not_free h hfree) _
    · cases heq
  · simp only [if_neg hin, reduceCtorEq] at hstep

/-- **The memory refines the lists.** A step that meets the condition is a call
of the allocator on lists, and leaves a memory that holds the new lists. -/
theorem step_refines {op : HeapOp τ} (h : s.pool.Holds a) (hs : Learncc.Heap.Sound ⟨a, s.live⟩) (hm : s.Meets op)
    (hstep : s.step op = some s') : ∃ a', s'.pool.Holds a' ∧ Learncc.Heap.Call ⟨a, s.live⟩ ⟨a', s'.live⟩ := by
  cases op with
  | malloc t size os => exact malloc_refines h hs hm hstep
  | free t ptr ok rounds => exact free_refines h hs hstep
  | write ptr addr value =>
    obtain ⟨hholds, hlive⟩ := write_refines h hs hm hstep
    exact ⟨a, hholds, hlive ▸ .stay⟩

/-- So what calls on lists keep, histories keep. -/
theorem run_refines {I : Learncc.Heap τ → Prop} (hsound : ∀ {b}, I b → b.Sound)
    (hcall : ∀ {b b'}, I b → b.Call b' → I b') {found : SpanPtr → UInt64} (hinit : I (Learncc.Heap.init found))
    {ops : List (HeapOp τ)} (hm : Run.Along step Meets (init found) ops)
    (h : Run.run step (init found) ops = some s) : ∃ a, s.pool.Holds a ∧ I ⟨a, s.live⟩ := by
  refine Run.run_along_invariant (fun s => ∃ a, s.pool.Holds a ∧ I ⟨a, s.live⟩) (fun s op s' hi hm hstep => ?_)
    ⟨_, init_holds found, hinit⟩ hm h
  obtain ⟨a, hholds, hi⟩ := hi
  obtain ⟨a', hholds', hc⟩ := step_refines hholds (hsound hi) hm hstep
  exact ⟨a', hholds', hcall hi hc⟩

theorem run_sound {found : SpanPtr → UInt64} (hzero : ∀ p, found p = 0) {ops : List (HeapOp τ)}
    (hm : Run.Along step Meets (init found) ops) (h : Run.run step (init found) ops = some s) :
    ∃ a, s.pool.Holds a ∧ Learncc.Heap.Sound ⟨a, s.live⟩ :=
  run_refines id (fun hs hc => (hs.moves hc).sound) (Learncc.Heap.init_sound hzero) hm h

/-! ## Any history of one thread -/

/-- Every request that fits is answered, with a pointer that is not live
unless the system has no memory. -/
theorem malloc_spec (h : s.pool.Holds a) (hs : Learncc.Heap.Sound ⟨a, s.live⟩) (t : τ) {size : ℕ} {os : Option ℕ}
    (hsize : Learncc.Heap.Fits size) (hok : s.pool.pc.MmapOk (Learncc.Heap.asked size) os) :
    ∃ pool r a', s.pool.tcMalloc t size os = .ok (pool, r) ∧ pool.Holds a' ∧
      Learncc.Heap.Sound ⟨a', Learncc.Pool.record s.live size r⟩ ∧ (r = none → os = none) ∧
      ∀ ptr, r = some ptr → ptr ∉ s.live.map Prod.fst := by
  rw [h.pc] at hok
  obtain ⟨a', r, heq, hsound, hnone, hnew, -⟩ := hs.malloc t hsize hok
  have hmatch := Pool.tcMalloc_matches h hs.pool hs.used t size hok
  rw [heq] at hmatch
  obtain ⟨⟨pool, r'⟩, heq', hr, hholds⟩ := hmatch.of_ok
  obtain rfl : r' = r := hr
  exact ⟨pool, r', a', heq', hholds, hsound, hnone, hnew⟩

/-- **No live address is handed out.** In every history of one thread that
meets the condition: every further request that fits is answered, with a
pointer that is not live unless the system has no memory; every live pointer
leads to the span it was cut from, with the block size of its request; and
every live pointer can be freed, which for a small one files it under the
class of its request. -/
theorem run_never_live {ops : List (HeapOp Unit)} {s : Heap Unit} (hm : Run.Along step Meets (init fun _ => 0) ops)
    (h : Run.run step (init fun _ => 0) ops = some s) :
    (∀ size os, Learncc.Heap.Fits size → s.pool.pc.MmapOk (Learncc.Heap.asked size) os →
      ∃ pool r, s.pool.tcMalloc () size os = .ok (pool, r) ∧ (r = none → os = none) ∧
        ∀ ptr, r = some ptr → ptr ∉ s.live.map Prod.fst) ∧
    ∀ ptr size, (ptr, size) ∈ s.live →
      (∃ p t, s.Leads ptr size p t) ∧
      ∀ ok, (∃ n, ∀ rounds, n ≤ rounds → ∃ pool, s.pool.tcFree () ptr ok rounds = .ok pool) ∧
        (size ≤ MAXBYTES → ∃ bytes, roundUp size = .ok bytes ∧
          ∀ rounds, s.pool.tcFree () ptr ok rounds = s.pool.deallocate () ptr bytes rounds) := by
  obtain ⟨a, hholds, hi⟩ := run_refines (I := Learncc.Heap.Single) (fun hi => hi.sound) (fun hi => hi.call)
    ⟨Learncc.Heap.init_sound fun _ => rfl, fun hp => by cases hp⟩ hm h
  have hs := hi.sound
  refine ⟨fun size os hsize hok => ?_, fun ptr size hp => ⟨leads hholds hs hp, fun ok => ⟨?_, fun hsize => ?_⟩⟩⟩
  · obtain ⟨pool, r, -, heq, -, -, hnone, hnew⟩ := malloc_spec hholds hs () hsize hok
    exact ⟨pool, r, heq, hnone, hnew⟩
  · obtain ⟨a', heq, -⟩ := hs.free hp (hi.cache hp) ok
    obtain ⟨n, hn⟩ := Pool.tcFree_matches hholds hs.pool hs.used hp (hs.fits hp).le () ok
    refine ⟨n, fun rounds hle => ?_⟩
    have hmatch := (hn rounds).1 hle
    rw [heq] at hmatch
    obtain ⟨pool, heq', -⟩ := hmatch.of_ok
    exact ⟨pool, heq'⟩
  · obtain ⟨bytes, hround, -, heq⟩ := hholds.tcFree_small hs.pool hp hsize () ok
    exact ⟨bytes, hround, heq⟩

/-- Two small blocks, of which the first comes back and the second is written
to, and a large one. -/
def threeRequests : List (HeapOp Unit) :=
  [.malloc () 60000 (some 16), .malloc () 60000 none, .free () 471040 true 0, .write 531456 531464 471040,
    .malloc () 70000 none]

theorem run_never_live_threeRequests :
    ∃ s, Run.run step (init fun _ => 0) threeRequests = some s ∧ s.live = [(397312, 70000), (531456, 60000)] ∧
      ∀ ptr size, (ptr, size) ∈ s.live → ∃ p t, s.Leads ptr size p t := by
  have hsome : (Run.run step (init fun _ => 0) threeRequests).map (fun s => s.live) =
      some [(397312, 70000), (531456, 60000)] := by decide +kernel
  obtain ⟨s, hs, hl⟩ := Option.map_eq_some_iff.1 hsome
  have hmeets := Run.along_mono Confined.meets
    (show Run.Along step Confined (init fun _ => 0) threeRequests by decide +kernel)
  exact ⟨s, hs, hl, fun ptr size hp => ((run_never_live hmeets hs).2 ptr size hp).1⟩

/-- Four blocks from two spans. The first word of the first one, which comes
back, is 32256 bytes into the last one. -/
def overrun (value : UInt64) : List (HeapOp Unit) :=
  [.malloc () 33280 (some 16), .malloc () 33280 none, .malloc () 33280 none, .malloc () 33280 none,
    .free () 524288 true 0, .write 492032 524288 value]

/-- The first request after it gets the first block, the second one a block
that is live. -/
theorem live_handed_out :
    ∃ s pool ptr, Run.run step (init fun _ => 0) (overrun 458752 ++ [.malloc () 33280 none]) = some s ∧
      s.pool.tcMalloc () 33280 none = .ok (pool, some ptr) ∧ ptr ∈ s.live.map Prod.fst := by
  have hsome : (Run.run step (init fun _ => 0) (overrun 458752 ++ [.malloc () 33280 none])).bind (fun s =>
      (s.pool.tcMalloc () 33280 none).toOption.map fun r => (r.2, s.live.map Prod.fst)) =
        some (some 458752, [524288, 492032, 458752, 557568]) := by decide +kernel
  obtain ⟨s, hs, hsome⟩ := Option.bind_eq_some_iff.1 hsome
  obtain ⟨⟨pool, r⟩, heq, hr⟩ := Option.map_eq_some_iff.1 hsome
  rw [toOption_eq_some] at heq
  obtain ⟨hptr, hlive⟩ := Prod.mk.inj hr
  obtain rfl : r = some 458752 := hptr
  exact ⟨s, pool, 458752, hs, heq, hlive ▸ by decide⟩

end

end Heap

end InMemory

end Learncc
