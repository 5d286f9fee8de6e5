/-
`tc_malloc` and `tc_free` (inc/memory_pool/alloc.h) with the two caches
between them and the page cache: `thread_cache` (src/memory_pool/
thread_cache.cc), one for each thread, and `central_cache`
(src/memory_pool/central_cache.cc), shared.

A chain of free blocks is here the list of their addresses; the source links
it through the blocks' first words, as `Learncc.MemoryPool.InMemory` does.
`origin` is no part of the program: it records which span an address was cut
from.
-/
import Learncc.MemoryPool.PageCache

namespace Learncc

/-- `free_list`. -/
structure FreeList where
  list : List ℕ
  size : ℕ
  maxSize : ℕ
deriving Repr, DecidableEq

namespace FreeList

def new : FreeList := { list := [], size := 0, maxSize := 1 }

def push (f : FreeList) (ptr : ℕ) : FreeList := { f with list := ptr :: f.list, size := size64 (f.size + 1) }

def pushRange (f : FreeList) (blocks : List ℕ) (n : ℕ) : FreeList :=
  { f with list := blocks ++ f.list, size := size64 (f.size + n) }

def clear (f : FreeList) : FreeList := { f with list := [], size := 0 }

end FreeList

/-- `thread_cache`: `free_list_[NLISTS]`. -/
abbrev ThreadCache := ℕ → FreeList

def ThreadCache.new : ThreadCache := fun _ => FreeList.new

/-- The allocator: the page cache, `span_list_[NLISTS]` of the central cache
and the `block_list_` of its spans, and each thread's `tls_threadcache`. -/
structure Pool (τ : Type) where
  pc : PageCache
  blockList : SpanPtr → List ℕ
  spanList : ℕ → List SpanPtr
  tls : τ → Option ThreadCache
  origin : ℕ → Option SpanPtr

/-- `page_id << PAGE_SHIFT`. -/
def pageAddr (pageId : ℕ) : ℕ := size64 (pageId * 2 ^ PAGESHIFT)

namespace Pool

open SizeClass PageCache

variable {τ : Type} [DecidableEq τ]

def init (found : SpanPtr → UInt64) : Pool τ :=
  { pc := PageCache.init found, blockList := fun _ => [], spanList := fun _ => [], tls := fun _ => none,
    origin := fun _ => none }

/-- An access to one of the arrays of `NLISTS` lists. -/
def listIndex (idx : ℕ) : Except Fault Unit := if idx < NLISTS then .ok () else .error .undefined

/-! ## central_cache -/

/-- The loop that links the blocks of a span, from `cur` on; a `bytes` of 0
would keep it going. -/
def carve (bytes stop : ℕ) : ℕ → ℕ → Except Fault (List ℕ)
  | 0, _ => .error .undefined
  | fuel + 1, cur =>
    if cur + bytes < stop then do .ok (cur :: (← carve bytes stop fuel (cur + bytes))) else .ok [cur]

/-- The first span of the list that has a block left. -/
def withBlocks (pc : PageCache) (empty : SpanPtr → Bool) : List SpanPtr → Except Fault (Option SpanPtr)
  | [] => .ok none
  | p :: ps => do
    let _ ← pc.deref p
    if empty p then withBlocks pc empty ps else .ok (some p)

def getOneSpan (pool : Pool τ) (idx bytes : ℕ) (os : Option ℕ) : Except Fault (Pool τ × SpanPtr) := do
  match ← withBlocks pool.pc (fun p => (pool.blockList p).isEmpty) (pool.spanList idx) with
  | some p => .ok (pool, p)
  | none =>
    let (pc, p) ← pool.pc.newSpan (movePage bytes) os
    let s ← pc.deref p
    let start := pageAddr s.pageId
    let blocks ← carve bytes (start + pageBytes s.npages) (pageBytes s.npages) start
    .ok ({ pool with
        pc := pc.setSpan p { s with blockSize := bytes, usedCount := 0 }
        blockList := Function.update pool.blockList p blocks
        spanList := Function.update pool.spanList idx (p :: pool.spanList idx)
        origin := fun b => if b ∈ blocks then some p else pool.origin b }, p)

/-- Returns the chain of blocks, its first one apart, and how many it counted.
Asked for none it would cut the chain behind the first block and hand that
one out all the same. -/
def fetchRangeBlock (pool : Pool τ) (num bytes : ℕ) (os : Option ℕ) : Except Fault (Pool τ × ℕ × List ℕ × ℕ) := do
  let idx ← index bytes
  listIndex idx
  let (pool, p) ← pool.getOneSpan idx bytes os
  let s ← pool.pc.deref p
  match pool.blockList p with
  | [] => .error .undefined
  | start :: rest =>
    let fetchnum := min num (pool.blockList p).length
    let left := if num = 0 then [start] else (pool.blockList p).drop num
    let pool := { pool with
      pc := pool.pc.setSpan p { s with usedCount := size64 (s.usedCount + fetchnum) }
      blockList := Function.update pool.blockList p left }
    if left = [] then
      if p ∈ pool.spanList idx then
        .ok ({ pool with spanList := Function.update pool.spanList idx ((pool.spanList idx).erase p ++ [p]) },
          start, rest.take (num - 1), fetchnum)
      else .error .undefined
    else .ok (pool, start, rest.take (num - 1), fetchnum)

/-- The loop of `release_to_spans`. A span of blocks is shorter than
`NPAGES`, so no release here reaches `munmap`. -/
def releaseBlocks (idx : ℕ) : List ℕ → Pool τ → Except Fault (Pool τ)
  | [], pool => .ok pool
  | b :: bs, pool => do
    let p ← pool.pc.blockToSpan b
    let s ← pool.pc.deref p
    if dec64 s.usedCount = 0 then
      if p ∈ pool.spanList idx then
        let pc ← (pool.pc.setSpan p { s with blockSize := 0, usedCount := 0 }).releaseToPagecache p true
        releaseBlocks idx bs { pool with
          pc
          blockList := Function.update pool.blockList p []
          spanList := Function.update pool.spanList idx ((pool.spanList idx).erase p) }
      else .error .undefined
    else
      releaseBlocks idx bs { pool with
        pc := pool.pc.setSpan p { s with usedCount := dec64 s.usedCount }
        blockList := Function.update pool.blockList p (b :: pool.blockList p) }

def releaseToSpans (pool : Pool τ) (blocks : List ℕ) (bytes : ℕ) : Except Fault (Pool τ) := do
  let idx ← index bytes
  listIndex idx
  releaseBlocks idx blocks pool

/-! ## thread_cache -/

/-- `tls_threadcache`, followed. -/
def cacheOf (pool : Pool τ) (t : τ) : Except Fault ThreadCache :=
  match pool.tls t with
  | some tc => .ok tc
  | none => .error .undefined

def setFreeList (pool : Pool τ) (t : τ) (idx : ℕ) (f : FreeList) : Except Fault (Pool τ) := do
  let tc ← pool.cacheOf t
  .ok { pool with tls := Function.update pool.tls t (some (Function.update tc idx f)) }

def fetchFromCentralcache (pool : Pool τ) (t : τ) (idx bytes : ℕ) (os : Option ℕ) : Except Fault (Pool τ × ℕ) := do
  let f := (← pool.cacheOf t) idx
  let num := min (moveNum bytes) f.maxSize
  let (pool, start, rest, fetchnum) ← pool.fetchRangeBlock num bytes os
  let f := if 1 < fetchnum then f.pushRange rest (fetchnum - 1) else f
  let f := if num = f.maxSize then { f with maxSize := num + 1 } else f
  .ok (← pool.setFreeList t idx f, start)

def allocate (pool : Pool τ) (t : τ) (bytes : ℕ) (os : Option ℕ) : Except Fault (Pool τ × ℕ) := do
  check (bytes < MAXBYTES)
  let bytes ← roundUp bytes
  let idx ← index bytes
  listIndex idx
  let f := (← pool.cacheOf t) idx
  match f.list with
  | b :: bs => .ok (← pool.setFreeList t idx { f with list := bs, size := dec64 f.size }, b)
  | [] => pool.fetchFromCentralcache t idx bytes os

def deallocate (pool : Pool τ) (t : τ) (ptr bytes : ℕ) : Except Fault (Pool τ) := do
  check (bytes < MAXBYTES)
  let idx ← index bytes
  listIndex idx
  let f := ((← pool.cacheOf t) idx).push ptr
  if f.maxSize ≤ f.size then
    -- `list_too_long`
    (← pool.setFreeList t idx f.clear).releaseToSpans f.list bytes
  else pool.setFreeList t idx f

/-! ## tc_malloc and tc_free -/

/-- The pages of a request above `MAXBYTES`. -/
def largePages (size : ℕ) : ℕ := roundUpTo size (2 ^ PAGESHIFT) / 2 ^ PAGESHIFT

def mallocLarge (pool : Pool τ) (size : ℕ) (os : Option ℕ) : Except Fault (Pool τ × ℕ) := do
  let (pc, p) ← pool.pc.newSpan (largePages size) os
  let s ← pc.deref p
  let ptr := pageAddr s.pageId
  .ok ({ pool with
      pc := pc.setSpan p { s with usedCount := size64 (s.usedCount + 1) }
      origin := Function.update pool.origin ptr (some p) }, ptr)

/-- `tls_threadcache = new thread_cache`, when there is none. -/
def ensureCache (pool : Pool τ) (t : τ) : Pool τ :=
  match pool.tls t with
  | some _ => pool
  | none => { pool with tls := Function.update pool.tls t (some ThreadCache.new) }

/-- What the caller sees: a pointer, or `none` when `std::bad_alloc` came out
of the system call, before anything else was written. -/
def caught (pool : Pool τ) : Except Fault (Pool τ × ℕ) → Except Fault (Pool τ × Option ℕ)
  | .ok (pool', ptr) => .ok (pool', some ptr)
  | .error .badAlloc => .ok (pool, none)
  | .error f => .error f

def tcMalloc (pool : Pool τ) (t : τ) (size : ℕ) (os : Option ℕ) : Except Fault (Pool τ × Option ℕ) :=
  if MAXBYTES < size then pool.caught (pool.mallocLarge size os)
  else (pool.ensureCache t).caught ((pool.ensureCache t).allocate t size os)

def tcFree (pool : Pool τ) (t : τ) (ptr : ℕ) (munmapOk : Bool) : Except Fault (Pool τ) := do
  let p ← pool.pc.blockToSpan ptr
  let s ← pool.pc.deref p
  if MAXBYTES < s.blockSize then
    let pc ← (pool.pc.setSpan p { s with usedCount := dec64 s.usedCount }).releaseToPagecache p munmapOk
    .ok { pool with pc }
  else pool.deallocate t ptr s.blockSize

end Pool

end Learncc
