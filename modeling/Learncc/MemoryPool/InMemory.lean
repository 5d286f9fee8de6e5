/-
The allocator in its memory. A free block is linked to the next by its first
word, `next_block(ptr)`, so a chain is what the words say it is: who writes
the first word of a free block changes the chain it is on. The functions are
those of `Learncc.MemoryPool.Alloc`, on pointers.

The memory is that of the pages the page cache has mapped. Any other is not
the allocator's, and a new mapping is filled with zeros.
-/
import Learncc.MemoryPool.AllocFacts

namespace Learncc

open SizeClass PageCache

namespace InMemory

/-- `free_list`. -/
structure FreeList where
  list : ℕ
  size : ℕ
  maxSize : ℕ
deriving Repr, DecidableEq

namespace FreeList

def new : FreeList := { list := 0, size := 0, maxSize := 1 }

def clear (f : FreeList) : FreeList := { f with list := 0, size := 0 }

end FreeList

/-- `thread_cache`: `free_list_[NLISTS]`. -/
abbrev ThreadCache := ℕ → FreeList

def ThreadCache.new : ThreadCache := fun _ => FreeList.new

/-- `blockList` is `block_list_` of the span objects, which nobody but the
central cache uses. `origin` is no part of the program: it records which span
an address was cut from. -/
structure Pool (τ : Type) where
  pc : PageCache
  word : ℕ → ℕ
  blockList : SpanPtr → ℕ
  spanList : ℕ → List SpanPtr
  tls : τ → Option ThreadCache
  origin : ℕ → Option SpanPtr

namespace Pool

variable {τ : Type}

def init (found : SpanPtr → UInt64) : Pool τ :=
  { pc := PageCache.init found, word := fun _ => 0, blockList := fun _ => 0, spanList := fun _ => [],
    tls := fun _ => none, origin := fun _ => none }

/-! ## next_block -/

/-- A pointer to a word of the memory. -/
def Accessible (pool : Pool τ) (ptr : ℕ) : Prop := ptr % 8 = 0 ∧ pool.pc.mapped (ptr / 2 ^ PAGESHIFT) = true

instance (pool : Pool τ) (ptr : ℕ) : Decidable (pool.Accessible ptr) := inferInstanceAs (Decidable (_ ∧ _))

def nextBlock (pool : Pool τ) (ptr : ℕ) : Except Fault ℕ :=
  if pool.Accessible ptr then .ok (pool.word ptr) else .error .undefined

/-- `next_block(ptr) = next`. -/
def setNextBlock (pool : Pool τ) (ptr next : ℕ) : Except Fault (Pool τ) :=
  if pool.Accessible ptr then .ok { pool with word := Function.update pool.word ptr next } else .error .undefined

/-- What `munmap` leaves of the memory. -/
def remap (pool : Pool τ) (pc : PageCache) : Pool τ :=
  { pool with pc, word := fun a => if pc.mapped (a / 2 ^ PAGESHIFT) then pool.word a else 0 }

/-! ## free_list -/

def push (pool : Pool τ) (f : FreeList) (ptr : ℕ) : Except Fault (Pool τ × FreeList) := do
  let pool ← pool.setNextBlock ptr f.list
  .ok (pool, { f with list := ptr, size := size64 (f.size + 1) })

def pushRange (pool : Pool τ) (f : FreeList) (start stop n : ℕ) : Except Fault (Pool τ × FreeList) := do
  let pool ← pool.setNextBlock stop f.list
  .ok (pool, { f with list := start, size := size64 (f.size + n) })

def pop (pool : Pool τ) (f : FreeList) : Except Fault (FreeList × ℕ) := do
  let next ← pool.nextBlock f.list
  .ok ({ f with list := next, size := dec64 f.size }, f.list)

/-! ## central_cache -/

/-- The loop that links the blocks of a span, and the null behind it; a
`bytes` of 0 would keep it going. -/
def linkBlocks (bytes stop : ℕ) : ℕ → Pool τ → ℕ → ℕ → Except Fault (Pool τ)
  | 0, _, _, _ => .error .undefined
  | fuel + 1, pool, cur, next =>
    if next < stop then do linkBlocks bytes stop fuel (← pool.setNextBlock cur next) next (next + bytes)
    else pool.setNextBlock cur 0

def getOneSpan (pool : Pool τ) (idx bytes : ℕ) (os : Option ℕ) : Except Fault (Pool τ × SpanPtr) := do
  match ← Learncc.Pool.withBlocks pool.pc (fun p => pool.blockList p == 0) (pool.spanList idx) with
  | some p => .ok (pool, p)
  | none =>
    let (pc, p) ← pool.pc.newSpan (movePage bytes) os
    let s ← pc.deref p
    let start := pageAddr s.pageId
    let stop := start + pageBytes s.npages
    let pool ← linkBlocks bytes stop (pageBytes s.npages) { pool with pc } start (start + bytes)
    .ok ({ pool with
        pc := pool.pc.setSpan p { s with blockSize := bytes, usedCount := 0 }
        blockList := Function.update pool.blockList p start
        spanList := Function.update pool.spanList idx (p :: pool.spanList idx)
        origin := fun b => if b ∈ ({ s with blockSize := bytes } : Span).blocks then some p else pool.origin b }, p)

/-- `while (cur != nullptr && fetchnum < num)`, with `left` for `num - fetchnum`:
what `pre`, `cur` and `fetchnum` are behind it. -/
def walk (pool : Pool τ) : ℕ → ℕ → ℕ → ℕ → Except Fault (ℕ × ℕ × ℕ)
  | 0, pre, cur, fetchnum => .ok (pre, cur, fetchnum)
  | left + 1, pre, cur, fetchnum =>
    if cur = 0 then .ok (pre, cur, fetchnum) else do walk pool left cur (← pool.nextBlock cur) (fetchnum + 1)

/-- `start`, `end` and `fetchnum`. -/
def fetchRangeBlock (pool : Pool τ) (num bytes : ℕ) (os : Option ℕ) : Except Fault (Pool τ × ℕ × ℕ × ℕ) := do
  let idx ← index bytes
  Learncc.Pool.listIndex idx
  let (pool, p) ← pool.getOneSpan idx bytes os
  let s ← pool.pc.deref p
  let start := pool.blockList p
  let (stop, cur, fetchnum) ← pool.walk num start start 0
  let pool ← pool.setNextBlock stop 0
  let pool := { pool with
    pc := pool.pc.setSpan p { s with usedCount := size64 (s.usedCount + fetchnum) }
    blockList := Function.update pool.blockList p cur }
  if cur = 0 then
    if p ∈ pool.spanList idx then
      .ok ({ pool with spanList := Function.update pool.spanList idx ((pool.spanList idx).erase p ++ [p]) },
        start, stop, fetchnum)
    else .error .undefined
  else .ok (pool, start, stop, fetchnum)

/-- The body of the loop of `release_to_spans`, with what `start` is behind
it. A span of blocks is shorter than `NPAGES`, so no release here reaches
`munmap`. -/
def releaseBlock (pool : Pool τ) (idx start : ℕ) : Except Fault (Pool τ × ℕ) := do
  let next ← pool.nextBlock start
  let p ← pool.pc.blockToSpan start
  let s ← pool.pc.deref p
  let pool ← pool.setNextBlock start (pool.blockList p)
  if dec64 s.usedCount = 0 then
    if p ∈ pool.spanList idx then
      let pc ← (pool.pc.setSpan p { s with blockSize := 0, usedCount := 0 }).releaseToPagecache p true
      .ok ({ pool with
        pc
        blockList := Function.update pool.blockList p 0
        spanList := Function.update pool.spanList idx ((pool.spanList idx).erase p) }, next)
    else .error .undefined
  else
    .ok ({ pool with
      pc := pool.pc.setSpan p { s with usedCount := dec64 s.usedCount }
      blockList := Function.update pool.blockList p start }, next)

/-- `while (start)`, as long as it ends within `rounds` rounds. -/
def releaseBlocks (idx : ℕ) : ℕ → Pool τ → ℕ → Except Fault (Pool τ)
  | 0, pool, start => if start = 0 then .ok pool else .error .undefined
  | rounds + 1, pool, start =>
    if start = 0 then .ok pool
    else do
      let (pool, next) ← pool.releaseBlock idx start
      releaseBlocks idx rounds pool next

def releaseToSpans (pool : Pool τ) (start bytes rounds : ℕ) : Except Fault (Pool τ) := do
  let idx ← index bytes
  Learncc.Pool.listIndex idx
  releaseBlocks idx rounds pool start

/-! ## thread_cache -/

/-- `tls_threadcache`, followed. -/
def cacheOf (pool : Pool τ) (t : τ) : Except Fault ThreadCache :=
  match pool.tls t with
  | some tc => .ok tc
  | none => .error .undefined

variable [DecidableEq τ]

def setFreeList (pool : Pool τ) (t : τ) (idx : ℕ) (f : FreeList) : Except Fault (Pool τ) := do
  let tc ← pool.cacheOf t
  .ok { pool with tls := Function.update pool.tls t (some (Function.update tc idx f)) }

def fetchFromCentralcache (pool : Pool τ) (t : τ) (idx bytes : ℕ) (os : Option ℕ) : Except Fault (Pool τ × ℕ) := do
  let f := (← pool.cacheOf t) idx
  let num := min (moveNum bytes) f.maxSize
  let (pool, start, stop, fetchnum) ← pool.fetchRangeBlock num bytes os
  let (pool, f) ←
    if 1 < fetchnum then do pool.pushRange f (← pool.nextBlock start) stop (fetchnum - 1) else .ok (pool, f)
  let f := if num = f.maxSize then { f with maxSize := num + 1 } else f
  .ok (← pool.setFreeList t idx f, start)

def allocate (pool : Pool τ) (t : τ) (bytes : ℕ) (os : Option ℕ) : Except Fault (Pool τ × ℕ) := do
  check (bytes < MAXBYTES)
  let bytes ← roundUp bytes
  let idx ← index bytes
  Learncc.Pool.listIndex idx
  let f := (← pool.cacheOf t) idx
  if f.list = 0 then pool.fetchFromCentralcache t idx bytes os
  else do
    let (f, obj) ← pool.pop f
    .ok (← pool.setFreeList t idx f, obj)

def deallocate (pool : Pool τ) (t : τ) (ptr bytes rounds : ℕ) : Except Fault (Pool τ) := do
  check (bytes < MAXBYTES)
  let idx ← index bytes
  Learncc.Pool.listIndex idx
  let (pool, f) ← pool.push ((← pool.cacheOf t) idx) ptr
  if f.maxSize ≤ f.size then
    -- `list_too_long`
    (← pool.setFreeList t idx f.clear).releaseToSpans f.list bytes rounds
  else pool.setFreeList t idx f

/-! ## tc_malloc and tc_free -/

def mallocLarge (pool : Pool τ) (size : ℕ) (os : Option ℕ) : Except Fault (Pool τ × ℕ) := do
  let (pc, p) ← pool.pc.newSpan (Learncc.Pool.largePages size) os
  let s ← pc.deref p
  let ptr := pageAddr s.pageId
  .ok ({ pool with
      pc := pc.setSpan p { s with usedCount := size64 (s.usedCount + 1) }
      origin := Function.update pool.origin ptr (some p) }, ptr)

/-- `tls_threadcache = new thread_cache`, when there is none. -/
def ensureCache (pool : Pool τ) (t : τ) : Pool τ :=
  match pool.tls t with
  | some _ => pool
  | none => { pool with tls := Function.update pool.tls t (some ThreadCache.new) }

/-- What the caller sees: a pointer, or `none` when `std::bad_alloc` came out
of the system call, before anything else was written. -/
def caught (pool : Pool τ) : Except Fault (Pool τ × ℕ) → Except Fault (Pool τ × Option ℕ)
  | .ok (pool', ptr) => .ok (pool', some ptr)
  | .error .badAlloc => .ok (pool, none)
  | .error f => .error f

def tcMalloc (pool : Pool τ) (t : τ) (size : ℕ) (os : Option ℕ) : Except Fault (Pool τ × Option ℕ) :=
  if MAXBYTES < size then pool.caught (pool.mallocLarge size os)
  else (pool.ensureCache t).caught ((pool.ensureCache t).allocate t size os)

def tcFree (pool : Pool τ) (t : τ) (ptr : ℕ) (munmapOk : Bool) (rounds : ℕ) : Except Fault (Pool τ) := do
  let p ← pool.pc.blockToSpan ptr
  let s ← pool.pc.deref p
  if MAXBYTES < s.blockSize then
    let pc ← (pool.pc.setSpan p { s with usedCount := dec64 s.usedCount }).releaseToPagecache p munmapOk
    .ok (pool.remap pc)
  else pool.deallocate t ptr s.blockSize rounds

end Pool

end InMemory

end Learncc
