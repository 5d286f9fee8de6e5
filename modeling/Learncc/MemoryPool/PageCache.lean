/-
`page_cache` (src/memory_pool/page_cache.cc) over the system calls and the
`span_list` of inc/memory_pool/comm.h.

Span objects live under pointers; a pointer whose object was deleted leads
nowhere, and following it is a fault. A `span_list` is the list of pointers
from `begin()` on. The page cache also carries what the kernel has mapped,
and which pages came from `sys_alloc` and were not given to `sys_free`.
-/
import Learncc.Lib.Intervals
import Learncc.MemoryPool.SizeClass

namespace Learncc

/-- A `span *`. Page numbers and addresses are plain numbers. -/
abbrev SpanPtr := ℕ

/-- The links of the list a span is in are the list's own. `block_list_`,
which the page cache has no use for, is with the central cache. -/
structure Span where
  pageId : ℕ
  npages : ℕ
  blockSize : ℕ
  usedCount : ℕ
deriving Repr, DecidableEq

/-- `new span`, with the first two fields set. The others are not
initialised: `used_count_` is what was there before, and nothing reads
`block_size_` before it is written. -/
def Span.new (pageId npages : ℕ) (found : UInt64) : Span :=
  { pageId, npages, blockSize := 0, usedCount := found.toNat }

/-- `npages << PAGE_SHIFT`. -/
def pageBytes (npages : ℕ) : ℕ := size64 (npages * 2 ^ PAGESHIFT)

/-- The pages behind a length that `mmap` and `munmap` are given. -/
def sysPages (npages : ℕ) : ℕ := pageBytes npages / 2 ^ PAGESHIFT

/-- `found` are the values that `new span` finds in `used_count_`. -/
structure PageCache where
  spans : SpanPtr → Option Span
  nextSpan : SpanPtr
  found : SpanPtr → UInt64
  pageList : ℕ → List SpanPtr
  pageidSpanMap : ℕ → Option SpanPtr
  mapped : ℕ → Bool
  owned : ℕ → Bool

namespace PageCache

def init (found : SpanPtr → UInt64) : PageCache :=
  { spans := fun _ => none, nextSpan := 0, found, pageList := fun _ => [], pageidSpanMap := fun _ => none,
    mapped := fun _ => false, owned := fun _ => false }

/-! ## Span objects and lists -/

def deref (pc : PageCache) (p : SpanPtr) : Except Fault Span :=
  match pc.spans p with
  | some s => .ok s
  | none => .error .undefined

def setSpan (pc : PageCache) (p : SpanPtr) (s : Span) : PageCache :=
  { pc with spans := Function.update pc.spans p (some s) }

def newSpanObject (pc : PageCache) (s : Span) : PageCache × SpanPtr :=
  ({ pc.setSpan pc.nextSpan s with nextSpan := pc.nextSpan + 1 }, pc.nextSpan)

def deleteSpan (pc : PageCache) (p : SpanPtr) : PageCache :=
  { pc with spans := Function.update pc.spans p none }

def pushFront (pc : PageCache) (k : ℕ) (p : SpanPtr) : PageCache :=
  { pc with pageList := Function.update pc.pageList k (p :: pc.pageList k) }

/-- On an empty list `erase` is given the head, which it asserts against. -/
def popFront (pc : PageCache) (k : ℕ) : Except Fault (PageCache × SpanPtr) :=
  match pc.pageList k with
  | [] => .error .assertion
  | p :: ps => .ok ({ pc with pageList := Function.update pc.pageList k ps }, p)

def erase (pc : PageCache) (k : ℕ) (p : SpanPtr) : Except Fault PageCache :=
  if p ∈ pc.pageList k then .ok { pc with pageList := Function.update pc.pageList k ((pc.pageList k).erase p) }
  else .error .undefined

section

variable (pc : PageCache) (p q : SpanPtr) (s : Span) (k : ℕ)

@[simp] theorem setSpan_spans_self : (pc.setSpan p s).spans p = some s := Function.update_self ..

@[simp] theorem setSpan_spans_of_ne {p q : SpanPtr} (h : q ≠ p) : (pc.setSpan p s).spans q = pc.spans q :=
  Function.update_of_ne h ..

@[simp] theorem newSpanObject_spans_self : (pc.newSpanObject s).1.spans pc.nextSpan = some s := Function.update_self ..

@[simp] theorem newSpanObject_spans_of_ne {q : SpanPtr} (h : q ≠ pc.nextSpan) :
    (pc.newSpanObject s).1.spans q = pc.spans q := Function.update_of_ne h ..

@[simp] theorem deleteSpan_spans_of_ne {p q : SpanPtr} (h : q ≠ p) : (pc.deleteSpan p).spans q = pc.spans q :=
  Function.update_of_ne h ..

@[simp] theorem pushFront_spans : (pc.pushFront k p).spans = pc.spans := rfl

end

/-- `pageid_span_map_[start + i] = p` for each `i < n`. -/
def mapPages (pc : PageCache) (start n : ℕ) (p : SpanPtr) : PageCache :=
  { pc with pageidSpanMap :=
      (List.range n).foldl (fun m i => Function.update m (start + i) (some p)) pc.pageidSpanMap }

/-! ## System calls -/

/-- An answer `mmap` can give: a failure, which it is for a length of 0, or
pages that are not the first one, lie below `2^64` and are not mapped. -/
def MmapOk (pc : PageCache) (npages : ℕ) : Option ℕ → Prop
  | none => True
  | some base => 0 < base ∧ 0 < sysPages npages ∧ base + sysPages npages ≤ 2 ^ 52 ∧
      ∀ x < base + sysPages npages, base ≤ x → pc.mapped x = false

instance (pc : PageCache) (npages : ℕ) : (os : Option ℕ) → Decidable (pc.MmapOk npages os)
  | none => inferInstanceAs (Decidable True)
  | some _ => inferInstanceAs (Decidable (_ ∧ _))

def sysAlloc (pc : PageCache) (npages : ℕ) (os : Option ℕ) : Except Fault (PageCache × ℕ) :=
  match os with
  | none => .error .badAlloc
  | some base =>
    let given := fun x => decide (base ≤ x ∧ x < base + sysPages npages)
    .ok ({ pc with mapped := fun x => pc.mapped x || given x, owned := fun x => pc.owned x || given x }, base)

/-- `munmap` may fail, and then leaves the pages mapped. -/
def sysFree (pc : PageCache) (base : ℕ) (npages : ℕ) (ok : Bool) : PageCache :=
  let kept := fun x => ! decide (base ≤ x ∧ x < base + sysPages npages)
  { pc with mapped := fun x => pc.mapped x && (kept x || ! ok), owned := fun x => pc.owned x && kept x }

/-! ## Allocation -/

/-- The first list after `page_list_[pages]` that has a span. -/
def largerList (pc : PageCache) (pages : ℕ) : Option ℕ :=
  (List.range' (pages + 1) (NPAGES - (pages + 1))).find? fun i => ! (pc.pageList i).isEmpty

/-- Cuts `pages` pages from the tail of the first span of list `i`. -/
def splitFrom (pc : PageCache) (i pages : ℕ) : Except Fault (PageCache × SpanPtr) := do
  let (pc, p) ← pc.popFront i
  let s ← pc.deref p
  let start := s.pageId + s.npages - pages
  let (pc, split) := pc.newSpanObject (Span.new start pages (pc.found pc.nextSpan))
  let pc := pc.setSpan p { s with npages := s.npages - pages }
  let pc := pc.mapPages start pages split
  .ok (pc.pushFront (s.npages - pages) p, split)

/-- Gets 128 pages from the system and puts them on the last list. -/
def grow (pc : PageCache) (os : Option ℕ) : Except Fault PageCache := do
  let (pc, base) ← pc.sysAlloc (NPAGES - 1) os
  let (pc, p) := pc.newSpanObject (Span.new base (NPAGES - 1) (pc.found pc.nextSpan))
  let pc := pc.pushFront (NPAGES - 1) p
  .ok (pc.mapPages base (NPAGES - 1) p)

/-- `new_span_`, which calls itself after growing. -/
def newSpanRec (pages : ℕ) (os : Option ℕ) : ℕ → PageCache → Except Fault (PageCache × SpanPtr)
  | 0, _ => .error .undefined
  | fuel + 1, pc =>
    if ! (pc.pageList pages).isEmpty then pc.popFront pages
    else
      match pc.largerList pages with
      | some i => pc.splitFrom i pages
      | none => do newSpanRec pages os fuel (← pc.grow os)

def newSpan (pc : PageCache) (pages : ℕ) (os : Option ℕ) : Except Fault (PageCache × SpanPtr) :=
  if NPAGES ≤ pages then do
    let (pc, base) ← pc.sysAlloc pages os
    let (pc, p) := pc.newSpanObject { Span.new base pages (pc.found pc.nextSpan) with blockSize := pageBytes pages }
    .ok ({ pc with pageidSpanMap := Function.update pc.pageidSpanMap base (some p) }, p)
  else do
    let (pc, p) ← newSpanRec pages os 2 pc
    let s ← pc.deref p
    .ok (pc.setSpan p { s with blockSize := pageBytes s.npages }, p)

/-- How many pages `new_span` asks of the system, if it does. -/
def requested (pages : ℕ) : ℕ := if NPAGES ≤ pages then pages else NPAGES - 1

def blockToSpan (pc : PageCache) (ptr : ℕ) : Except Fault SpanPtr :=
  match pc.pageidSpanMap (ptr / 2 ^ PAGESHIFT) with
  | some p => .ok p
  | none => .error .assertion

/-! ## Release -/

/-- The first loop: while the span before is free and the two are not too
long, it takes over. -/
def mergePrev : ℕ → PageCache → SpanPtr → Except Fault (PageCache × SpanPtr)
  | 0, _, _ => .error .undefined
  | fuel + 1, pc, p => do
    let s ← pc.deref p
    match pc.pageidSpanMap (dec64 s.pageId) with
    | none => .ok (pc, p)
    | some pre =>
      let t ← pc.deref pre
      if t.usedCount ≠ 0 then .ok (pc, p)
      else if NPAGES ≤ size64 (t.npages + s.npages) then .ok (pc, p)
      else
        let pc ← pc.erase t.npages pre
        let pc := pc.setSpan pre { t with npages := t.npages + s.npages }
        mergePrev fuel (pc.deleteSpan p) pre

/-- The second loop: the span takes over the one behind it. -/
def mergeNext : ℕ → PageCache → SpanPtr → Except Fault PageCache
  | 0, _, _ => .error .undefined
  | fuel + 1, pc, p => do
    let s ← pc.deref p
    match pc.pageidSpanMap (s.pageId + s.npages) with
    | none => .ok pc
    | some next =>
      let t ← pc.deref next
      if t.usedCount ≠ 0 then .ok pc
      else if NPAGES ≤ size64 (t.npages + s.npages) then .ok pc
      else
        let pc ← pc.erase t.npages next
        let pc := pc.setSpan p { s with npages := s.npages + t.npages }
        mergeNext fuel (pc.deleteSpan next) p

/-- When `munmap` fails `std::bad_alloc` is thrown and the span object stays
behind. -/
def releaseToPagecache (pc : PageCache) (p : SpanPtr) (munmapOk : Bool) : Except Fault PageCache := do
  let s ← pc.deref p
  if NPAGES ≤ s.npages then
    let pc := { pc with pageidSpanMap := Function.update pc.pageidSpanMap s.pageId none }
    let pc := pc.sysFree s.pageId s.npages munmapOk
    .ok (if munmapOk then pc.deleteSpan p else pc)
  else
    let (pc, p) ← mergePrev NPAGES pc p
    let pc ← mergeNext NPAGES pc p
    let s ← pc.deref p
    .ok ((pc.mapPages s.pageId s.npages p).pushFront s.npages p)

end PageCache

end Learncc
