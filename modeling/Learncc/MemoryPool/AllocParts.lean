/-
The parts of the functions of `central_cache` and `thread_cache` between which a thread
takes the mutex of the page cache, so that other threads can come in between. Each
function is put together from its parts (`getOneSpan_eq`, `fetchRangeBlock_eq`,
`releaseBlocks_cons`, `fetchFromCentralcache_eq`).
-/
import Learncc.MemoryPool.Alloc

namespace Learncc

open SizeClass PageCache

/-- The free list after a fetch of `num` blocks, of which `rest` are for the list. -/
def FreeList.stored (f : FreeList) (num : ℕ) (rest : List ℕ) (fetchnum : ℕ) : FreeList :=
  let f := if 1 < fetchnum then f.pushRange rest (fetchnum - 1) else f
  if num = f.maxSize then { f with maxSize := num + 1 } else f

namespace FreeList

variable (f : FreeList) (num : ℕ) (rest : List ℕ)

theorem stored_list : (f.stored num rest (rest.length + 1)).list = rest ++ f.list := by
  have hpush : (if 1 < rest.length + 1 then f.pushRange rest (rest.length + 1 - 1) else f).list = rest ++ f.list := by
    split
    · rfl
    · rename_i hlen
      rw [List.eq_nil_of_length_eq_zero (show rest.length = 0 by omega), List.nil_append]
  simp only [stored]
  generalize (if 1 < rest.length + 1 then f.pushRange rest (rest.length + 1 - 1) else f) = g at hpush ⊢
  split
  · exact hpush
  · exact hpush

theorem stored_size (h : f.size + rest.length < 2 ^ 64) :
    (f.stored num rest (rest.length + 1)).size = f.size + rest.length := by
  have hpush : (if 1 < rest.length + 1 then f.pushRange rest (rest.length + 1 - 1) else f).size =
      f.size + rest.length := by
    split
    · exact Nat.mod_eq_of_lt h
    · omega
  simp only [stored]
  generalize (if 1 < rest.length + 1 then f.pushRange rest (rest.length + 1 - 1) else f) = g at hpush ⊢
  split
  · exact hpush
  · exact hpush

theorem stored_maxSize (fetchnum : ℕ) :
    (f.stored num rest fetchnum).maxSize = if num = f.maxSize then num + 1 else f.maxSize := by
  have hpush : (if 1 < fetchnum then f.pushRange rest (fetchnum - 1) else f).maxSize = f.maxSize := by
    split
    · rfl
    · rfl
  simp only [stored]
  generalize (if 1 < fetchnum then f.pushRange rest (fetchnum - 1) else f) = g at hpush ⊢
  rw [hpush]
  split
  · rfl
  · exact hpush

theorem stored_maxSize_pos (h : 0 < f.maxSize) (fetchnum : ℕ) : 0 < (f.stored num rest fetchnum).maxSize := by
  rw [stored_maxSize]
  split
  · exact Nat.succ_pos _
  · exact h

end FreeList

namespace Pool

variable {τ : Type}

/-- `get_one_span` from the return of `new_span` on. -/
def cutSpan (pool : Pool τ) (idx bytes : ℕ) (p : SpanPtr) : Except Fault (Pool τ) := do
  let s ← pool.pc.deref p
  let start := pageAddr s.pageId
  let blocks ← carve bytes (start + pageBytes s.npages) (pageBytes s.npages) start
  .ok { pool with
    pc := pool.pc.setSpan p { s with blockSize := bytes, usedCount := 0 }
    blockList := Function.update pool.blockList p blocks
    spanList := Function.update pool.spanList idx (p :: pool.spanList idx)
    origin := fun b => if b ∈ blocks then some p else pool.origin b }

/-- `fetch_range_block` from the return of `get_one_span` on. -/
def takeBlocks (pool : Pool τ) (idx num : ℕ) (p : SpanPtr) : Except Fault (Pool τ × ℕ × List ℕ × ℕ) := do
  let s ← pool.pc.deref p
  match pool.blockList p with
  | [] => .error .undefined
  | start :: rest =>
    let fetchnum := min num (pool.blockList p).length
    let left := if num = 0 then [start] else (pool.blockList p).drop num
    let pool := { pool with
      pc := pool.pc.setSpan p { s with usedCount := size64 (s.usedCount + fetchnum) }
      blockList := Function.update pool.blockList p left }
    if left = [] then
      if p ∈ pool.spanList idx then
        .ok ({ pool with spanList := Function.update pool.spanList idx ((pool.spanList idx).erase p ++ [p]) },
          start, rest.take (num - 1), fetchnum)
      else .error .undefined
    else .ok (pool, start, rest.take (num - 1), fetchnum)

/-- `release_to_spans` for one block, up to the call of `release_to_pagecache`, which is
left to do for the span returned. -/
def returnBlock (pool : Pool τ) (idx b : ℕ) : Except Fault (Pool τ × Option SpanPtr) := do
  let p ← pool.pc.blockToSpan b
  let s ← pool.pc.deref p
  if dec64 s.usedCount = 0 then
    if p ∈ pool.spanList idx then
      .ok ({ pool with
          pc := pool.pc.setSpan p { s with blockSize := 0, usedCount := 0 }
          blockList := Function.update pool.blockList p []
          spanList := Function.update pool.spanList idx ((pool.spanList idx).erase p) }, some p)
    else .error .undefined
  else
    .ok ({ pool with
        pc := pool.pc.setSpan p { s with usedCount := dec64 s.usedCount }
        blockList := Function.update pool.blockList p (b :: pool.blockList p) }, none)

/-- `release_to_spans` for one block. -/
def releaseBlock (pool : Pool τ) (idx b : ℕ) : Except Fault (Pool τ) := do
  let (pool, whole) ← pool.returnBlock idx b
  match whole with
  | none => .ok pool
  | some p => .ok { pool with pc := ← pool.pc.releaseToPagecache p true }

section

variable (pool : Pool τ)

theorem getOneSpan_eq (idx bytes : ℕ) (os : Option ℕ) :
    pool.getOneSpan idx bytes os = (do
      match ← withBlocks pool.pc (fun p => (pool.blockList p).isEmpty) (pool.spanList idx) with
      | some p => .ok (pool, p)
      | none =>
        let (pc, p) ← pool.pc.newSpan (movePage bytes) os
        .ok (← ({ pool with pc } : Pool τ).cutSpan idx bytes p, p)) := by
  unfold getOneSpan cutSpan
  cases withBlocks pool.pc (fun p => (pool.blockList p).isEmpty) (pool.spanList idx) with
  | error f => rfl
  | ok found =>
    cases found with
    | some p => rfl
    | none =>
      cases pool.pc.newSpan (movePage bytes) os with
      | error f => rfl
      | ok r =>
        simp only [bind, Except.bind]
        split
        · rfl
        · split <;> rfl

theorem fetchRangeBlock_eq (num bytes : ℕ) (os : Option ℕ) :
    pool.fetchRangeBlock num bytes os = (do
      let idx ← index bytes
      listIndex idx
      let (pool, p) ← pool.getOneSpan idx bytes os
      pool.takeBlocks idx num p) := rfl

theorem releaseBlocks_cons (idx b : ℕ) (bs : List ℕ) :
    pool.releaseBlocks idx (b :: bs) = (do releaseBlocks idx bs (← pool.releaseBlock idx b)) := by
  have hok : ∀ {α β : Type} (a : α) (f : α → Except Fault β), (Except.ok a >>= f) = f a := fun _ _ => rfl
  have herr : ∀ {α β : Type} (e : Fault) (f : α → Except Fault β), (Except.error e >>= f) = .error e := fun _ _ => rfl
  rw [releaseBlocks, releaseBlock, returnBlock]
  cases pool.pc.blockToSpan b with
  | error f => simp only [herr]
  | ok p =>
    simp only [hok]
    cases pool.pc.deref p with
    | error f => simp only [herr]
    | ok s =>
      simp only [hok]
      by_cases hzero : dec64 s.usedCount = 0
      · simp only [if_pos hzero]
        by_cases hp : p ∈ pool.spanList idx
        · simp only [if_pos hp, hok]
          cases (pool.pc.setSpan p { s with blockSize := 0, usedCount := 0 }).releaseToPagecache p true with
          | error f => simp only [herr]
          | ok pc => simp only [hok]
        · simp only [if_neg hp, herr]
      · simp only [if_neg hzero, hok]

theorem fetchFromCentralcache_eq [DecidableEq τ] (t : τ) (idx bytes : ℕ) (os : Option ℕ) :
    pool.fetchFromCentralcache t idx bytes os = (do
      let f := (← pool.cacheOf t) idx
      let num := min (moveNum bytes) f.maxSize
      let (pool, start, rest, fetchnum) ← pool.fetchRangeBlock num bytes os
      .ok (← pool.setFreeList t idx (f.stored num rest fetchnum), start)) := by
  simp only [fetchFromCentralcache, FreeList.stored]

end

end Pool

end Learncc
