/-
Any request: which sizes `tc_malloc` covers, over all of `size_t`, in the
histories that meet the condition of `Learncc.MemoryPool.InMemoryHeap`.

`run_covers`: in every state reached, a request is covered exactly when its
size fits, or it throws for want of memory.
-/
import Learncc.MemoryPool.InMemoryHeap

namespace Learncc

open SizeClass PageCache

/-! ## A span of no pages

A request of the last page of `size_t` rounds to no page at all. -/

namespace PageCache

variable {pc : PageCache} {U : SpanPtr → Prop} {r : Intervals.Ranges SpanPtr}

theorem Inv.pageList_zero (h : Inv pc U r exact) : pc.pageList 0 = [] := by
  refine List.eq_nil_iff_forall_not_mem.2 fun p hp => ?_
  obtain ⟨s, hs, hn, -⟩ := h.free hp
  obtain ⟨-, hpos, -⟩ := h.layout.bound (h.on hs (.inr (hn ▸ hp)))
  omega

theorem Inv.pageList_long (h : Inv pc U r exact) {k : ℕ} (hk : NPAGES ≤ k) : pc.pageList k = [] := by
  refine List.eq_nil_iff_forall_not_mem.2 fun p hp => ?_
  obtain ⟨s, -, -, hlt, -⟩ := h.free hp
  omega

/-- Nothing is cut from the tail of a free span, and that is handed out. -/
theorem splitFrom_zero (h : Inv pc U r exact) {i : ℕ} (hi : pc.pageList i ≠ []) :
    ∃ pc' p s, pc.splitFrom i 0 = .ok (pc', p) ∧ pc'.spans p = some s ∧ s.npages = 0 := by
  obtain ⟨p, ps, hk⟩ := List.exists_cons_of_ne_nil hi
  have hp : p ∈ pc.pageList i := hk ▸ List.mem_cons_self
  obtain ⟨s, hs, -⟩ := h.free hp
  obtain ⟨pc₁, heq, h₁, -, hspans⟩ := popFront_spec h hk
  have hs₁ : pc₁.spans p = some s := by rw [hspans]; exact hs
  have hne : pc₁.nextSpan ≠ p := (h₁.fresh hs₁).ne'
  let t := Span.new (s.pageId + s.npages - 0) 0 (pc₁.found pc₁.nextSpan)
  let pc₂ := ((pc₁.newSpanObject t).1.setSpan p { s with npages := s.npages - 0 }).mapPages
    (s.pageId + s.npages - 0) 0 pc₁.nextSpan
  refine ⟨pc₂.pushFront (s.npages - 0) p, pc₁.nextSpan, t, ?_, ?_, rfl⟩
  · simp only [splitFrom, heq, bind, Except.bind, deref_eq hs₁]
    rfl
  · rw [pushFront_spans, mapPages_spans, setSpan_spans_of_ne _ _ hne]
    exact newSpanObject_spans_self ..

theorem newSpanRec_zero (h : Inv pc U r exact) (fuel : ℕ) {i : ℕ} {os : Option ℕ} (hi : pc.largerList 0 = some i) :
    ∃ pc' p s, newSpanRec 0 os (fuel + 1) pc = .ok (pc', p) ∧ pc'.spans p = some s ∧ s.npages = 0 := by
  obtain ⟨-, hne⟩ := largerList_some hi
  obtain ⟨pc', p, s, heq, hrest⟩ := splitFrom_zero h hne
  refine ⟨pc', p, s, ?_, hrest⟩
  simp only [newSpanRec, h.pageList_zero, hi]
  exact heq

/-- A request of no pages is answered unless there is no memory. -/
theorem newSpan_zero (h : Inv pc U r exact) {os : Option ℕ} (hok : pc.MmapOk (NPAGES - 1) os) :
    ((∀ k, pc.pageList k = []) ∧ os = none) ∧ pc.newSpan 0 os = .error .badAlloc ∨
      ¬ ((∀ k, pc.pageList k = []) ∧ os = none) ∧
        ∃ pc' p s, pc.newSpan 0 os = .ok (pc', p) ∧ pc'.spans p = some s ∧ s.npages = 0 := by
  have hnew : ∀ {pc₁ p s}, newSpanRec 0 os 2 pc = .ok (pc₁, p) → pc₁.spans p = some s → s.npages = 0 →
      ∃ pc' p s, pc.newSpan 0 os = .ok (pc', p) ∧ pc'.spans p = some s ∧ s.npages = 0 := by
    intro pc₁ p s heq hs hn
    refine ⟨pc₁.setSpan p { s with blockSize := pageBytes s.npages }, p, _, ?_, setSpan_spans_self .., hn⟩
    rw [newSpan, if_neg (by decide)]
    simp only [heq, bind, Except.bind, deref_eq hs]
  cases hlarger : pc.largerList 0 with
  | some i =>
    obtain ⟨-, hne⟩ := largerList_some hlarger
    obtain ⟨pc₁, p, s, heq, hs, hn⟩ := newSpanRec_zero h 1 hlarger
    exact .inr ⟨fun hempty => hne (hempty.1 i), hnew heq hs hn⟩
  | none =>
    have hempty : ∀ k, pc.pageList k = [] := by
      intro k
      rcases Nat.eq_zero_or_pos k with rfl | hpos
      · exact h.pageList_zero
      · by_cases hk : k < NPAGES
        · exact largerList_none hlarger hpos hk
        · exact h.pageList_long (Nat.not_lt.1 hk)
    have heq : newSpanRec 0 os 2 pc = (pc.grow os).bind (newSpanRec 0 os 1) := by
      conv_lhs => unfold newSpanRec
      simp only [hempty 0, hlarger]
      rfl
    cases os with
    | none =>
      refine .inl ⟨⟨hempty, rfl⟩, ?_⟩
      rw [newSpan, if_neg (by decide), heq]
      rfl
    | some base =>
      obtain ⟨pc₁, r₁, hgrow, h₁, hlast, -⟩ := grow_spec h hok
      -- The new 128 pages are on their list.
      obtain ⟨i, hi⟩ : ∃ i, pc₁.largerList 0 = some i :=
        Option.ne_none_iff_exists'.1 fun hnone => hlast (largerList_none hnone (by decide) (by decide))
      obtain ⟨pc₂, p, s, heq₂, hs, hn⟩ := newSpanRec_zero h₁ 0 hi
      exact .inr ⟨fun hempty => (by cases hempty.2), hnew (by rw [heq, hgrow]; exact heq₂) hs hn⟩

end PageCache

theorem Pool.largePages_wrap {size : ℕ} (hlow : 2 ^ 64 - 4096 < size) (hhigh : size < 2 ^ 64) :
    Pool.largePages size = 0 := by
  have hlt : size64 (size + 2 ^ PAGESHIFT - 1) < 2 ^ PAGESHIFT := by
    unfold size64 PAGESHIFT
    omega
  rw [Pool.largePages, roundUpTo, land_highBits (Nat.lt_trans hlt (by decide)) (by decide), Nat.div_eq_of_lt hlt,
    Nat.zero_mul, Nat.zero_div]

/-! ## What a request gets -/

namespace InMemory

namespace Pool

variable {τ : Type}

/-- Behind the pointer at least `size` bytes are set aside: a block of a class
for a small request, whole pages for a large one. -/
structure Reserves (pool : Pool τ) (ptr size : ℕ) : Prop where
  small : size ≤ MAXBYTES → ∃ p s, pool.Central p ∧ pool.pc.spans p = some s ∧ ptr ∈ s.blocks ∧ size ≤ s.blockSize
  large : MAXBYTES < size → ∃ p s, pool.origin ptr = some p ∧ pool.pc.spans p = some s ∧ ptr = s.pageId * 4096 ∧
    size ≤ s.npages * 4096

/-- `tc_malloc` passes its assertions, stays in the array of lists, and throws
`bad_alloc` or returns a pointer with enough behind it. -/
structure Covered [DecidableEq τ] (pool : Pool τ) (t : τ) (size : ℕ) (os : Option ℕ) : Prop where
  path : size ≤ MAXBYTES → size < MAXBYTES ∧
    ∃ bytes i, roundUp size = .ok bytes ∧ size ≤ bytes ∧ index bytes = .ok i ∧ i < NLISTS
  answer : ∃ pool' r, pool.tcMalloc t size os = .ok (pool', r) ∧ ∀ ptr, r = some ptr → pool'.Reserves ptr size

variable {pool : Pool τ} {a : Learncc.Pool τ} {live : List (ℕ × ℕ)}

/-- A pointer among the users' has what it was asked for. -/
theorem reserves (h : Holds pool a) (hs : Learncc.Heap.Sound ⟨a, live⟩) {ptr size : ℕ} (hp : (ptr, size) ∈ live) :
    pool.Reserves ptr size := by
  have hfits := hs.fits hp
  constructor
  · intro hsize
    obtain ⟨bytes, hr, i, p, s, hi, hspan, rfl, hb⟩ := hs.pool.small hp hsize
    unfold Learncc.Heap.Fits at hfits
    unfold MAXBYTES at hsize
    obtain ⟨bytes', hr', hle, -⟩ := roundUp_class (show 0 < size by omega) (by omega)
    rw [hr] at hr'
    cases hr'
    exact ⟨p, s, ⟨i, h.spanList ▸ hi⟩, h.pc ▸ hspan, hb, hle⟩
  · intro hsize
    obtain ⟨p, s, hl⟩ := hs.pool.large hp hsize
    obtain ⟨-, -, hle⟩ := Learncc.Pool.largePages_range hsize hfits.le
    exact ⟨p, s, h.origin ▸ hl.origin, h.pc ▸ hl.span, hl.addr, by rw [hl.pages]; exact hle⟩

variable [DecidableEq τ]

/-- A request of the last page gets a pointer with nothing behind it, unless
there is no memory. -/
theorem wrapped {U : SpanPtr → Prop} {r : Intervals.Ranges SpanPtr} (hpc : pool.pc.Inv U r exact) (t : τ) {size : ℕ}
    (hlow : 2 ^ 64 - 4096 < size) (hhigh : size < 2 ^ 64) {os : Option ℕ} (hok : pool.pc.MmapOk (NPAGES - 1) os) :
    pool.Covered t size os ↔ (∀ k, pool.pc.pageList k = []) ∧ os = none := by
  have hmax : MAXBYTES < size := by
    unfold MAXBYTES
    omega
  have hmalloc : pool.tcMalloc t size os = pool.caught (pool.mallocLarge size os) := by rw [tcMalloc, if_pos hmax]
  have hzero := Learncc.Pool.largePages_wrap hlow hhigh
  rcases newSpan_zero hpc hok with ⟨hnone, heq⟩ | ⟨hsome, pc', p, s, heq, hs, hn⟩
  · refine iff_of_true ⟨fun hle => absurd hle (Nat.not_le.2 hmax), pool, none, ?_, fun _ hr => (by cases hr)⟩ hnone
    simp only [hmalloc, mallocLarge, hzero, heq, bind, Except.bind, caught]
  · refine iff_of_false (fun hcov => ?_) hsome
    obtain ⟨pool', r, hr, hres⟩ := hcov.answer
    simp only [hmalloc, mallocLarge, hzero, heq, deref_eq hs, bind, Except.bind, caught, Except.ok.injEq,
      Prod.mk.injEq] at hr
    obtain ⟨rfl, rfl⟩ := hr
    obtain ⟨q, u, ho, hu, -, hle⟩ := (hres _ rfl).large hmax
    simp only [Function.update_self, Option.some.injEq] at ho
    subst ho
    simp only [setSpan_spans_self, Option.some.injEq] at hu
    subst hu
    simp only [hn] at hle
    omega

end Pool

namespace Heap

variable {τ : Type} [DecidableEq τ] {s : Heap τ} {a : Learncc.Pool τ}

/-- In a state in order a request is covered if its size fits, and of the
others only those that throw for want of memory are. -/
theorem covered_iff (h : s.pool.Holds a) (hs : Learncc.Heap.Sound ⟨a, s.live⟩) (t : τ) {size : ℕ}
    (hsize : size < 2 ^ 64) {os : Option ℕ} (hok : s.pool.pc.MmapOk (Learncc.Heap.asked size) os) :
    s.pool.Covered t size os ↔
      Learncc.Heap.Fits size ∨ 2 ^ 64 - 4096 < size ∧ (∀ k, s.pool.pc.pageList k = []) ∧ os = none := by
  by_cases hfits : Learncc.Heap.Fits size
  · refine iff_of_true ⟨fun hle => ?_, ?_⟩ (.inl hfits)
    · unfold Learncc.Heap.Fits at hfits
      have hlt : size < MAXBYTES := by
        unfold MAXBYTES at *
        omega
      unfold MAXBYTES at hle
      obtain ⟨bytes, hr, hle', hc⟩ := roundUp_class (show 0 < size by omega) (by omega)
      exact ⟨hlt, bytes, _, hr, hle', index_eq hc, classIndex_lt hc⟩
    · obtain ⟨pool, r, a', heq, hholds, hsound, -⟩ := malloc_spec h hs t hfits hok
      refine ⟨pool, r, heq, fun ptr hr => ?_⟩
      subst hr
      exact Pool.reserves hholds hsound List.mem_cons_self
  · rw [or_iff_right hfits]
    by_cases hwrap : 2 ^ 64 - 4096 < size
    · have hreq : Learncc.Heap.asked size = NPAGES - 1 := by
        rw [Learncc.Heap.asked, if_pos (by unfold MAXBYTES; omega), requested,
          Learncc.Pool.largePages_wrap hwrap hsize, if_neg (by decide)]
      rw [hreq] at hok
      obtain ⟨r, hpc⟩ := hs.pool.pages
      rw [Pool.wrapped (h.pc ▸ hpc) t hwrap hsize hok, and_iff_right hwrap]
    · refine iff_of_false (fun hcov => hfits ?_) fun hand => hwrap hand.1
      obtain ⟨pool', r, heq, -⟩ := hcov.answer
      unfold Learncc.Heap.Fits at hfits
      have hle : size ≤ MAXBYTES := by
        unfold MAXBYTES
        omega
      have hmatch := Pool.tcMalloc_matches h hs.pool hs.used t size (h.pc ▸ hok)
      rw [heq] at hmatch
      obtain ⟨_, heq', -⟩ := hmatch.ok_of
      exact Learncc.Heap.fits_of_small hle heq'

/-- **Which requests are covered.** In every state that a history which meets
the condition reaches, for every `size_t`: `tc_malloc` covers it exactly when
it fits, but that one of the last page throws when there is no memory at all. -/
theorem run_covers {found : SpanPtr → UInt64} (hzero : ∀ p, found p = 0) {ops : List (HeapOp τ)}
    (hm : Run.Along step Meets (init found) ops) (h : Run.run step (init found) ops = some s) (t : τ)
    {size : ℕ} (hsize : size < 2 ^ 64) {os : Option ℕ} (hok : s.pool.pc.MmapOk (Learncc.Heap.asked size) os) :
    s.pool.Covered t size os ↔
      Learncc.Heap.Fits size ∨ 2 ^ 64 - 4096 < size ∧ (∀ k, s.pool.pc.pageList k = []) ∧ os = none := by
  obtain ⟨a, hholds, hs⟩ := run_sound hzero hm h
  exact covered_iff hholds hs t hsize hok

/-- One small request, and a write into its block. -/
def oneRequest : List (HeapOp Unit) := [.malloc () 100 (some 16), .write 536576 536576 1]

theorem run_covers_oneRequest :
    ∃ s, Run.run step (init fun _ => 0) oneRequest = some s ∧ s.pool.Covered () 65024 none ∧
      ¬ s.pool.Covered () 65025 none := by
  have hsome : (Run.run step (init fun _ => 0) oneRequest).map (fun s => s.live) = some [(536576, 100)] := by
    decide +kernel
  obtain ⟨s, hs, -⟩ := Option.map_eq_some_iff.1 hsome
  have hmeets := Run.along_mono Confined.meets
    (show Run.Along step Confined (init fun _ => 0) oneRequest by decide +kernel)
  have hok : ∀ size, s.pool.pc.MmapOk (Learncc.Heap.asked size) none := fun _ => trivial
  refine ⟨s, hs, (run_covers (fun _ => rfl) hmeets hs () (by decide) (hok 65024)).2 (.inl (by decide)), fun hcov => ?_⟩
  exact absurd ((run_covers (fun _ => rfl) hmeets hs () (by decide) (hok 65025)).1 hcov) (by simp [Learncc.Heap.Fits])

/-- A request of nothing, the ones that round to `MAXBYTES`, and one of all of
`size_t`; and one that fits, after a write over the first word of the free
block behind the one it gets. -/
theorem uncovered_requests :
    (¬ (init fun _ => 0 : Heap Unit).pool.Covered () 0 none ∧ ¬ (init fun _ => 0 : Heap Unit).pool.Covered () 65025 none ∧
      ¬ (init fun _ => 0 : Heap Unit).pool.Covered () 65536 none ∧
      ¬ (init fun _ => 0 : Heap Unit).pool.Covered () (2 ^ 64 - 1) (some 16)) ∧
    ∃ s, Run.run step (init fun _ => 0) (overrun 1 ++ [.malloc () 33280 none]) = some s ∧
      ¬ s.pool.Covered () 33280 none := by
  have hno : ∀ size os, size < 2 ^ 64 →
      (init fun _ => 0 : Heap Unit).pool.pc.MmapOk (Learncc.Heap.asked size) os → ¬ Learncc.Heap.Fits size →
      (size ≤ 2 ^ 64 - 4096 ∨ os ≠ none) → ¬ (init fun _ => 0 : Heap Unit).pool.Covered () size os := by
    intro size os hsize hok hfits hout hcov
    rcases (covered_iff (init_holds _) (Learncc.Heap.init_sound fun _ => rfl) () hsize hok).1 hcov with
      hfit | ⟨hlow, -, hos⟩
    · exact hfits hfit
    · rcases hout with hle | hne
      · omega
      · exact hne hos
  refine ⟨⟨hno 0 none (by decide) trivial (by decide) (.inl (by decide)),
    hno 65025 none (by decide) trivial (by decide) (.inl (by decide)),
    hno 65536 none (by decide) trivial (by decide) (.inl (by decide)),
    hno (2 ^ 64 - 1) (some 16) (by decide) (by decide) (by decide) (.inr (by decide))⟩, ?_⟩
  have hsome : (Run.run step (init fun _ => 0) (overrun 1 ++ [.malloc () 33280 none])).map (fun s =>
      (s.pool.tcMalloc () 33280 none).toOption.isNone) = some true := by decide +kernel
  obtain ⟨s, hs, hfault⟩ := Option.map_eq_some_iff.1 hsome
  refine ⟨s, hs, fun hcov => ?_⟩
  obtain ⟨pool, r, heq, -⟩ := hcov.answer
  rw [heq] at hfault
  cases hfault

end Heap

end InMemory

end Learncc
