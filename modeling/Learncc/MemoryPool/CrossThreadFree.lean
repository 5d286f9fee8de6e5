/-
Any thread: when a live pointer can be freed by a thread, the one it was given
to or another, in the histories that meet the condition of
`Learncc.MemoryPool.InMemoryHeap`.

`run_frees`: in every state reached, a live pointer is freed and its block
available exactly when the thread has a cache for it, if it is small, and the
system takes the pages, if they go back to it.
-/
import Learncc.MemoryPool.CentralAccounting

namespace Learncc

open SizeClass PageCache

/-- A span that is too long for the lists goes back to the system. -/
theorem PageCache.releaseToPagecache_mapped {pc pc' : PageCache} {p : SpanPtr} {s : Span} (hs : pc.spans p = some s)
    (hlong : NPAGES ≤ s.npages) (h52 : s.npages < 2 ^ 52) {ok : Bool} (h : pc.releaseToPagecache p ok = .ok pc')
    {x : ℕ} (hx : s.Pages x) : pc'.mapped x = (pc.mapped x && ! ok) := by
  have hin : s.pageId ≤ x ∧ x < s.pageId + sysPages s.npages := by
    rw [sysPages_eq h52]
    exact hx
  simp only [releaseToPagecache, deref_eq hs, if_pos hlong, bind, Except.bind, Except.ok.injEq] at h
  subst h
  cases ok <;> simp [sysFree, deleteSpan, hin]

/-- The block is there for another request, `place` being where it is: a small
one in the free list of its size, in its span, or with its span on the page
lists; a large one with its span there too, or back with the system if it is
too long. -/
def Available {τ : Type} (pc : PageCache) (place : Pool.Place τ → Prop) (t : τ) (size : ℕ) (u : Span) : Prop :=
  if size ≤ MAXBYTES then
    (∃ i, index u.blockSize = .ok i ∧ place (.cache t i)) ∨ (∃ q, place (.span q)) ∨ ∀ x, u.Pages x → Heap.Idle pc x
  else if u.npages < NPAGES then ∀ x, u.Pages x → Heap.Idle pc x
  else ∀ x, u.Pages x → pc.mapped x = false

/-! ## On lists -/

namespace Heap

variable {τ : Type} {s : Heap τ}

theorem Sound.not_mem_erase (h : s.Sound) {ptr size : ℕ} (hp : (ptr, size) ∈ s.live) :
    ptr ∉ (s.live.erase (ptr, size)).map Prod.fst := by
  have hnd := (((List.perm_cons_erase hp).map Prod.fst).nodup_iff).1 h.pool.distinct
  exact (List.nodup_cons.1 hnd).1

/-- A block with the user is in nobody's free list. -/
theorem Sound.not_cached (h : s.Sound) {ptr size : ℕ} (hp : (ptr, size) ∈ s.live) (hsize : size ≤ MAXBYTES) {v : τ}
    {tc : ThreadCache} (htc : s.pool.tls v = some tc) (i : ℕ) : ptr ∉ (tc i).list := by
  intro hmem
  have hlive : ptr ∈ s.pool.blocksAt s.live [] .live :=
    List.mem_map.2 ⟨(ptr, size), List.mem_filter.2 ⟨hp, by simpa using hsize⟩, rfl⟩
  have hcache : ptr ∈ s.pool.blocksAt s.live [] (.cache v i) := by
    simp only [Pool.blocksAt, htc, Option.map_some, Option.getD_some]
    exact hmem
  cases h.pool.placed.tiles.unique hlive hcache

variable [DecidableEq τ]

/-- `tc_free` returns and the block is available, `u` being its span before. -/
def Freed (s : Heap τ) (t : τ) (ptr size : ℕ) (ok : Bool) : Prop :=
  ∃ pool p u, s.pool.tcFree t ptr ok = .ok pool ∧ s.pool.origin ptr = some p ∧ s.pool.pc.spans p = some u ∧
    Available pool.pc (fun k => ptr ∈ pool.blocksAt (s.live.erase (ptr, size)) [] k) t size u

/-- A block that came back is in the list of the thread that freed it or in its span, if its
span stayed: it is with no user, and the other threads' lists are what they were. -/
theorem Sound.filed_back (h : s.Sound) {pool : Pool τ} {ptr size bytes : ℕ} (hp : (ptr, size) ∈ s.live)
    (hsize : size ≤ MAXBYTES) {t : τ} (h' : pool.Inv (s.live.erase (ptr, size)) []) (hcut : s.pool.CutFrom bytes ptr)
    (hback : s.pool.Recedes pool) (hother : ∀ v, v ≠ t → pool.tls v = s.pool.tls v) {n : ℕ}
    (hcut' : pool.CutFrom n ptr) :
    (∃ i, index bytes = .ok i ∧ ptr ∈ pool.blocksAt (s.live.erase (ptr, size)) [] (.cache t i)) ∨
      ∃ q, ptr ∈ pool.blocksAt (s.live.erase (ptr, size)) [] (.span q) := by
  obtain ⟨k, hk⟩ := (h'.placed.tiles.cover ptr).1 ⟨n, hcut'⟩
  cases k with
  | span q => exact .inr ⟨q, hk⟩
  | cache v i =>
    cases htc : pool.tls v with
    | none => simp only [Pool.blocksAt, htc, Option.map_none, Option.getD_none, List.not_mem_nil] at hk
    | some tc =>
      have hmem : ptr ∈ (tc i).list := by
        simpa only [Pool.blocksAt, htc, Option.map_some, Option.getD_some] using hk
      by_cases hvt : v = t
      · subst hvt
        obtain ⟨m, ⟨l, q, w, hq, hw, hbytes, hbw⟩, hi⟩ := h'.cached htc hmem
        obtain ⟨w₀, hq₀, hw₀, hsame⟩ := hback.within l q w hq hw
        have hm : m = bytes :=
          h.pool.cut_unique ⟨l, q, w₀, hq₀, hw₀, hsame.blockSize.trans hbytes, hsame.blocks.symm ▸ hbw⟩ hcut
        have hidx : index bytes = .ok i := by
          rw [← hi, hm]
          exact index_eq (h.pool.cut_class hcut)
        exact .inl ⟨i, hidx, hk⟩
      · rw [hother v hvt] at htc
        exact absurd hmem (h.not_cached hp hsize htc i)
  | live =>
    obtain ⟨e, he, rfl⟩ := List.mem_map.1 hk
    exact absurd (List.mem_map.2 ⟨e, (List.mem_filter.1 he).1, rfl⟩) (h.not_mem_erase hp)
  | hand => cases hk

/-- A small block is freed by any thread that has a cache. -/
theorem Sound.freed_small (h : s.Sound) {ptr size : ℕ} (hp : (ptr, size) ∈ s.live) (hsize : size ≤ MAXBYTES) {t : τ}
    {tc : ThreadCache} (htc : s.pool.tls t = some tc) (ok : Bool) : s.Freed t ptr size ok := by
  obtain ⟨bytes, -, hcut, heq⟩ := h.pool.tcFree_small hp hsize t ok
  obtain ⟨j, p, u, hj, hu, rfl, hb⟩ := id hcut
  have horigin := (h.pool.filed_of hj hu).origin ptr hb
  have hperm := List.perm_cons_erase hp
  obtain ⟨pool', hdealloc, h', -, -, hback, hother⟩ :=
    Pool.deallocate_spec (h.pool.fromLive hperm hsize) h.used hcut htc
  refine ⟨pool', p, u, heq.trans hdealloc, horigin, hu, ?_⟩
  rw [Available, if_pos hsize]
  by_cases hcut' : ∃ n, pool'.CutFrom n ptr
  · obtain ⟨n, hn⟩ := hcut'
    rcases h.filed_back hp hsize h' hcut hback hother hn with hcache | hspan
    · exact .inl hcache
    · exact .inr (.inl hspan)
  · -- Its span went back whole.
    have hgone : ¬ pool'.InUse (s.live.erase (ptr, size)) p := by
      intro hU
      rcases hU with ⟨l, hl⟩ | ⟨c, m, hc, hm, ho⟩
      · obtain ⟨v, hv, -⟩ := h'.filed hl
        obtain ⟨v₀, -, hv₀, hsame⟩ := hback.within l p v hl hv
        rw [hu] at hv₀
        cases hv₀
        exact hcut' ⟨_, l, p, v, hl, hv, rfl, hsame.blocks ▸ hb⟩
      · obtain ⟨q', v, hl⟩ := h.pool.large (List.mem_of_mem_erase hc) hm
        rw [hback.origin, hl.origin] at ho
        cases ho
        exact hl.apart ⟨j, hj⟩
    exact .inr (.inr fun x hx => hback.listed h.pool h' (fun e he => List.mem_of_mem_erase he) (.inl ⟨j, hj⟩) hu
      hgone hx)

/-- A large block is freed by any thread, unless the system will not take it. -/
theorem Sound.freed_large (h : s.Sound) {ptr size : ℕ} (hp : (ptr, size) ∈ s.live) (hsize : MAXBYTES < size) (t : τ)
    (ok : Bool) : s.Freed t ptr size ok ↔ (NPAGES ≤ Pool.largePages size → ok = true) := by
  obtain ⟨p, u, hl⟩ := h.pool.large hp hsize
  have hperm := List.perm_cons_erase hp
  have hU : s.pool.InUse s.live p := .inr ⟨ptr, size, hp, hsize, hl.origin⟩
  obtain ⟨pc', hrel, heq, h', hframe⟩ := h.pool.tcFree_large h.used hperm hsize (h.fits hp).le hl t ok
  obtain ⟨r, hpc⟩ := h.pool.pages
  obtain ⟨hid, hpos, htop⟩ := hpc.layout.bound (hpc.on hl.span (.inl hU))
  have hnot : ¬ size ≤ MAXBYTES := Nat.not_le.2 hsize
  have hself : (s.pool.pc.setSpan p { u with usedCount := 0 }).spans p = some { u with usedCount := 0 } :=
    setSpan_spans_self ..
  by_cases hshort : u.npages < NPAGES
  · refine iff_of_true ⟨_, p, u, heq, hl.origin, hl.span, ?_⟩ fun hlong => absurd (hl.pages ▸ hlong) (Nat.not_le.2 hshort)
    rw [Available, if_neg hnot, if_pos hshort]
    have hback : s.pool.Recedes { s.pool with pc := pc' } := by
      have howned := releaseToPagecache_owned hself hshort hrel
      exact ⟨fun j q v hq hv => ⟨v, hq, (hframe j q hq).symm.trans hv, .refl v⟩, howned, rfl⟩
    refine fun x hx => hback.listed h.pool h' (fun e he => List.mem_of_mem_erase he) hU hl.span (fun hU' => ?_) hx
    rcases hU' with hc | ⟨c, m, hc, hm, ho⟩
    · exact hl.apart hc
    · obtain ⟨q, v, hl'⟩ := h.pool.large (List.mem_of_mem_erase hc) hm
      have hqp : q = p := Option.some.inj (hl'.origin.symm.trans ho)
      subst hqp
      have hvu : v = u := Option.some.inj (hl'.span.symm.trans hl.span)
      subst hvu
      exact h.not_mem_erase hp (List.mem_map.2 ⟨(c, m), hc, hl'.addr.trans hl.addr.symm⟩)
  · have hlong : NPAGES ≤ u.npages := Nat.not_lt.1 hshort
    have hmapped : ∀ {x}, u.Pages x → pc'.mapped x = (s.pool.pc.mapped x && ! ok) := fun hx =>
      releaseToPagecache_mapped hself hlong (by show u.npages < 2 ^ 52; omega) hrel hx
    constructor
    · intro hfreed _
      obtain ⟨pool', q, v, heq', horigin, hspan, havail⟩ := hfreed
      obtain rfl := Except.ok.inj (heq.symm.trans heq')
      obtain rfl : q = p := Option.some.inj (horigin.symm.trans hl.origin)
      obtain rfl : v = u := Option.some.inj (hspan.symm.trans hl.span)
      rw [Available, if_neg hnot, if_neg hshort] at havail
      have hfirst : v.Pages v.pageId := ⟨Nat.le_refl _, by omega⟩
      have hown : s.pool.pc.owned v.pageId = true :=
        (hpc.layout.tiles.cover _).2 ⟨q, _, _, hpc.on hl.span (.inl hU), hfirst⟩
      have hfalse := havail v.pageId hfirst
      rw [hmapped hfirst, hpc.mapped _ hown] at hfalse
      simpa using hfalse
    · intro hok
      obtain rfl := hok (hl.pages ▸ hlong)
      refine ⟨_, p, u, heq, hl.origin, hl.span, ?_⟩
      rw [Available, if_neg hnot, if_neg hshort]
      intro x hx
      rw [hmapped hx, Bool.not_true, Bool.and_false]

theorem Sound.freed_iff (h : s.Sound) {ptr size : ℕ} (hp : (ptr, size) ∈ s.live) (t : τ) (ok : Bool) :
    s.Freed t ptr size ok ↔ (size ≤ MAXBYTES → (s.pool.tls t).isSome) ∧
      (MAXBYTES < size → NPAGES ≤ Pool.largePages size → ok = true) := by
  by_cases hsize : size ≤ MAXBYTES
  · rw [and_iff_left fun hlt => absurd hlt (Nat.not_lt.2 hsize)]
    constructor
    · intro hfreed _
      obtain ⟨pool', p, u, heq, -⟩ := hfreed
      cases htc : s.pool.tls t with
      | some tc => rfl
      | none =>
        rw [h.pool.tcFree_uncached hp hsize htc] at heq
        cases heq
    · intro hcache
      obtain ⟨tc, htc⟩ := Option.isSome_iff_exists.1 (hcache hsize)
      exact h.freed_small hp hsize htc ok
  · rw [and_iff_right fun hle => absurd hle hsize, h.freed_large hp (Nat.not_le.1 hsize)]
    exact ⟨fun hlong _ => hlong, fun hlong => hlong (Nat.not_le.1 hsize)⟩

end Heap

/-! ## In memory -/

namespace InMemory

namespace Heap

variable {τ : Type} {s : Heap τ} {a : Learncc.Pool τ}

theorem isSome_tls (h : s.pool.Holds a) (t : τ) : (s.pool.tls t).isSome = (a.tls t).isSome := by
  cases hac : a.tls t with
  | none => rw [h.uncached hac]; rfl
  | some ac =>
    obtain ⟨tc, htc, -⟩ := h.cache hac
    rw [htc]
    rfl

variable [DecidableEq τ]

/-- `tc_free` returns, the loop of `release_to_spans` having ended, and the
block is available, `u` being its span before. -/
def Freed (s : Heap τ) (t : τ) (ptr size : ℕ) (ok : Bool) : Prop :=
  ∃ rounds pool p u, s.pool.tcFree t ptr ok rounds = .ok pool ∧ s.pool.origin ptr = some p ∧
    s.pool.pc.spans p = some u ∧ Available pool.pc (At ⟨pool, s.live.erase (ptr, size)⟩ ptr) t size u

/-- The block is freed in memory when it is on lists. -/
theorem freed_congr (h : s.pool.Holds a) (hs : Learncc.Heap.Sound ⟨a, s.live⟩) {ptr size : ℕ}
    (hp : (ptr, size) ∈ s.live) (t : τ) (ok : Bool) :
    s.Freed t ptr size ok ↔ Learncc.Heap.Freed ⟨a, s.live⟩ t ptr size ok := by
  obtain ⟨n, hn⟩ := Pool.tcFree_matches h hs.pool hs.used hp (hs.fits hp).le t ok
  have hplace : ∀ {pool : Pool τ} {a' : Learncc.Pool τ}, pool.Holds a' →
      At ⟨pool, s.live.erase (ptr, size)⟩ ptr = fun k => ptr ∈ a'.blocksAt (s.live.erase (ptr, size)) [] k :=
    fun hholds => funext fun k => propext (at_iff hholds)
  constructor
  · intro hfreed
    obtain ⟨rounds, pool, p, u, heq, ho, hu, havail⟩ := hfreed
    have hle : n ≤ rounds := by
      by_contra hlt
      obtain ⟨f, hf⟩ := (hn rounds).2 (Nat.not_le.1 hlt)
      rw [heq] at hf
      cases hf
    have hmatch := (hn rounds).1 hle
    rw [heq] at hmatch
    obtain ⟨a', heq', hholds⟩ := hmatch.ok_of
    rw [hplace hholds, hholds.pc] at havail
    exact ⟨a', p, u, heq', h.origin ▸ ho, h.pc ▸ hu, havail⟩
  · intro hfreed
    obtain ⟨a', p, u, heq, ho, hu, havail⟩ := hfreed
    have hmatch := (hn n).1 (Nat.le_refl n)
    rw [heq] at hmatch
    obtain ⟨pool, heq', hholds⟩ := hmatch.of_ok
    refine ⟨n, pool, p, u, heq', h.origin ▸ ho, h.pc ▸ hu, ?_⟩
    rw [hplace hholds, hholds.pc]
    exact havail

theorem freed_iff (h : s.pool.Holds a) (hs : Learncc.Heap.Sound ⟨a, s.live⟩) {ptr size : ℕ}
    (hp : (ptr, size) ∈ s.live) (t : τ) (ok : Bool) :
    s.Freed t ptr size ok ↔ (size ≤ MAXBYTES → (s.pool.tls t).isSome) ∧
      (MAXBYTES < size → NPAGES ≤ Learncc.Pool.largePages size → ok = true) := by
  rw [freed_congr h hs hp, hs.freed_iff hp, isSome_tls h]

/-- **Freeing across threads.** In every state that a history of any threads
reaches which meets the condition, for every live pointer and every thread: the
pointer is freed and its block available exactly when the thread has a cache,
if the block is small, and the system takes the pages, if they go back to it. -/
theorem run_frees {found : SpanPtr → UInt64} (hzero : ∀ p, found p = 0) {ops : List (HeapOp τ)}
    (hm : Run.Along step Meets (init found) ops) (h : Run.run step (init found) ops = some s) {ptr size : ℕ}
    (hp : (ptr, size) ∈ s.live) (t : τ) (ok : Bool) :
    s.Freed t ptr size ok ↔ (size ≤ MAXBYTES → (s.pool.tls t).isSome) ∧
      (MAXBYTES < size → NPAGES ≤ Learncc.Pool.largePages size → ok = true) := by
  obtain ⟨a, hholds, hs⟩ := run_sound hzero hm h
  exact freed_iff hholds hs hp t ok

/-- Two threads with a small block each, of which the first writes to its own;
the second frees the block of the first. -/
theorem run_frees_twoThreads :
    ∃ s, Run.run step (init fun _ => 0)
        [.malloc false 60000 (some 16), .malloc true 60000 none, .write 471040 471040 531456] = some s ∧
      s.Freed true 471040 60000 true := by
  have hsome : (Run.run step (init fun _ => 0 : Heap Bool)
      [.malloc false 60000 (some 16), .malloc true 60000 none, .write 471040 471040 531456]).map
      (fun s => (s.live, (s.pool.tls true).isSome)) = some ([(531456, 60000), (471040, 60000)], true) := by
    decide +kernel
  obtain ⟨s, hs, he⟩ := Option.map_eq_some_iff.1 hsome
  obtain ⟨hl, ht⟩ := Prod.mk.inj he
  have hmeets := Run.along_mono Confined.meets (show Run.Along step Confined (init fun _ => 0 : Heap Bool)
    [.malloc false 60000 (some 16), .malloc true 60000 none, .write 471040 471040 531456] by decide +kernel)
  exact ⟨s, hs, (run_frees (fun _ => rfl) hmeets hs (by rw [hl]; decide) true true).2 ⟨fun _ => ht, by decide⟩⟩

/-- A thread that has asked for nothing frees the block of another. -/
theorem not_freed_uncached :
    ∃ s, Run.run step (init fun _ => 0) [.malloc false 60000 (some 16)] = some s ∧ (471040, 60000) ∈ s.live ∧
      ¬ s.Freed true 471040 60000 true := by
  have hsome : (Run.run step (init fun _ => 0 : Heap Bool) [.malloc false 60000 (some 16)]).map
      (fun s => (s.live, (s.pool.tls true).isSome)) = some ([(471040, 60000)], false) := by decide +kernel
  obtain ⟨s, hs, he⟩ := Option.map_eq_some_iff.1 hsome
  obtain ⟨hl, ht⟩ := Prod.mk.inj he
  have hp : (471040, 60000) ∈ s.live := by rw [hl]; decide
  have hmeets := Run.along_mono Confined.meets
    (show Run.Along step Confined (init fun _ => 0 : Heap Bool) [.malloc false 60000 (some 16)] by decide +kernel)
  obtain ⟨a, hholds, hsound⟩ := run_sound (fun _ => rfl) hmeets hs
  refine ⟨s, hs, hp, fun hfreed => ?_⟩
  have hcache := ((freed_iff hholds hsound hp true true).1 hfreed).1 (by decide)
  rw [ht] at hcache
  cases hcache

end Heap

end InMemory

end Learncc
