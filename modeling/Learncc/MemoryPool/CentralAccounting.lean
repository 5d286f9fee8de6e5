/-
What the central cache counts, over histories of `tc_malloc` and `tc_free`
calls of any threads: the calls into `fetch_range_block` and
`release_to_spans` are those the thread caches make.

`run_accounts`: as long as no write of a user changes the first word of a free
block, every block cut from a span is in exactly one place, the span's count is
the number of its blocks that are out and is never 0 between calls, and a span
goes back to the page cache in the call after which none of its blocks is out,
and in no other.
-/
import Learncc.MemoryPool.InMemoryHeap

namespace Learncc

open SizeClass PageCache

/-! ## On lists -/

namespace Heap

variable {τ : Type}

/-- The block is in a thread's free list or with the user. -/
def Out (s : Heap τ) (b : ℕ) : Prop := ∃ k, (∀ p, k ≠ .span p) ∧ b ∈ s.pool.blocksAt s.live [] k

/-- The page is on a list of the page cache. -/
def Idle (pc : PageCache) (x : ℕ) : Prop := ∃ q k u, q ∈ pc.pageList k ∧ pc.spans q = some u ∧ u.Pages x

/-- The spans of the central cache with their blocks. -/
def Cuts (s : Heap τ) (p : SpanPtr) (t : Span) : Prop := s.pool.Central p ∧ s.pool.pc.spans p = some t

theorem length_filter_not_mem {l m : List ℕ} (hl : l.Nodup) (hm : m.Nodup) (hsub : ∀ b ∈ m, b ∈ l) :
    m.length + (l.filter fun b => b ∉ m).length = l.length := by
  have hperm : (l.filter fun b => b ∈ m).Perm m := by
    refine (List.perm_ext_iff_of_nodup (hl.filter _) hm).2 fun b => ?_
    simp only [List.mem_filter, decide_eq_true_eq]
    exact ⟨fun hb => hb.2, fun hb => ⟨hsub b hb, hb⟩⟩
  rw [List.length_eq_length_filter_add (l := l) fun b => decide (b ∈ m), hperm.length_eq]
  congr 2
  refine List.filter_congr fun b _ => ?_
  simp

section

variable {s : Heap τ} {p q : SpanPtr} {t : Span}

theorem Sound.counted (h : s.Sound) (hc : s.Cuts p t) :
    t.usedCount = (t.blocks.filter fun b => b ∉ s.pool.blockList p).length ∧ 1 ≤ t.usedCount := by
  obtain ⟨⟨i, hp⟩, ht⟩ := hc
  have hf := h.pool.filed_of hp ht
  have hnd : (s.pool.blockList p).Nodup := by
    have := h.pool.placed.nodup (.span p)
    rwa [Pool.blocksAt_span hp] at this
  have hlen := length_filter_not_mem (Span.nodup_blocks hf.isClass.pos) hnd hf.blocks
  have hcount := hf.count
  exact ⟨by omega, h.used i p t hp (fun hx => hx) ht⟩

/-- A span has none but its own blocks. -/
theorem Sound.home (h : s.Sound) (hc : s.Cuts p t) {b : ℕ} (hb : b ∈ t.blocks)
    (hq : b ∈ s.pool.blocksAt s.live [] (.span q)) : q = p := by
  obtain ⟨⟨i, hp⟩, ht⟩ := hc
  by_cases hcq : s.pool.Central q
  · obtain ⟨j, hj⟩ := hcq
    obtain ⟨u, hu, hfu⟩ := h.pool.filed hj
    rw [Pool.blocksAt_span hj] at hq
    exact h.pool.span_unique hj hp hu ht (hfu.blocks b hq) hb
  · rw [Pool.blocksAt_not_central hcq] at hq
    cases hq

/-- A block of a span that the span does not have is out. -/
theorem Sound.out_of_not_mem (h : s.Sound) (hc : s.Cuts p t) {b : ℕ} (hb : b ∈ t.blocks)
    (hno : b ∉ s.pool.blockList p) : s.Out b := by
  obtain ⟨⟨i, hp⟩, ht⟩ := id hc
  obtain ⟨k, hk⟩ := (h.pool.placed.tiles.cover b).1 ⟨t.blockSize, i, p, t, hp, ht, rfl, hb⟩
  refine ⟨k, fun q hkq => ?_, hk⟩
  subst hkq
  obtain rfl := h.home hc hb hk
  rw [Pool.blocksAt_span hp] at hk
  exact hno hk

/-- Between calls every span has a block out. -/
theorem Sound.some_out (h : s.Sound) (hc : s.Cuts p t) : ∃ b ∈ t.blocks, s.Out b := by
  obtain ⟨hcount, hpos⟩ := h.counted hc
  rw [hcount] at hpos
  obtain ⟨b, hb⟩ := List.exists_mem_of_length_pos hpos
  obtain ⟨hb, hno⟩ := List.mem_filter.1 hb
  exact ⟨b, hb, h.out_of_not_mem hc hb (by simpa using hno)⟩

/-- A block is in one place. -/
theorem Sound.placed (h : s.Sound) (hc : s.Cuts p t) {b : ℕ} (hb : b ∈ t.blocks) :
    ∃! k, b ∈ s.pool.blocksAt s.live [] k := by
  obtain ⟨⟨i, hp⟩, ht⟩ := hc
  obtain ⟨k, hk⟩ := (h.pool.placed.tiles.cover b).1 ⟨t.blockSize, i, p, t, hp, ht, rfl, hb⟩
  exact ⟨k, hk, fun l hl => h.pool.placed.tiles.unique hl hk⟩

end

section

variable {s s' : Heap τ} {p : SpanPtr} {t : Span}

/-- A span that stays is the same span. -/
theorem Moves.stays (h : s.Moves s') (hc : s.Cuts p t) (hc' : s'.pool.Central p) : ∃ t', s'.Cuts p t' ∧ t'.Same t := by
  obtain ⟨⟨i, hp⟩, ht⟩ := hc
  rcases h.moves with hin | ⟨hback, -⟩
  · obtain ⟨t', hp', ht', hsame⟩ := hin i p t hp ht
    exact ⟨t', ⟨⟨i, hp'⟩, ht'⟩, hsame⟩
  · obtain ⟨j, hj⟩ := id hc'
    obtain ⟨t', ht', -⟩ := h.sound.pool.filed hj
    obtain ⟨t₀, -, ht₀, hsame⟩ := hback.within j p t' hj ht'
    rw [ht] at ht₀
    cases ht₀
    exact ⟨t', ⟨hc', ht'⟩, ⟨hsame.pageId.symm, hsame.npages.symm, hsame.blockSize.symm⟩⟩

/-- A span that leaves does so in a call that gives spans back. -/
theorem Moves.recedes (h : s.Moves s') (hc : s.Cuts p t) (hgone : ¬ s'.pool.Central p) :
    s.pool.Recedes s'.pool ∧ ∀ e ∈ s'.live, e ∈ s.live := by
  obtain ⟨⟨i, hp⟩, ht⟩ := hc
  refine h.moves.resolve_left fun hin => ?_
  obtain ⟨t', hp', -⟩ := hin i p t hp ht
  exact hgone ⟨i, hp'⟩

/-- What is out after such a call is a block of a span that stayed. -/
theorem Moves.none_out (h : s.Moves s') (hs : s.Sound) (hc : s.Cuts p t) (hgone : ¬ s'.pool.Central p) {b : ℕ}
    (hb : b ∈ t.blocks) : ¬ s'.Out b := by
  intro hout
  obtain ⟨k, -, hk⟩ := hout
  obtain ⟨hback, -⟩ := h.recedes hc hgone
  obtain ⟨n, j, q, u', hq, hu', -, hbu'⟩ := h.sound.pool.placed.mem hk
  obtain ⟨u, hq₀, hu, hsame⟩ := hback.within j q u' hq hu'
  obtain ⟨⟨i, hp⟩, ht⟩ := hc
  rw [← hsame.blocks] at hbu'
  have hpq := hs.pool.span_unique hp hq₀ ht hu hb hbu'
  subst hpq
  exact hgone ⟨j, hq⟩

/-- The page cache has the pages of a span that left. -/
theorem Moves.idle (h : s.Moves s') (hs : s.Sound) (hc : s.Cuts p t) (hgone : ¬ s'.pool.Central p) {x : ℕ}
    (hx : t.Pages x) : Idle s'.pool.pc x := by
  obtain ⟨hback, hlive⟩ := h.recedes hc hgone
  have hgone' : ¬ s'.pool.InUse s'.live p := by
    intro hp
    rcases hp with hp | ⟨b, size, hb, hsize, ho⟩
    · exact hgone hp
    · obtain ⟨q, u, hl⟩ := hs.pool.large (hlive _ hb) hsize
      rw [hback.origin, hl.origin] at ho
      cases ho
      exact hl.apart hc.1
  exact hback.listed hs.pool h.sound.pool hlive (.inl hc.1) hc.2 hgone' hx

/-- A span leaves in the call after which none of its blocks is out. -/
theorem Moves.gone_iff (h : s.Moves s') (hs : s.Sound) (hc : s.Cuts p t) :
    ¬ s'.pool.Central p ↔ ∀ b ∈ t.blocks, ¬ s'.Out b := by
  refine ⟨fun hgone b => h.none_out hs hc hgone, fun hnone hp' => ?_⟩
  obtain ⟨t', hc', hsame⟩ := h.stays hc hp'
  obtain ⟨b, hb, hout⟩ := h.sound.some_out hc'
  exact hnone b (hsame.blocks ▸ hb) hout

end

end Heap

/-! ## In memory -/

namespace InMemory

namespace Heap

variable {τ : Type}

/-- The block is in a thread's free list or with the user. -/
def Out (s : Heap τ) (b : ℕ) : Prop := (∃ t i, s.At b (.cache t i)) ∨ s.At b .live

/-- The spans of the central cache with their blocks. -/
def Cuts (s : Heap τ) (p : SpanPtr) (t : Span) : Prop := s.pool.Central p ∧ s.pool.pc.spans p = some t

/-- The chains end, and no pointer is twice with the users. -/
structure Accounted (s : Heap τ) : Prop where
  held : ∀ p, s.pool.Central p → ∃ t, s.Cuts p t
  listed : ∀ p, s.pool.Central p → ∃ l, Linked s.pool.word (s.pool.blockList p) l
  cached : ∀ t tc i, s.pool.tls t = some tc → ∃ l, Linked s.pool.word (tc i).list l
  distinct : (s.live.map Prod.fst).Nodup
  place : ∀ p t, s.Cuts p t → ∀ b ∈ t.blocks, ∃! k, s.At b k
  home : ∀ p t, s.Cuts p t → ∀ b ∈ t.blocks, ∀ q, s.At b (.span q) → q = p
  count : ∀ p t, s.Cuts p t → ∃ l, Linked s.pool.word (s.pool.blockList p) l ∧
    t.usedCount = (t.blocks.filter fun b => b ∉ l).length
  used : ∀ p t, s.Cuts p t → 1 ≤ t.usedCount

section

variable {s : Heap τ} {a : Learncc.Pool τ}

theorem out_iff (h : s.pool.Holds a) {b : ℕ} : s.Out b ↔ Learncc.Heap.Out ⟨a, s.live⟩ b := by
  constructor
  · intro hx
    rcases hx with ⟨t, i, hk⟩ | hk
    · exact ⟨.cache t i, nofun, (at_iff h).1 hk⟩
    · exact ⟨.live, nofun, (at_iff h).1 hk⟩
  · intro hx
    obtain ⟨k, hspan, hk⟩ := hx
    cases k with
    | span p => exact absurd rfl (hspan p)
    | cache t i => exact .inl ⟨t, i, (at_iff h).2 hk⟩
    | live => exact .inr ((at_iff h).2 hk)
    | hand => cases hk

theorem cuts_iff (h : s.pool.Holds a) {p : SpanPtr} {t : Span} : s.Cuts p t ↔ Learncc.Heap.Cuts ⟨a, s.live⟩ p t := by
  unfold Cuts Learncc.Heap.Cuts
  rw [central_iff h, h.pc]

theorem accounted (h : s.pool.Holds a) (hs : Learncc.Heap.Sound ⟨a, s.live⟩) : s.Accounted := by
  refine ⟨fun p hp => ?_, fun p hp => ⟨_, h.span ((central_iff h).1 hp)⟩, fun t tc i htc => ?_, hs.pool.distinct,
    fun p t hc b hb => ?_, fun p t hc b hb q hq => ?_, fun p t hc => ?_, fun p t hc => ?_⟩
  · obtain ⟨i, hi⟩ := (central_iff h).1 hp
    obtain ⟨t, ht, -⟩ := hs.pool.filed hi
    exact ⟨t, hp, h.pc ▸ ht⟩
  · cases hac : a.tls t with
    | none =>
      rw [h.uncached hac] at htc
      cases htc
    | some ac =>
      obtain ⟨tc', htc', hfiles⟩ := h.cache hac
      rw [htc] at htc'
      cases htc'
      exact ⟨_, (hfiles i).list⟩
  · simp only [at_iff h]
    exact hs.placed ((cuts_iff h).1 hc) hb
  · exact hs.home ((cuts_iff h).1 hc) hb ((at_iff h).1 hq)
  · exact ⟨_, h.span ((central_iff h).1 hc.1), (hs.counted ((cuts_iff h).1 hc)).1⟩
  · exact (hs.counted ((cuts_iff h).1 hc)).2

end

variable [DecidableEq τ] {s : Heap τ}

/-- **The central cache counts right.** In every history of any threads that
meets the condition: the accounts are in order, and whatever the next step that
meets it, a span is in the central cache after it unless none of its blocks is
out any more, in which case the page cache has its pages. -/
theorem run_accounts {found : SpanPtr → UInt64} (hzero : ∀ p, found p = 0) {ops : List (HeapOp τ)}
    (hm : Run.Along step Meets (init found) ops) (h : Run.run step (init found) ops = some s) :
    s.Accounted ∧
    ∀ op s', s.Meets op → s.step op = some s' → ∀ p t, s.Cuts p t →
      (¬ s'.pool.Central p ↔ ∀ b ∈ t.blocks, ¬ s'.Out b) ∧
      (¬ s'.pool.Central p → ∀ x, t.Pages x → Learncc.Heap.Idle s'.pool.pc x) := by
  obtain ⟨a, hholds, hs⟩ := run_sound hzero hm h
  refine ⟨accounted hholds hs, fun op s' hop hstep p t hc => ?_⟩
  obtain ⟨a', hholds', hcall⟩ := step_refines hholds hs hop hstep
  have hmoves := hs.moves hcall
  have hc' := (cuts_iff hholds).1 hc
  simp only [central_iff hholds', out_iff hholds', hholds'.pc]
  exact ⟨hmoves.gone_iff hs hc', fun hgone x => hmoves.idle hs hc' hgone⟩

/-- One span, a block for each of two threads; the second thread has written
to its block and freed the block of the first. -/
def twoThreads : List (HeapOp Bool) :=
  [.malloc false 60000 (some 16), .malloc true 60000 none, .write 531456 531456 471040, .free true 471040 true 0]

/-- The second thread then frees its own block too, and the span goes back. -/
theorem run_accounts_twoThreads :
    ∃ s s' t, Run.run step (init fun _ => 0) twoThreads = some s ∧ s.step (.free true 531456 true 2) = some s' ∧
      s.Accounted ∧ s.Cuts 1 t ∧ ¬ s'.pool.Central 1 ∧ (∀ b ∈ t.blocks, ¬ s'.Out b) ∧
      ∀ x, t.Pages x → Learncc.Heap.Idle s'.pool.pc x := by
  have hsome : (Run.run step (init fun _ => 0) twoThreads).bind (fun s =>
      (s.step (.free true 531456 true 2)).map fun s' => (decide (1 ∈ s.pool.spanList 229), s'.pool.pc.spans 1)) =
        some (true, none) := by decide +kernel
  obtain ⟨s, hs, hsome⟩ := Option.bind_eq_some_iff.1 hsome
  obtain ⟨s', hs', he⟩ := Option.map_eq_some_iff.1 hsome
  obtain ⟨hmem, hnone⟩ := Prod.mk.inj he
  have hmeets := Run.along_mono Confined.meets
    (show Run.Along step Confined (init fun _ => 0) (twoThreads ++ [.free true 531456 true 2]) by decide +kernel)
  have hacc := run_accounts (fun _ => rfl) (Run.along_append.1 hmeets).1 hs
  have hacc' := (run_accounts (fun _ => rfl) hmeets (Run.run_concat.2 ⟨s, hs, hs'⟩)).1
  obtain ⟨t, hc⟩ := hacc.1.held 1 ⟨229, of_decide_eq_true hmem⟩
  have hgone : ¬ s'.pool.Central 1 := by
    intro hc'
    obtain ⟨t', -, ht'⟩ := hacc'.held 1 hc'
    rw [hnone] at ht'
    cases ht'
  obtain ⟨hiff, hidle⟩ := hacc.2 (.free true 531456 true 2) s' trivial hs' 1 t hc
  exact ⟨s, s', t, hs, hs', hacc.1, hc, hgone, hiff.1 hgone, hidle hgone⟩

/-- After the write into the last block, a block that is live is in the free
list of the thread too. -/
theorem overrun_not_accounted : ∃ s, Run.run step (init fun _ => 0) (overrun 458752) = some s ∧ ¬ s.Accounted := by
  let t : Span := { pageId := 112, npages := 16, blockSize := 33280, usedCount := 2 }
  have hsome : (Run.run step (init fun _ => 0) (overrun 458752)).map (fun s =>
      (decide (2 ∈ s.pool.spanList 176 ∧ s.pool.pc.spans 2 = some t), (s.pool.tls ()).map fun tc => (tc 176).list,
        [524288, 458752, 492032].map s.pool.word, s.live)) =
        some (true, some 524288, [458752, 492032, 0], [(492032, 33280), (458752, 33280), (557568, 33280)]) := by
    decide +kernel
  obtain ⟨s, hs, hsome⟩ := Option.map_eq_some_iff.1 hsome
  simp only [Prod.mk.injEq, List.map_cons, List.map_nil, List.cons.injEq, and_true, decide_eq_true_eq] at hsome
  obtain ⟨hcut, hlist, ⟨hw₁, hw₂, hw₃⟩, hlive⟩ := hsome
  refine ⟨s, hs, fun hacc => ?_⟩
  obtain ⟨tc, htc, hhead⟩ := Option.map_eq_some_iff.1 hlist
  have hchain : Linked s.pool.word (tc 176).list [524288, 458752, 492032] := by
    rw [hhead]
    refine ⟨rfl, by decide, ?_⟩
    rw [hw₁]
    refine ⟨rfl, by decide, ?_⟩
    rw [hw₂]
    refine ⟨rfl, by decide, ?_⟩
    rw [hw₃]
    exact rfl
  have hcache : s.At 458752 (.cache () 176) := ⟨tc, htc, _, hchain, by decide⟩
  have hlive' : s.At 458752 .live := ⟨33280, hlive ▸ by decide, by decide⟩
  have honce := hacc.place 2 t ⟨⟨176, hcut.1⟩, hcut.2⟩ 458752 (by decide)
  cases honce.unique hcache hlive'

end Heap

end InMemory

end Learncc
