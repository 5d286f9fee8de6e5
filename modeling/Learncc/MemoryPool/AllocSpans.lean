/-
Spans that come and go: a new span is cut into blocks and joins the central
cache (`joined`), a span that has all its blocks back leaves it (`left`), and
a large request takes a span whole and gives it back.

That the page cache gives out pages nobody uses (`far_of_gives`) is what
keeps the blocks of a new span apart from everything the allocator knows.
-/
import Learncc.MemoryPool.AllocFacts

namespace Learncc

open SizeClass PageCache

/-- The span, cut into blocks of `bytes` bytes. -/
def Span.cut (s : Span) (bytes : ℕ) : Span := { s with blockSize := bytes, usedCount := 0 }

namespace Pool

variable {τ : Type} {pool : Pool τ} {live : List (ℕ × ℕ)} {hand : List ℕ}

/-- The page a pointer of a large request starts on is one of its span's. -/
theorem LargeSpan.page {b size : ℕ} {p : SpanPtr} {s : Span} (hl : pool.LargeSpan b size p s) (hpos : 0 < s.npages) :
    s.Pages (b / 2 ^ PAGESHIFT) := by
  rw [hl.addr, Nat.mul_div_cancel _ (by decide)]
  exact ⟨Nat.le_refl _, by omega⟩

/-- Every block starts on a page of a span in use. -/
theorem Inv.cut_page (h : Inv pool live hand) {bytes b : ℕ} (hb : pool.CutFrom bytes b) :
    ∃ q t, pool.InUse live q ∧ pool.pc.spans q = some t ∧ t.Pages (b / 2 ^ PAGESHIFT) := by
  obtain ⟨i, q, t, hq, ht, -, hbt⟩ := hb
  exact ⟨q, t, .inl ⟨i, hq⟩, ht, t.page_of_block (h.filed_of hq ht).isClass.pos hbt⟩

/-- Every live pointer does. -/
theorem Inv.live_page (h : Inv pool live hand) {b size : ℕ} (hb : (b, size) ∈ live) :
    ∃ q t, pool.InUse live q ∧ pool.pc.spans q = some t ∧ t.Pages (b / 2 ^ PAGESHIFT) := by
  by_cases hsize : size ≤ MAXBYTES
  · obtain ⟨bytes, -, hcut⟩ := h.small hb hsize
    exact h.cut_page hcut
  · obtain ⟨q, t, hl⟩ := h.large hb (by omega)
    have hU : pool.InUse live q := .inr ⟨b, size, hb, by omega, hl.origin⟩
    obtain ⟨r, hpc⟩ := h.pages
    obtain ⟨-, hpos, -⟩ := hpc.layout.bound (hpc.on hl.span (.inl hU))
    exact ⟨q, t, hU, hl.span, hl.page hpos⟩

section

variable {n : ℕ} {pc' : PageCache} {p : SpanPtr} {s : Span}

/-- A span the page cache gives out shares no page with those in use. -/
theorem far_of_gives (hg : Gives pool.pc (pool.InUse live) n pc' p) (hs : pc'.spans p = some s) {q : SpanPtr} {t : Span}
    (hq : pool.InUse live q) (ht : pool.pc.spans q = some t) {x : ℕ} (hx : t.Pages x) : ¬ s.Pages x := by
  obtain ⟨⟨r', hinv⟩, hnew, -, hframe⟩ := hg
  intro hx'
  have hrp := hinv.on hs (.inl (.inr rfl))
  have hrq := hinv.on ((hframe q hq).trans ht) (.inl (.inl hq))
  exact hnew (hinv.layout.eq_of_mem hrp hrq hx' hx ▸ hq)

/-- The spans in use stay as they are. -/
theorem frame_of_gives (hg : Gives pool.pc (pool.InUse live) n pc' p) (s' : Span) {q : SpanPtr}
    (hq : pool.InUse live q) : (pc'.setSpan p s').spans q = pool.pc.spans q := by
  have hqp : q ≠ p := by
    intro he
    subst he
    exact hg.new hq
  exact (setSpan_spans_of_ne _ _ hqp).trans (hg.frame q hq)

/-- No live pointer and no block starts on a page of the span. -/
theorem Inv.live_far (h : Inv pool live hand) (hg : Gives pool.pc (pool.InUse live) n pc' p) (hs : pc'.spans p = some s)
    {b size : ℕ} (hb : (b, size) ∈ live) : ¬ s.Pages (b / 2 ^ PAGESHIFT) := by
  obtain ⟨q, t, hU, ht, hx⟩ := h.live_page hb
  exact far_of_gives hg hs hU ht hx

theorem Inv.cut_far (h : Inv pool live hand) (hg : Gives pool.pc (pool.InUse live) n pc' p) (hs : pc'.spans p = some s)
    {bytes b : ℕ} (hb : pool.CutFrom bytes b) : ¬ s.Pages (b / 2 ^ PAGESHIFT) := by
  obtain ⟨q, t, hU, ht, hx⟩ := h.cut_page hb
  exact far_of_gives hg hs hU ht hx

end

/-! ## A span joins the central cache -/

/-- The allocator after the span `p`, which the page cache gave out, was cut
into blocks of `bytes` bytes. -/
def joined (pool : Pool τ) (pc' : PageCache) (p : SpanPtr) (s : Span) (bytes : ℕ) : Pool τ :=
  { pool with
    pc := pc'.setSpan p (s.cut bytes)
    blockList := Function.update pool.blockList p (s.cut bytes).blocks
    spanList := Function.update pool.spanList (classIndex bytes) (p :: pool.spanList (classIndex bytes))
    origin := fun b => if b ∈ (s.cut bytes).blocks then some p else pool.origin b }

section

variable {n : ℕ} {pc' : PageCache} {p : SpanPtr} {s : Span} {bytes : ℕ}

theorem joined_span : (pool.joined pc' p s bytes).pc.spans p = some (s.cut bytes) := setSpan_spans_self ..

theorem joined_blockList : (pool.joined pc' p s bytes).blockList p = (s.cut bytes).blocks := Function.update_self ..

theorem joined_blockList_of_ne {q : SpanPtr} (hq : q ≠ p) :
    (pool.joined pc' p s bytes).blockList q = pool.blockList q := Function.update_of_ne hq ..

theorem joined_origin {b : ℕ} (hb : b ∉ (s.cut bytes).blocks) : (pool.joined pc' p s bytes).origin b = pool.origin b :=
  if_neg hb

theorem mem_joined (j : ℕ) (q : SpanPtr) :
    q ∈ (pool.joined pc' p s bytes).spanList j ↔ q ∈ pool.spanList j ∨ j = classIndex bytes ∧ q = p := by
  by_cases hj : j = classIndex bytes
  · subst hj
    simp only [joined, Function.update_self, List.mem_cons, true_and]
    exact or_comm
  · simp only [joined, Function.update_of_ne hj, hj, false_and, or_false]

theorem central_joined (q : SpanPtr) : (pool.joined pc' p s bytes).Central q ↔ pool.Central q ∨ q = p := by
  constructor
  · intro he
    obtain ⟨j, hj⟩ := he
    rcases (mem_joined j q).1 hj with hj | ⟨-, rfl⟩
    · exact .inl ⟨j, hj⟩
    · exact .inr rfl
  · intro he
    rcases he with ⟨j, hj⟩ | rfl
    · exact ⟨j, (mem_joined j q).2 (.inl hj)⟩
    · exact ⟨classIndex bytes, (mem_joined _ q).2 (.inr ⟨rfl, rfl⟩)⟩

theorem page_of_cut (hc : IsClass bytes) {b : ℕ} (hb : b ∈ (s.cut bytes).blocks) : s.Pages (b / 2 ^ PAGESHIFT) :=
  (s.cut bytes).page_of_block hc.pos hb

theorem cutFrom_joined (hg : Gives pool.pc (pool.InUse live) n pc' p) {m b : ℕ} :
    (pool.joined pc' p s bytes).CutFrom m b ↔ pool.CutFrom m b ∨ m = bytes ∧ b ∈ (s.cut bytes).blocks := by
  constructor
  · intro he
    obtain ⟨j, q, t, hq, ht, hm, hb⟩ := he
    rcases (mem_joined j q).1 hq with hq | ⟨-, rfl⟩
    · exact .inl ⟨j, q, t, hq, (frame_of_gives hg _ (.inl ⟨j, hq⟩)).symm.trans ht, hm, hb⟩
    · rw [joined_span] at ht
      cases ht
      exact .inr ⟨hm.symm, hb⟩
  · intro he
    rcases he with ⟨j, q, t, hq, ht, hm, hb⟩ | ⟨rfl, hb⟩
    · exact ⟨j, q, t, (mem_joined j q).2 (.inl hq), (frame_of_gives hg _ (.inl ⟨j, hq⟩)).trans ht, hm, hb⟩
    · exact ⟨_, p, s.cut m, (mem_joined _ p).2 (.inr ⟨rfl, rfl⟩), joined_span, rfl, hb⟩

/-- The pointers of large requests are none of the new blocks. -/
theorem Inv.joined_live (h : Inv pool live hand) (hg : Gives pool.pc (pool.InUse live) n pc' p)
    (hs : pc'.spans p = some s) (hc : IsClass bytes) {b size : ℕ} (hb : (b, size) ∈ live) :
    (pool.joined pc' p s bytes).origin b = pool.origin b :=
  joined_origin fun hb' => h.live_far hg hs hb (page_of_cut hc hb')

theorem Inv.inUse_joined (h : Inv pool live hand) (hg : Gives pool.pc (pool.InUse live) n pc' p)
    (hs : pc'.spans p = some s) (hc : IsClass bytes) (q : SpanPtr) :
    (pool.joined pc' p s bytes).InUse live q ↔ pool.InUse live q ∨ q = p := by
  unfold InUse
  rw [central_joined, or_right_comm]
  refine or_congr_left (or_congr_right ?_)
  refine exists_congr fun b => exists_congr fun size => and_congr_right fun hm => ?_
  rw [h.joined_live hg hs hc hm]

theorem Inv.placed_joined (h : Inv pool live hand) (hg : Gives pool.pc (pool.InUse live) n pc' p)
    (hs : pc'.spans p = some s) (hc : IsClass bytes) :
    Placed ((pool.joined pc' p s bytes).blocksAt live hand) fun b =>
      ∃ m, (pool.joined pc' p s bytes).CutFrom m b := by
  refine h.placed.add (.span p) (s.cut bytes).blocks (Span.nodup_blocks (s := s.cut bytes) hc.pos) (fun b hb => ?_)
    (fun k hk => ?_) (blocksAt_not_central fun hp => hg.new (.inl hp)) ?_ fun b => ?_
  · intro he
    obtain ⟨m, hm⟩ := he
    exact h.cut_far hg hs hm (page_of_cut hc hb)
  · cases k with
    | span q =>
      have hqp : q ≠ p := by
        intro he
        subst he
        exact hk rfl
      refine blocksAt_span_congr ?_ (joined_blockList_of_ne hqp)
      rw [central_joined]
      exact or_iff_left hqp
    | live | hand => rfl
    | cache u j => rfl
  · rw [blocksAt_span ((mem_joined _ p).2 (.inr ⟨rfl, rfl⟩)), joined_blockList]
  · constructor
    · intro he
      obtain ⟨m, hb⟩ := he
      rcases (cutFrom_joined hg).1 hb with hb | ⟨-, hb⟩
      · exact .inl ⟨m, hb⟩
      · exact .inr hb
    · intro he
      rcases he with ⟨m, hb⟩ | hb
      · exact ⟨m, (cutFrom_joined hg).2 (.inl hb)⟩
      · exact ⟨bytes, (cutFrom_joined hg).2 (.inr ⟨rfl, hb⟩)⟩

/-- A new span, cut into blocks, joins the central cache. -/
theorem Inv.addSpan (h : Inv pool live hand) (hg : Gives pool.pc (pool.InUse live) n pc' p) (hs : pc'.spans p = some s)
    (hlt : s.npages < NPAGES) (hc : IsClass bytes) : Inv (pool.joined pc' p s bytes) live hand := by
  obtain ⟨r', hinv⟩ := hg.inv
  have hpages := (hinv.setSpan (s.cut bytes) (.inr rfl) hs rfl rfl).congr (h.inUse_joined hg hs hc)
  refine ⟨⟨r', hpages⟩, fun {j q} hq => ?_, fun j => ?_, h.placed_joined hg hs hc, fun htc hb => ?_, fun hb hsize => ?_,
    fun {b size} hb hsize => ?_, h.distinct, h.grown⟩
  · rcases (mem_joined j q).1 hq with hq | ⟨rfl, rfl⟩
    · obtain ⟨t, ht, hf⟩ := h.filed hq
      have hqp : q ≠ p := fun he => hg.new (.inl ⟨j, he ▸ hq⟩)
      refine ⟨t, (frame_of_gives hg _ (.inl ⟨j, hq⟩)).trans ht,
        hf.congr (joined_blockList_of_ne hqp) fun b hb => joined_origin fun hb' => ?_⟩
      exact h.cut_far hg hs ⟨j, q, t, hq, ht, rfl, hb⟩ (page_of_cut hc hb')
    · refine ⟨s.cut bytes, joined_span, hc, rfl, hlt, ?_, fun b hb => ?_, fun b hb => if_pos hb⟩
      · rw [joined_blockList]
        exact Nat.zero_add _
      · rwa [joined_blockList] at hb
  · by_cases hj : j = classIndex bytes
    · subst hj
      simp only [joined, Function.update_self]
      exact List.nodup_cons.2 ⟨fun hm => hg.new (.inl ⟨_, hm⟩), h.nodup _⟩
    · simp only [joined, Function.update_of_ne hj]
      exact h.nodup j
  · obtain ⟨m, hb', hi⟩ := h.cached htc hb
    exact ⟨m, (cutFrom_joined hg).2 (.inl hb'), hi⟩
  · obtain ⟨m, hr, hb'⟩ := h.small hb hsize
    exact ⟨m, hr, (cutFrom_joined hg).2 (.inl hb')⟩
  · obtain ⟨q, t, hl⟩ := h.large hb hsize
    have hU : pool.InUse live q := .inr ⟨b, size, hb, hsize, hl.origin⟩
    refine ⟨q, t, hl.congr (h.joined_live hg hs hc hb) (frame_of_gives hg _ hU) fun hq => ?_⟩
    refine ((central_joined q).1 hq).resolve_right ?_
    intro he
    subst he
    exact hg.new hU

end

/-! ## A span leaves the central cache -/

/-- The allocator after the span `p` of list `i` was released. -/
def left (pool : Pool τ) (pc' : PageCache) (i : ℕ) (p : SpanPtr) : Pool τ :=
  { pool with
    pc := pc'
    blockList := Function.update pool.blockList p []
    spanList := Function.update pool.spanList i ((pool.spanList i).erase p) }

/-- Every span in use but `p` counts a block or a user. -/
theorem Inv.busy (h : Inv pool live hand) {p : SpanPtr} (hused : pool.Used (· = p)) (s' : Span) :
    Busy (pool.pc.setSpan p s') (pool.InUse live) p := by
  intro q t hq hqp ht
  rw [setSpan_spans_of_ne _ _ hqp] at ht
  rcases hq with ⟨j, hj⟩ | ⟨b, size, hm, hsize, ho⟩
  · exact Nat.pos_iff_ne_zero.1 (hused _ _ _ hj hqp ht)
  · obtain ⟨q', t', hl⟩ := h.large hm hsize
    rw [hl.origin] at ho
    cases ho
    rw [hl.span] at ht
    cases ht
    rw [hl.used]
    exact Nat.one_ne_zero

/-- The span of a large request is not in the central cache. -/
theorem Inv.large_ne (h : Inv pool live hand) {b size : ℕ} (hb : (b, size) ∈ live) (hsize : MAXBYTES < size)
    {p : SpanPtr} (hp : pool.Central p) : pool.origin b ≠ some p := by
  intro ho
  obtain ⟨q, t, hl⟩ := h.large hb hsize
  rw [hl.origin] at ho
  cases ho
  exact hl.apart hp

section

variable {i : ℕ} {pc' : PageCache} {p : SpanPtr} {s : Span}

theorem Inv.mem_left (h : Inv pool live hand) (hp : p ∈ pool.spanList i) (j : ℕ) (q : SpanPtr) :
    q ∈ (pool.left pc' i p).spanList j ↔ q ∈ pool.spanList j ∧ q ≠ p := by
  by_cases hj : j = i
  · subst hj
    simp only [left, Function.update_self]
    rw [(h.nodup j).mem_erase_iff, and_comm]
  · simp only [left, Function.update_of_ne hj]
    refine (and_iff_left_of_imp fun hq => ?_).symm
    intro he
    subst he
    exact hj (h.list_unique hq hp)

theorem Inv.central_left (h : Inv pool live hand) (hp : p ∈ pool.spanList i) (q : SpanPtr) :
    (pool.left pc' i p).Central q ↔ pool.Central q ∧ q ≠ p := by
  constructor
  · intro he
    obtain ⟨j, hj⟩ := he
    obtain ⟨h1, h2⟩ := (h.mem_left hp j q).1 hj
    exact ⟨⟨j, h1⟩, h2⟩
  · intro he
    obtain ⟨⟨j, h1⟩, h2⟩ := he
    exact ⟨j, (h.mem_left hp j q).2 ⟨h1, h2⟩⟩

theorem Inv.inUse_left (h : Inv pool live hand) (hp : p ∈ pool.spanList i) (q : SpanPtr) :
    (pool.left pc' i p).InUse live q ↔ pool.InUse live q ∧ q ≠ p := by
  unfold InUse
  rw [h.central_left hp, or_and_right]
  refine or_congr_right (and_iff_left_of_imp ?_).symm
  intro he hx
  obtain ⟨b, size, hm, hsize, ho⟩ := he
  subst hx
  exact h.large_ne hm hsize ⟨i, hp⟩ ho

theorem Inv.cutFrom_left (h : Inv pool live hand) (hp : p ∈ pool.spanList i) (hs : pool.pc.spans p = some s)
    (hframe : ∀ q, pool.InUse live q → q ≠ p → pc'.spans q = pool.pc.spans q) {m b : ℕ} :
    (pool.left pc' i p).CutFrom m b ↔ pool.CutFrom m b ∧ b ∉ s.blocks := by
  constructor
  · intro he
    obtain ⟨j, q, t, hq, ht, hm, hb⟩ := he
    obtain ⟨hq', hqp⟩ := (h.mem_left hp j q).1 hq
    have ht' : pool.pc.spans q = some t := (hframe q (.inl ⟨j, hq'⟩) hqp).symm.trans ht
    exact ⟨⟨j, q, t, hq', ht', hm, hb⟩, fun hb' => hqp (h.span_unique hq' hp ht' hs hb hb')⟩
  · intro he
    obtain ⟨⟨j, q, t, hq, ht, hm, hb⟩, hno⟩ := he
    have hqp : q ≠ p := by
      intro he
      subst he
      rw [hs] at ht
      cases ht
      exact hno hb
    exact ⟨j, q, t, (h.mem_left hp j q).2 ⟨hq, hqp⟩, (hframe q (.inl ⟨j, hq⟩) hqp).trans ht, hm, hb⟩

/-- A span that counts no block out has them all in its list. -/
theorem Inv.all_home (h : Inv pool live hand) (hp : p ∈ pool.spanList i) (hs : pool.pc.spans p = some s)
    (hu : s.usedCount = 0) (b : ℕ) : b ∈ pool.blockList p ↔ b ∈ s.blocks := by
  have hf := h.filed_of hp hs
  have hnd : (pool.blockList p).Nodup := by
    have := h.placed.nodup (.span p)
    rwa [blocksAt_span hp] at this
  have hlen : s.blocks.length ≤ (pool.blockList p).length := by
    have := hf.count
    omega
  have hsub : (pool.blockList p).Subperm s.blocks := List.subperm_of_subset hnd fun b hb => hf.blocks b hb
  exact (hsub.perm_of_length_le hlen).mem_iff

/-- So a block anywhere else is not one of its blocks. -/
theorem Inv.elsewhere (h : Inv pool live hand) (hp : p ∈ pool.spanList i) (hs : pool.pc.spans p = some s)
    (hu : s.usedCount = 0) {k : Place τ} (hk : k ≠ .span p) {b : ℕ} (hb : b ∈ pool.blocksAt live hand k) :
    b ∉ s.blocks := by
  intro hb'
  refine hk (h.placed.tiles.unique hb ?_)
  rw [blocksAt_span hp]
  exact (h.all_home hp hs hu b).2 hb'

/-- The allocator is in order without a span that has all its blocks back, once the page
cache has it. -/
theorem Inv.leave (h : Inv pool live hand) (hp : p ∈ pool.spanList i) (hs : pool.pc.spans p = some s)
    (hu : s.usedCount = 0) (hinv : ∃ r', pc'.Inv (fun q => pool.InUse live q ∧ q ≠ p) r' exact)
    (hother : ∀ q, pool.InUse live q → q ≠ p → pc'.spans q = pool.pc.spans q) : Inv (pool.left pc' i p) live hand := by
  obtain ⟨r', hinv⟩ := hinv
  have hcut : ∀ {m b}, (pool.left pc' i p).CutFrom m b ↔ pool.CutFrom m b ∧ b ∉ s.blocks := h.cutFrom_left hp hs hother
  refine ⟨⟨r', hinv.congr (h.inUse_left hp)⟩, fun {j q} hq => ?_, fun j => ?_, ?_,
    fun {t tc j b} htc hb => ?_, fun {b size} hb hsize => ?_, fun {b size} hb hsize => ?_, h.distinct, h.grown⟩
  · obtain ⟨hq', hqp⟩ := (h.mem_left hp j q).1 hq
    obtain ⟨t, ht, hft⟩ := h.filed hq'
    exact ⟨t, (hother q (.inl ⟨j, hq'⟩) hqp).trans ht, hft.congr (Function.update_of_ne hqp ..) fun _ _ => rfl⟩
  · by_cases hj : j = i
    · subst hj
      simp only [left, Function.update_self]
      exact (h.nodup j).erase p
    · simp only [left, Function.update_of_ne hj]
      exact h.nodup j
  · refine h.placed.remove (k := .span p) (fun k hk => ?_) ?_ fun b => ?_
    · cases k with
      | span q =>
        have hqp : q ≠ p := by
          intro he
          subst he
          exact hk rfl
        refine blocksAt_span_congr ?_ (Function.update_of_ne hqp ..)
        rw [h.central_left hp]
        exact and_iff_left hqp
      | live | hand => rfl
      | cache u j => rfl
    · exact blocksAt_not_central fun hc => ((h.central_left hp p).1 hc).2 rfl
    · rw [blocksAt_span hp, h.all_home hp hs hu b, ← exists_and_right]
      exact exists_congr fun m => hcut
  · obtain ⟨m, hc, hidx⟩ := h.cached htc hb
    have htc' : pool.tls t = some tc := htc
    refine ⟨m, hcut.2 ⟨hc, h.elsewhere hp hs hu (k := .cache t j) (fun hk => by cases hk) ?_⟩, hidx⟩
    simpa only [blocksAt, htc', Option.map_some, Option.getD_some] using hb
  · obtain ⟨m, hr, hc⟩ := h.small hb hsize
    refine ⟨m, hr, hcut.2 ⟨hc, h.elsewhere hp hs hu (k := .live) (fun hk => by cases hk) ?_⟩⟩
    simp only [blocksAt, List.mem_map, List.mem_filter]
    exact ⟨(b, size), ⟨hb, by simpa using hsize⟩, rfl⟩
  · obtain ⟨q, t, hl⟩ := h.large hb hsize
    have hqp : q ≠ p := by
      intro he
      subst he
      exact hl.apart ⟨i, hp⟩
    exact ⟨q, t, hl.congr rfl (hother q (.inr ⟨b, size, hb, hsize, hl.origin⟩) hqp)
      fun hq => ((h.central_left hp q).1 hq).1⟩

/-- A span with all its blocks back leaves the central cache for the page
cache. -/
theorem Inv.removeSpan (h : Inv pool live hand) (hp : p ∈ pool.spanList i) (hs : pool.pc.spans p = some s)
    (hu : s.usedCount = 0) (hused : pool.Used (· = p)) (s' : Span) (ha : s'.pageId = s.pageId)
    (hn : s'.npages = s.npages) (hu' : s'.usedCount = 0) :
    ∃ pc', (pool.pc.setSpan p s').releaseToPagecache p true = .ok pc' ∧ Inv (pool.left pc' i p) live hand ∧
      ∀ j q, q ∈ pool.spanList j → q ≠ p → pc'.spans q = pool.pc.spans q := by
  obtain ⟨r, hpc⟩ := h.pages
  have hU : pool.InUse live p := .inl ⟨i, hp⟩
  obtain ⟨pc', r', hrel, hinv, hframe⟩ := releaseToPagecache_spec (hpc.setSpan s' hU hs ha hn) hU
    (setSpan_spans_self ..) hu' (h.busy hused s') true
  have hother : ∀ q, pool.InUse live q → q ≠ p → pc'.spans q = pool.pc.spans q := by
    intro q hq hqp
    rw [hframe q hq hqp, setSpan_spans_of_ne _ _ hqp]
  exact ⟨pc', hrel, h.leave hp hs hu ⟨r', hinv⟩ hother, fun j q hq hqp => hother q (.inl ⟨j, hq⟩) hqp⟩

end

/-! ## Large requests -/

/-- The allocator after the span `p`, which the page cache gave out, went to
the user whole. -/
def handed (pool : Pool τ) (pc' : PageCache) (p : SpanPtr) (s : Span) : Pool τ :=
  { pool with
    pc := pc'.setSpan p { s with usedCount := 1 }
    origin := Function.update pool.origin (s.pageId * 2 ^ PAGESHIFT) (some p) }

section

variable {size n : ℕ} {pc' : PageCache} {p : SpanPtr} {s : Span}

theorem handed_origin {b : ℕ} (hb : b ≠ s.pageId * 2 ^ PAGESHIFT) : (pool.handed pc' p s).origin b = pool.origin b :=
  Function.update_of_ne hb ..

theorem handed_ptr : (pool.handed pc' p s).origin (s.pageId * 2 ^ PAGESHIFT) = some p := Function.update_self ..

/-- The pointer starts on a page of the span. -/
theorem handed_page (hg : Gives pool.pc (pool.InUse live) n pc' p) (hs : pc'.spans p = some s) :
    s.Pages (s.pageId * 2 ^ PAGESHIFT / 2 ^ PAGESHIFT) := by
  obtain ⟨r', hinv⟩ := hg.inv
  obtain ⟨-, hpos, -⟩ := hinv.layout.bound (hinv.on hs (.inl (.inr rfl)))
  rw [Nat.mul_div_cancel _ (by decide)]
  exact ⟨Nat.le_refl _, by omega⟩

/-- It is no pointer the user has. -/
theorem Inv.handed_live (h : Inv pool live hand) (hg : Gives pool.pc (pool.InUse live) n pc' p)
    (hs : pc'.spans p = some s) {b m : ℕ} (hb : (b, m) ∈ live) : b ≠ s.pageId * 2 ^ PAGESHIFT := by
  intro he
  subst he
  exact h.live_far hg hs hb (handed_page hg hs)

/-- It is no block. -/
theorem Inv.handed_cut (h : Inv pool live hand) (hg : Gives pool.pc (pool.InUse live) n pc' p)
    (hs : pc'.spans p = some s) {m b : ℕ} (hb : pool.CutFrom m b) : b ≠ s.pageId * 2 ^ PAGESHIFT := by
  intro he
  subst he
  exact h.cut_far hg hs hb (handed_page hg hs)

theorem cutFrom_handed (hg : Gives pool.pc (pool.InUse live) n pc' p) {m b : ℕ} :
    (pool.handed pc' p s).CutFrom m b ↔ pool.CutFrom m b := by
  refine exists_congr fun j => exists_congr fun q => exists_congr fun t => and_congr_right fun hq => ?_
  have hframe : (pool.handed pc' p s).pc.spans q = pool.pc.spans q := frame_of_gives hg _ (.inl ⟨j, hq⟩)
  rw [hframe]

theorem Inv.inUse_handed (h : Inv pool live hand) (hsize : MAXBYTES < size)
    (hg : Gives pool.pc (pool.InUse live) n pc' p) (hs : pc'.spans p = some s) (q : SpanPtr) :
    (pool.handed pc' p s).InUse ((s.pageId * 2 ^ PAGESHIFT, size) :: live) q ↔ pool.InUse live q ∨ q = p := by
  constructor
  · intro hx
    rcases hx with hq | ⟨b, m, hb, hm, ho⟩
    · exact .inl (.inl hq)
    · rcases List.mem_cons.1 hb with he | hb
      · cases he
        rw [handed_ptr] at ho
        exact .inr (Option.some.inj ho).symm
      · rw [handed_origin (h.handed_live hg hs hb)] at ho
        exact .inl (.inr ⟨b, m, hb, hm, ho⟩)
  · intro hx
    rcases hx with (hq | ⟨b, m, hb, hm, ho⟩) | rfl
    · exact .inl hq
    · exact .inr ⟨b, m, List.mem_cons_of_mem _ hb, hm, (handed_origin (h.handed_live hg hs hb)).trans ho⟩
    · exact .inr ⟨_, size, List.mem_cons_self, hsize, handed_ptr⟩

/-- A new span goes to the user whole. -/
theorem Inv.addLarge (h : Inv pool live hand) (hsize : MAXBYTES < size)
    (hg : Gives pool.pc (pool.InUse live) (largePages size) pc' p) (hs : pc'.spans p = some s)
    (hn : s.npages = largePages size) (hbytes : s.blockSize = s.npages * 2 ^ PAGESHIFT) :
    Inv (pool.handed pc' p s) ((s.pageId * 2 ^ PAGESHIFT, size) :: live) hand ∧
      s.pageId * 2 ^ PAGESHIFT ∉ live.map Prod.fst := by
  obtain ⟨r', hinv⟩ := hg.inv
  have hpages := (hinv.setSpan { s with usedCount := 1 } (.inr rfl) hs rfl rfl).congr (h.inUse_handed hsize hg hs)
  have hnot : s.pageId * 2 ^ PAGESHIFT ∉ live.map Prod.fst := by
    intro hm
    obtain ⟨⟨c, m⟩, hm, hc⟩ := List.mem_map.1 hm
    exact h.handed_live hg hs hm hc
  refine ⟨⟨⟨r', hpages⟩, fun {j q} hq => ?_, h.nodup, ?_, fun htc hb => ?_, fun {b m} hb hm => ?_,
    fun {b m} hb hm => ?_, List.nodup_cons.2 ⟨hnot, h.distinct⟩, h.grown⟩, hnot⟩
  · obtain ⟨t, ht, hf⟩ := h.filed hq
    refine ⟨t, (frame_of_gives hg _ (.inl ⟨j, hq⟩)).trans ht, hf.congr rfl fun b hb => handed_origin ?_⟩
    exact h.handed_cut hg hs ⟨j, q, t, hq, ht, rfl, hb⟩
  · have hat : (pool.handed pc' p s).blocksAt ((s.pageId * 2 ^ PAGESHIFT, size) :: live) hand =
        pool.blocksAt live hand := by
      funext k
      cases k with
      | span q => exact blocksAt_span_congr Iff.rfl rfl
      | cache u j => rfl
      | hand => rfl
      | live =>
        have : ¬ size ≤ MAXBYTES := by omega
        simp [blocksAt, this]
    rw [hat, carved_congr (cutFrom_handed hg)]
    exact h.placed
  · obtain ⟨bytes, hc, hi⟩ := h.cached htc hb
    exact ⟨bytes, (cutFrom_handed hg).2 hc, hi⟩
  · rcases List.mem_cons.1 hb with he | hb
    · cases he
      omega
    · obtain ⟨bytes, hr, hc⟩ := h.small hb hm
      exact ⟨bytes, hr, (cutFrom_handed hg).2 hc⟩
  · rcases List.mem_cons.1 hb with he | hb
    · cases he
      exact ⟨p, _, handed_ptr, setSpan_spans_self .., fun hc => hg.new (.inl hc), rfl, hn, hbytes, rfl⟩
    · obtain ⟨q, t, hl⟩ := h.large hb hm
      have hU : pool.InUse live q := .inr ⟨b, m, hb, hm, hl.origin⟩
      exact ⟨q, t, hl.congr (handed_origin (h.handed_live hg hs hb)) (frame_of_gives hg _ hU) id⟩

end

section

variable {b size : ℕ} {live' : List (ℕ × ℕ)} {p : SpanPtr} {s : Span}

/-- No other pointer has the span of a large request. -/
theorem Inv.large_unique (h : Inv pool live hand) (hperm : live.Perm ((b, size) :: live'))
    (hl : pool.LargeSpan b size p s) {c m : ℕ} (hc : (c, m) ∈ live') (hm : MAXBYTES < m) : pool.origin c ≠ some p := by
  intro ho
  obtain ⟨q, t, hl'⟩ := h.large (hperm.mem_iff.2 (List.mem_cons_of_mem _ hc)) hm
  rw [hl'.origin] at ho
  cases ho
  have ht := hl'.span
  rw [hl.span] at ht
  cases ht
  have hdist := List.nodup_cons.1 ((hperm.map Prod.fst).nodup_iff.1 h.distinct)
  exact hdist.1 (List.mem_map.2 ⟨(c, m), hc, hl'.addr.trans hl.addr.symm⟩)

theorem Inv.inUse_leaveLarge (h : Inv pool live hand) (hperm : live.Perm ((b, size) :: live'))
    (hl : pool.LargeSpan b size p s) (pc' : PageCache) (q : SpanPtr) :
    ({ pool with pc := pc' } : Pool τ).InUse live' q ↔ pool.InUse live q ∧ q ≠ p := by
  constructor
  · intro hx
    rcases hx with ⟨j, hj⟩ | ⟨c, m, hc, hm, ho⟩
    · refine ⟨.inl ⟨j, hj⟩, ?_⟩
      intro hx
      subst hx
      exact hl.apart ⟨j, hj⟩
    · refine ⟨.inr ⟨c, m, hperm.mem_iff.2 (List.mem_cons_of_mem _ hc), hm, ho⟩, ?_⟩
      intro hx
      subst hx
      exact h.large_unique hperm hl hc hm ho
  · intro hx
    obtain ⟨hq | ⟨c, m, hc, hm, ho⟩, hqp⟩ := hx
    · exact .inl hq
    · rcases List.mem_cons.1 (hperm.mem_iff.1 hc) with he | hc
      · cases he
        rw [hl.origin] at ho
        cases ho
        exact absurd rfl hqp
      · exact .inr ⟨c, m, hc, hm, ho⟩

/-- The allocator is in order without the span of a large request, once the page cache
has it. -/
theorem Inv.leaveLarge (h : Inv pool live hand) (hperm : live.Perm ((b, size) :: live')) (hsize : MAXBYTES < size)
    (hl : pool.LargeSpan b size p s) {pc' : PageCache}
    (hinv : ∃ r', pc'.Inv (fun q => pool.InUse live q ∧ q ≠ p) r' exact)
    (hother : ∀ q, pool.InUse live q → q ≠ p → pc'.spans q = pool.pc.spans q) :
    Inv { pool with pc := pc' } live' hand := by
  obtain ⟨r', hinv⟩ := hinv
  have hsub : ∀ {e}, e ∈ live' → e ∈ live := fun he => hperm.mem_iff.2 (List.mem_cons_of_mem _ he)
  have hdist := List.nodup_cons.1 ((hperm.map Prod.fst).nodup_iff.1 h.distinct)
  have hcp : ∀ {j q}, q ∈ pool.spanList j → q ≠ p := by
    intro j q hq hx
    subst hx
    exact hl.apart ⟨j, hq⟩
  have hcut : ∀ {bytes c}, ({ pool with pc := pc' } : Pool τ).CutFrom bytes c ↔ pool.CutFrom bytes c := by
    intro bytes c
    refine exists_congr fun j => exists_congr fun q => exists_congr fun t => and_congr_right fun hq => ?_
    rw [hother q (.inl ⟨j, hq⟩) (hcp hq)]
  refine ⟨⟨r', hinv.congr (h.inUse_leaveLarge hperm hl pc')⟩, fun {j q} hq => ?_, h.nodup, ?_, fun htc hc => ?_,
    fun hc hm => ?_, fun {c m} hc hm => ?_, hdist.2, h.grown⟩
  · obtain ⟨t, ht, hf⟩ := h.filed hq
    exact ⟨t, (hother q (.inl ⟨j, hq⟩) (hcp hq)).trans ht, hf.congr rfl fun _ _ => rfl⟩
  · rw [carved_congr hcut]
    -- Only the order of the user's list may have changed.
    refine h.placed.exchange (k := .live) (l := .hand) nofun (fun k h1 _ => ?_) ?_
    · cases k with
      | span q => exact blocksAt_span_congr Iff.rfl rfl
      | cache u j => rfl
      | hand => rfl
      | live => exact absurd rfl h1
    · have hnot : ¬ size ≤ MAXBYTES := by omega
      have := (hperm.filter fun e => decide (e.2 ≤ MAXBYTES)).map Prod.fst
      simp only [List.filter_cons, hnot, decide_false, Bool.false_eq_true, if_false] at this
      exact this.symm.append_right _
  · obtain ⟨bytes, hcf, hi⟩ := h.cached htc hc
    exact ⟨bytes, hcut.2 hcf, hi⟩
  · obtain ⟨bytes, hr, hcf⟩ := h.small (hsub hc) hm
    exact ⟨bytes, hr, hcut.2 hcf⟩
  · obtain ⟨q, t, hl'⟩ := h.large (hsub hc) hm
    have hqp : q ≠ p := by
      intro hx
      subst hx
      exact h.large_unique hperm hl hc hm hl'.origin
    exact ⟨q, t, hl'.congr rfl (hother q (.inr ⟨c, m, hsub hc, hm, hl'.origin⟩) hqp) id⟩

/-- The span of a large request goes back to the page cache. -/
theorem Inv.removeLarge (h : Inv pool live hand) (hperm : live.Perm ((b, size) :: live')) (hsize : MAXBYTES < size)
    (hl : pool.LargeSpan b size p s) (hused : pool.Used fun _ => False) (ok : Bool) :
    ∃ pc', (pool.pc.setSpan p { s with usedCount := 0 }).releaseToPagecache p ok = .ok pc' ∧
      Inv { pool with pc := pc' } live' hand ∧ ∀ j q, q ∈ pool.spanList j → pc'.spans q = pool.pc.spans q := by
  obtain ⟨r, hpc⟩ := h.pages
  have hU : pool.InUse live p := .inr ⟨b, size, hperm.mem_iff.2 List.mem_cons_self, hsize, hl.origin⟩
  obtain ⟨pc', r', hrel, hinv, hframe⟩ := releaseToPagecache_spec
    (hpc.setSpan { s with usedCount := 0 } hU hl.span rfl rfl) hU (setSpan_spans_self ..) rfl
    (h.busy (hused.mono _) _) ok
  have hother : ∀ q, pool.InUse live q → q ≠ p → pc'.spans q = pool.pc.spans q := by
    intro q hq hqp
    rw [hframe q hq hqp, setSpan_spans_of_ne _ _ hqp]
  refine ⟨pc', hrel, h.leaveLarge hperm hsize hl ⟨r', hinv⟩ hother, fun j q hq => hother q (.inl ⟨j, hq⟩) ?_⟩
  intro hx
  subst hx
  exact hl.apart ⟨j, hq⟩

end

end Pool

end Learncc
