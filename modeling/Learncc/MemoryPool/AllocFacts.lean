/-
What the allocator keeps: every block cut from a span of the central cache is
in exactly one place (the span's own list, a thread's free list of the right
class, or with the user), each span counts the blocks it has out, and the
page map leads from a block to its span.

While an operation runs, the blocks it carries are in a place of their own,
`hand`. The lemmas below move blocks between `hand` and the other places, one
for each place; `Learncc.MemoryPool.AllocSpans` adds and removes spans, and
the operations are put together from both.
-/
import Learncc.Lib.Placement
import Learncc.MemoryPool.Alloc
import Learncc.MemoryPool.PageCacheFacts

namespace Learncc

open SizeClass PageCache

/-! ## The blocks of a span -/

/-- The block starts that fall inside the span. -/
def Span.blocks (s : Span) : List ℕ :=
  (List.range ((s.npages * 2 ^ PAGESHIFT + s.blockSize - 1) / s.blockSize)).map fun i =>
    s.pageId * 2 ^ PAGESHIFT + i * s.blockSize

theorem Span.mem_blocks {s : Span} (h : 0 < s.blockSize) {b : ℕ} (hb : b ∈ s.blocks) :
    ∃ i, b = s.pageId * 2 ^ PAGESHIFT + i * s.blockSize ∧ i * s.blockSize < s.npages * 2 ^ PAGESHIFT := by
  simp only [Span.blocks, List.mem_map, List.mem_range] at hb
  obtain ⟨i, hi, rfl⟩ := hb
  refine ⟨i, rfl, ?_⟩
  have hmul : (i + 1) * s.blockSize ≤ s.npages * 2 ^ PAGESHIFT + s.blockSize - 1 :=
    (Nat.le_div_iff_mul_le h).1 hi
  rw [Nat.succ_mul] at hmul
  omega

/-- A block starts on a page of its span. -/
theorem Span.page_of_block {s : Span} (h : 0 < s.blockSize) {b : ℕ} (hb : b ∈ s.blocks) :
    s.Pages (b / 2 ^ PAGESHIFT) := by
  obtain ⟨i, rfl, hi⟩ := s.mem_blocks h hb
  unfold Span.Pages
  unfold PAGESHIFT at *
  omega

theorem Span.nodup_blocks {s : Span} (h : 0 < s.blockSize) : s.blocks.Nodup := by
  refine List.Nodup.map (fun i j hij => ?_) List.nodup_range
  have : i * s.blockSize = j * s.blockSize := Nat.add_left_cancel hij
  exact Nat.eq_of_mul_eq_mul_right h this

/-- Only one block starts on the bytes of a block. -/
theorem Span.block_unique {s : Span} (h : 0 < s.blockSize) {b c : ℕ} (hb : b ∈ s.blocks) (hc : c ∈ s.blocks)
    (hle : b ≤ c) (hlt : c < b + s.blockSize) : c = b := by
  obtain ⟨k, rfl, -⟩ := s.mem_blocks h hb
  obtain ⟨l, rfl, -⟩ := s.mem_blocks h hc
  obtain rfl : l = k := by
    by_contra hne
    rcases Nat.lt_or_gt_of_ne hne with hless | hless
    · have := Nat.mul_le_mul_right s.blockSize hless
      rw [Nat.succ_mul] at this
      omega
    · have := Nat.mul_le_mul_right s.blockSize hless
      rw [Nat.succ_mul] at this
      omega
  rfl

theorem Span.blocks_ne_nil {s : Span} (h : 0 < s.blockSize) (hn : 0 < s.npages) : s.blocks ≠ [] := by
  have hpos : 0 < (s.npages * 2 ^ PAGESHIFT + s.blockSize - 1) / s.blockSize := by
    apply Nat.div_pos _ h
    have : 0 < s.npages * 2 ^ PAGESHIFT := Nat.mul_pos hn (by decide)
    omega
  intro he
  have := congrArg List.length he
  simp only [Span.blocks, List.length_map, List.length_range, List.length_nil] at this
  omega

/-- The linking loop makes the list of all block starts before the end. -/
theorem Pool.carve_eq {bytes : ℕ} (hb : 0 < bytes) : ∀ (fuel len cur : ℕ), 0 < len → len ≤ fuel →
    carve bytes (cur + len) fuel cur =
      .ok ((List.range ((len + bytes - 1) / bytes)).map fun i => cur + i * bytes) := by
  intro fuel
  induction fuel with
  | zero =>
    intro len cur h0 hle
    omega
  | succ fuel ih =>
    intro len cur h0 hle
    unfold carve
    split
    · have hlen : cur + len = cur + bytes + (len - bytes) := by omega
      have hdiv : (len + bytes - 1) / bytes = (len - bytes + bytes - 1) / bytes + 1 := by
        rw [← Nat.add_div_right _ hb]
        congr 1
        omega
      simp only [bind, Except.bind]
      rw [hlen, ih _ _ (by omega) (by omega), hdiv, List.range_succ_eq_map]
      simp only [List.map_cons, List.map_map, Nat.zero_mul, Nat.add_zero, Except.ok.injEq, List.cons.injEq, true_and]
      refine List.map_congr_left fun i _ => ?_
      simp only [Function.comp_apply, Nat.succ_mul]
      omega
    · have hone : (len + bytes - 1) / bytes = 1 := Nat.div_eq_of_lt_le (by omega) (by omega)
      simp [hone]

namespace Pool

variable {τ : Type}

/-! ## The invariant -/

/-- Where a block can be: in its span's list, in a thread's free list, with
the user, or carried by the operation that runs. -/
inductive Place (τ : Type)
  | span (p : SpanPtr)
  | cache (t : τ) (idx : ℕ)
  | live
  | hand

def Central (pool : Pool τ) (p : SpanPtr) : Prop := ∃ i, p ∈ pool.spanList i

open Classical in
/-- The blocks in a place; `live` are the user's pointers with the sizes
asked for. -/
noncomputable def blocksAt (pool : Pool τ) (live : List (ℕ × ℕ)) (hand : List ℕ) : Place τ → List ℕ
  | .span p => if pool.Central p then pool.blockList p else []
  | .cache t i => ((pool.tls t).map fun tc => (tc i).list).getD []
  | .live => (live.filter fun e => e.2 ≤ MAXBYTES).map Prod.fst
  | .hand => hand

/-- The address was cut from a span of the central cache, as a block of
`bytes` bytes. -/
def CutFrom (pool : Pool τ) (bytes b : ℕ) : Prop :=
  ∃ i p s, p ∈ pool.spanList i ∧ pool.pc.spans p = some s ∧ s.blockSize = bytes ∧ b ∈ s.blocks

/-- A span of list `i` of the central cache. -/
structure Filed (pool : Pool τ) (i : ℕ) (p : SpanPtr) (s : Span) : Prop where
  isClass : IsClass s.blockSize
  idx : classIndex s.blockSize = i
  short : s.npages < NPAGES
  count : s.usedCount + (pool.blockList p).length = s.blocks.length
  blocks : ∀ b ∈ pool.blockList p, b ∈ s.blocks
  origin : ∀ b ∈ s.blocks, pool.origin b = some p

/-- A span behind a pointer the user got for a large request. -/
structure LargeSpan (pool : Pool τ) (b size : ℕ) (p : SpanPtr) (s : Span) : Prop where
  origin : pool.origin b = some p
  span : pool.pc.spans p = some s
  apart : ¬ pool.Central p
  addr : b = s.pageId * 2 ^ PAGESHIFT
  pages : s.npages = largePages size
  bytes : s.blockSize = s.npages * 2 ^ PAGESHIFT
  used : s.usedCount = 1

/-- The spans the page cache has given out. -/
def InUse (pool : Pool τ) (live : List (ℕ × ℕ)) (p : SpanPtr) : Prop :=
  pool.Central p ∨ ∃ b size, (b, size) ∈ live ∧ MAXBYTES < size ∧ pool.origin b = some p

structure Inv (pool : Pool τ) (live : List (ℕ × ℕ)) (hand : List ℕ) : Prop where
  pages : ∃ r, pool.pc.Inv (pool.InUse live) r exact
  filed : ∀ {i p}, p ∈ pool.spanList i → ∃ s, pool.pc.spans p = some s ∧ pool.Filed i p s
  nodup : ∀ i, (pool.spanList i).Nodup
  placed : Placed (pool.blocksAt live hand) fun b => ∃ bytes, pool.CutFrom bytes b
  cached : ∀ {t tc i b}, pool.tls t = some tc → b ∈ (tc i).list → ∃ bytes, pool.CutFrom bytes b ∧ classIndex bytes = i
  small : ∀ {b size}, (b, size) ∈ live → size ≤ MAXBYTES → ∃ bytes, roundUp size = .ok bytes ∧ pool.CutFrom bytes b
  large : ∀ {b size}, (b, size) ∈ live → MAXBYTES < size → ∃ p s, pool.LargeSpan b size p s
  distinct : (live.map Prod.fst).Nodup
  grown : ∀ {t tc} i, pool.tls t = some tc → 0 < (tc i).maxSize

/-- Every span of the central cache but `p` has a block out. -/
def Used (pool : Pool τ) (skip : SpanPtr → Prop) : Prop :=
  ∀ i p s, p ∈ pool.spanList i → ¬ skip p → pool.pc.spans p = some s → 0 < s.usedCount

section

variable {pool : Pool τ} {live : List (ℕ × ℕ)} {hand : List ℕ}

theorem Used.mono (h : pool.Used fun _ => False) (skip : SpanPtr → Prop) : pool.Used skip :=
  fun i p s hp _ hs => h i p s hp (fun hx => hx) hs

theorem Inv.filed_of (h : Inv pool live hand) {i : ℕ} {p : SpanPtr} {s : Span} (hp : p ∈ pool.spanList i)
    (hs : pool.pc.spans p = some s) : pool.Filed i p s := by
  obtain ⟨t, ht, hf⟩ := h.filed hp
  rw [hs] at ht
  cases ht
  exact hf

/-- The map leads from a block to its span. -/
theorem Inv.blockToSpan_block (h : Inv pool live hand) {i : ℕ} {p : SpanPtr} {s : Span} (hp : p ∈ pool.spanList i)
    (hs : pool.pc.spans p = some s) {b : ℕ} (hb : b ∈ s.blocks) : pool.pc.blockToSpan b = .ok p := by
  obtain ⟨r, hpc⟩ := h.pages
  have hf := h.filed_of hp hs
  have hpage := s.page_of_block hf.isClass.pos hb
  have hr := hpc.on hs (.inl (.inl ⟨i, hp⟩))
  have hm := (hpc.layout.found (b / 2 ^ PAGESHIFT) p (fun hx => hx)).2
    ((Intervals.finds_of_eq hr).2 ⟨hpage.1, hpage.2, .inl hf.short⟩)
  simp only [blockToSpan, hm]

/-- The map leads from the start of a large span to the span. -/
theorem Inv.blockToSpan_large (h : Inv pool live hand) {b size : ℕ} (hb : (b, size) ∈ live) (hsize : MAXBYTES < size)
    {p : SpanPtr} {s : Span} (hl : pool.LargeSpan b size p s) : pool.pc.blockToSpan b = .ok p := by
  obtain ⟨r, hpc⟩ := h.pages
  have hr := hpc.on hl.span (.inl (.inr ⟨b, size, hb, hsize, hl.origin⟩))
  obtain ⟨-, hpos, -⟩ := hpc.layout.bound hr
  have hpage : b / 2 ^ PAGESHIFT = s.pageId := by
    rw [hl.addr, Nat.mul_div_cancel _ (by decide)]
  have hm := (hpc.layout.found s.pageId p (fun hx => hx)).2
    ((Intervals.finds_of_eq hr).2 ⟨Nat.le_refl _, by omega, .inr rfl⟩)
  simp only [blockToSpan, hpage, hm]

/-- An address is a block of one span only. -/
theorem Inv.span_unique (h : Inv pool live hand) {i j : ℕ} {p q : SpanPtr} {s t : Span} (hp : p ∈ pool.spanList i)
    (hq : q ∈ pool.spanList j) (hs : pool.pc.spans p = some s) (ht : pool.pc.spans q = some t) {b : ℕ}
    (hb : b ∈ s.blocks) (hb' : b ∈ t.blocks) : p = q := by
  have h1 := h.blockToSpan_block hp hs hb
  rw [h.blockToSpan_block hq ht hb'] at h1
  exact (Except.ok.inj h1).symm

/-- The lists of the central cache share no span. -/
theorem Inv.list_unique (h : Inv pool live hand) {i j : ℕ} {p : SpanPtr} (hi : p ∈ pool.spanList i)
    (hj : p ∈ pool.spanList j) : i = j := by
  obtain ⟨s, hs, hf⟩ := h.filed hi
  exact hf.idx.symm.trans (h.filed_of hj hs).idx

theorem Inv.cutFrom_iff (h : Inv pool live hand) {bytes b : ℕ} :
    pool.CutFrom bytes b ↔ ∃ p s, p ∈ pool.spanList (classIndex bytes) ∧ pool.pc.spans p = some s ∧
      s.blockSize = bytes ∧ b ∈ s.blocks := by
  constructor
  · intro he
    obtain ⟨i, p, s, hp, hs, rfl, hb⟩ := he
    rw [(h.filed_of hp hs).idx]
    exact ⟨p, s, hp, hs, rfl, hb⟩
  · intro he
    obtain ⟨p, s, hp, hs, rfl, hb⟩ := he
    exact ⟨_, p, s, hp, hs, rfl, hb⟩

/-- What matters about a span of the central cache is the span, its free
blocks, and where its blocks are recorded to come from. -/
theorem Filed.congr {pool' : Pool τ} {i : ℕ} {p : SpanPtr} {s : Span} (h : pool.Filed i p s)
    (hl : pool'.blockList p = pool.blockList p) (ho : ∀ b ∈ s.blocks, pool'.origin b = pool.origin b) :
    pool'.Filed i p s :=
  ⟨h.isClass, h.idx, h.short, hl ▸ h.count, hl ▸ h.blocks, fun b hb => (ho b hb).trans (h.origin b hb)⟩

theorem LargeSpan.congr {pool' : Pool τ} {b size : ℕ} {p : SpanPtr} {s : Span} (h : pool.LargeSpan b size p s)
    (ho : pool'.origin b = pool.origin b) (hs : pool'.pc.spans p = pool.pc.spans p)
    (hc : pool'.Central p → pool.Central p) : pool'.LargeSpan b size p s :=
  ⟨ho.trans h.origin, hs.trans h.span, fun hp => h.apart (hc hp), h.addr, h.pages, h.bytes, h.used⟩

theorem carved_congr {pool' : Pool τ} (hcut : ∀ {bytes b}, pool'.CutFrom bytes b ↔ pool.CutFrom bytes b) :
    (fun b => ∃ bytes, pool'.CutFrom bytes b) = fun b => ∃ bytes, pool.CutFrom bytes b :=
  funext fun _ => propext (exists_congr fun _ => hcut)

/-! ## Moving blocks -/

theorem blocksAt_span {i : ℕ} {p : SpanPtr} (hp : p ∈ pool.spanList i) :
    pool.blocksAt live hand (.span p) = pool.blockList p := by
  have hc : pool.Central p := ⟨i, hp⟩
  simp only [blocksAt, if_pos hc]

theorem blocksAt_not_central {p : SpanPtr} (hp : ¬ pool.Central p) : pool.blocksAt live hand (.span p) = [] := by
  simp only [blocksAt, if_neg hp]

theorem blocksAt_span_congr {pool' : Pool τ} {live' : List (ℕ × ℕ)} {hand' : List ℕ} {p : SpanPtr}
    (hc : pool'.Central p ↔ pool.Central p) (hl : pool'.blockList p = pool.blockList p) :
    pool'.blocksAt live' hand' (.span p) = pool.blocksAt live hand (.span p) := by
  by_cases hp : pool.Central p
  · simp only [blocksAt, if_pos hp, if_pos (hc.2 hp), hl]
  · rw [blocksAt_not_central hp, blocksAt_not_central fun hp' => hp (hc.1 hp')]

/-- The span `p` has the free blocks `l` and counts `u`. -/
def setBlocks (pool : Pool τ) (p : SpanPtr) (s : Span) (l : List ℕ) (u : ℕ) : Pool τ :=
  { pool with pc := pool.pc.setSpan p { s with usedCount := u }, blockList := Function.update pool.blockList p l }

/-- The blocks of a span do not depend on which of them it still has. -/
theorem cutFrom_setBlocks {p : SpanPtr} {s : Span} (hs : pool.pc.spans p = some s) (l : List ℕ) (u : ℕ) {bytes b : ℕ} :
    (pool.setBlocks p s l u).CutFrom bytes b ↔ pool.CutFrom bytes b := by
  constructor
  · intro he
    obtain ⟨j, q, t, hq, ht, hbytes, hb⟩ := he
    by_cases hqp : q = p
    · subst hqp
      rw [setBlocks, setSpan_spans_self] at ht
      cases ht
      exact ⟨j, q, s, hq, hs, hbytes, hb⟩
    · rw [setBlocks, setSpan_spans_of_ne _ _ hqp] at ht
      exact ⟨j, q, t, hq, ht, hbytes, hb⟩
  · intro he
    obtain ⟨j, q, t, hq, ht, hbytes, hb⟩ := he
    by_cases hqp : q = p
    · subst hqp
      rw [hs] at ht
      cases ht
      exact ⟨j, q, _, hq, setSpan_spans_self .., hbytes, hb⟩
    · exact ⟨j, q, t, hq, (setSpan_spans_of_ne _ _ hqp).trans ht, hbytes, hb⟩

/-- Blocks move between a span and the hand; the span's count follows. -/
theorem Inv.setBlocks (h : Inv pool live hand) {i : ℕ} {p : SpanPtr} {s : Span} (hp : p ∈ pool.spanList i)
    (hs : pool.pc.spans p = some s) (l hand' : List ℕ) (u : ℕ) (hperm : (l ++ hand').Perm (pool.blockList p ++ hand))
    (hl : ∀ b ∈ l, b ∈ s.blocks) (hcount : u + l.length = s.blocks.length) :
    Inv (pool.setBlocks p s l u) live hand' := by
  let pool' := pool.setBlocks p s l u
  have hself : pool'.pc.spans p = some { s with usedCount := u } := setSpan_spans_self ..
  have hother : ∀ q, q ≠ p → pool'.pc.spans q = pool.pc.spans q := fun q hq => setSpan_spans_of_ne _ _ hq
  have hlist : pool'.blockList p = l := Function.update_self ..
  have hlists : ∀ q, q ≠ p → pool'.blockList q = pool.blockList q := fun q hq => Function.update_of_ne hq ..
  have hf := h.filed_of hp hs
  have hcut : ∀ {bytes b}, pool'.CutFrom bytes b ↔ pool.CutFrom bytes b := cutFrom_setBlocks hs l u
  obtain ⟨r, hpc⟩ := h.pages
  refine ⟨⟨r, hpc.setSpan _ (.inl ⟨i, hp⟩) hs rfl rfl⟩, fun {j q} hq => ?_, h.nodup, ?_, fun htc hb => ?_,
    fun hb hsize => ?_, fun {b size} hb hsize => ?_, h.distinct, h.grown⟩
  · by_cases hqp : q = p
    · subst hqp
      have hfj := h.filed_of hq hs
      exact ⟨_, hself, hfj.isClass, hfj.idx, hfj.short, hlist.symm ▸ hcount, hlist.symm ▸ hl, hfj.origin⟩
    · obtain ⟨t, ht, hft⟩ := h.filed hq
      exact ⟨t, (hother q hqp).trans ht, hft.congr (hlists q hqp) fun _ _ => rfl⟩
  · rw [carved_congr hcut]
    refine h.placed.exchange (k := .span p) (l := .hand) nofun (fun k h1 h2 => ?_) ?_
    · cases k with
      | span q =>
        have hqp : q ≠ p := by
          intro he
          subst he
          exact h1 rfl
        exact blocksAt_span_congr Iff.rfl (hlists q hqp)
      | hand => exact absurd rfl h2
      | cache t j => rfl
      | live => rfl
    · show (pool'.blocksAt live hand' (.span p) ++ hand').Perm (pool.blocksAt live hand (.span p) ++ hand)
      rw [@blocksAt_span τ pool' live hand' i p hp, blocksAt_span hp, hlist]
      exact hperm
  · obtain ⟨bytes, hc, hi⟩ := h.cached htc hb
    exact ⟨bytes, hcut.2 hc, hi⟩
  · obtain ⟨bytes, hr, hc⟩ := h.small hb hsize
    exact ⟨bytes, hr, hcut.2 hc⟩
  · obtain ⟨q, t, hlarge⟩ := h.large hb hsize
    have hqp : q ≠ p := by
      intro he
      subst he
      exact hlarge.apart ⟨i, hp⟩
    exact ⟨q, t, hlarge.congr rfl (hother q hqp) id⟩

/-- Blocks move between a thread's free list and the hand. -/
theorem Inv.setFreeList [DecidableEq τ] (h : Inv pool live hand) {t : τ} {tc : ThreadCache} {i : ℕ}
    (htc : pool.tls t = some tc) (f : FreeList) (hand' : List ℕ) (hperm : (f.list ++ hand').Perm ((tc i).list ++ hand))
    (hf : ∀ b ∈ f.list, ∃ bytes, pool.CutFrom bytes b ∧ classIndex bytes = i) (hmax : 0 < f.maxSize) :
    ∃ pool', pool.setFreeList t i f = .ok pool' ∧ Inv pool' live hand' ∧ pool'.pc = pool.pc ∧
      pool'.spanList = pool.spanList ∧ pool'.origin = pool.origin ∧ pool'.tls t = some (Function.update tc i f) ∧
      ∀ u, u ≠ t → pool'.tls u = pool.tls u := by
  let pool' : Pool τ := { pool with tls := Function.update pool.tls t (some (Function.update tc i f)) }
  have hself : pool'.tls t = some (Function.update tc i f) := Function.update_self ..
  have hother : ∀ u, u ≠ t → pool'.tls u = pool.tls u := fun u hu => Function.update_of_ne hu ..
  have hset : pool.setFreeList t i f = .ok pool' := by
    simp only [Pool.setFreeList, cacheOf, htc, bind, Except.bind]
    rfl
  refine ⟨pool', hset, ?_, rfl, rfl, rfl, hself, hother⟩
  refine ⟨h.pages, fun hq => ?_, h.nodup, ?_, fun {u uc j b} huc hb => ?_, h.small, fun hb hsize => ?_, h.distinct,
    fun {u uc} j huc => ?_⟩
  · obtain ⟨s, hs, hfs⟩ := h.filed hq
    exact ⟨s, hs, hfs.congr rfl fun _ _ => rfl⟩
  · refine h.placed.exchange (k := .cache t i) (l := .hand) nofun (fun k h1 h2 => ?_) ?_
    · cases k with
      | span q => exact blocksAt_span_congr Iff.rfl rfl
      | hand => exact absurd rfl h2
      | live => rfl
      | cache u j =>
        by_cases hu : u = t
        · subst hu
          have hj : j ≠ i := by
            intro he
            subst he
            exact h1 rfl
          simp only [blocksAt, hself, htc, Option.map_some, Option.getD_some, Function.update_of_ne hj]
        · simp only [blocksAt, hother u hu]
    · simp only [blocksAt, hself, htc, Option.map_some, Option.getD_some, Function.update_self]
      exact hperm
  · by_cases hu : u = t
    · subst hu
      rw [hself] at huc
      cases huc
      by_cases hj : j = i
      · subst hj
        rw [Function.update_self] at hb
        exact hf b hb
      · rw [Function.update_of_ne hj] at hb
        exact h.cached htc hb
    · rw [hother u hu] at huc
      exact h.cached huc hb
  · obtain ⟨q, s, hl⟩ := h.large hb hsize
    exact ⟨q, s, hl.congr rfl rfl id⟩
  · by_cases hu : u = t
    · subst hu
      rw [hself] at huc
      cases huc
      by_cases hj : j = i
      · subst hj
        rw [Function.update_self]
        exact hmax
      · rw [Function.update_of_ne hj]
        exact h.grown j htc
    · rw [hother u hu] at huc
      exact h.grown j huc

/-- No block is the pointer of a large request. -/
theorem Inv.cut_ne_large (h : Inv pool live hand) {bytes b size : ℕ} (hc : pool.CutFrom bytes b)
    (hb : (b, size) ∈ live) : size ≤ MAXBYTES := by
  by_contra hsize
  obtain ⟨p, s, hl⟩ := h.large hb (by omega)
  obtain ⟨i, q, t, hq, ht, -, hbt⟩ := hc
  have h1 := h.blockToSpan_large hb (by omega) hl
  rw [h.blockToSpan_block hq ht hbt] at h1
  cases h1
  exact hl.apart ⟨i, hq⟩

/-- A block in the hand goes to the user. -/
theorem Inv.toLive (h : Inv pool live hand) {b size bytes : ℕ} {hand' : List ℕ} (hh : hand = b :: hand')
    (hsize : size ≤ MAXBYTES) (hr : roundUp size = .ok bytes) (hc : pool.CutFrom bytes b) :
    Inv pool ((b, size) :: live) hand' ∧ b ∉ live.map Prod.fst := by
  subst hh
  have hnot : b ∉ live.map Prod.fst := by
    intro hb
    obtain ⟨⟨c, n⟩, hm, rfl⟩ := List.mem_map.1 hb
    have hn := h.cut_ne_large hc hm
    have hlive : c ∈ pool.blocksAt live (c :: hand') .live := by
      simp only [blocksAt, List.mem_map, List.mem_filter]
      exact ⟨(c, n), ⟨hm, by simpa using hn⟩, rfl⟩
    have hhand : c ∈ pool.blocksAt live (c :: hand') .hand := List.mem_cons_self
    cases h.placed.tiles.unique hlive hhand
  refine ⟨⟨?_, h.filed, h.nodup, ?_, h.cached, fun hb hs => ?_, fun hb hs => ?_, ?_, h.grown⟩, hnot⟩
  · obtain ⟨r, hpc⟩ := h.pages
    refine ⟨r, hpc.congr fun q => or_congr Iff.rfl ?_⟩
    constructor
    · intro hx
      obtain ⟨c, n, hm, hn, ho⟩ := hx
      rcases List.mem_cons.1 hm with he | hm
      · cases he
        omega
      · exact ⟨c, n, hm, hn, ho⟩
    · intro hx
      obtain ⟨c, n, hm, hn, ho⟩ := hx
      exact ⟨c, n, List.mem_cons_of_mem _ hm, hn, ho⟩
  · refine h.placed.exchange (k := .live) (l := .hand) nofun (fun k h1 h2 => ?_) ?_
    · cases k with
      | span q => exact blocksAt_span_congr Iff.rfl rfl
      | cache t j => rfl
      | live => exact absurd rfl h1
      | hand => exact absurd rfl h2
    · simp only [blocksAt, List.filter_cons, hsize, decide_true, if_true, List.map_cons, List.cons_append]
      exact List.perm_middle.symm
  · rcases List.mem_cons.1 hb with he | hb
    · cases he
      exact ⟨bytes, hr, hc⟩
    · exact h.small hb hs
  · rcases List.mem_cons.1 hb with he | hb
    · cases he
      omega
    · exact h.large hb hs
  · exact List.nodup_cons.2 ⟨hnot, h.distinct⟩

/-- A small block comes back from the user. -/
theorem Inv.fromLive (h : Inv pool live hand) {b size : ℕ} {live' : List (ℕ × ℕ)}
    (hperm : live.Perm ((b, size) :: live')) (hsize : size ≤ MAXBYTES) : Inv pool live' (b :: hand) := by
  have hsub : ∀ {e}, e ∈ live' → e ∈ live := fun he => hperm.mem_iff.2 (List.mem_cons_of_mem _ he)
  refine ⟨?_, h.filed, h.nodup, ?_, h.cached, fun hb hs => h.small (hsub hb) hs, fun hb hs => h.large (hsub hb) hs, ?_,
    h.grown⟩
  · obtain ⟨r, hpc⟩ := h.pages
    refine ⟨r, hpc.congr fun q => or_congr Iff.rfl ?_⟩
    constructor
    · intro hx
      obtain ⟨c, n, hm, hn, ho⟩ := hx
      exact ⟨c, n, hsub hm, hn, ho⟩
    · intro hx
      obtain ⟨c, n, hm, hn, ho⟩ := hx
      rcases List.mem_cons.1 (hperm.mem_iff.1 hm) with he | hm
      · cases he
        omega
      · exact ⟨c, n, hm, hn, ho⟩
  · refine h.placed.exchange (k := .live) (l := .hand) nofun (fun k h1 h2 => ?_) ?_
    · cases k with
      | span q => exact blocksAt_span_congr Iff.rfl rfl
      | cache t j => rfl
      | live => exact absurd rfl h1
      | hand => exact absurd rfl h2
    · have hl : (pool.blocksAt live hand .live).Perm (b :: pool.blocksAt live' (b :: hand) .live) := by
        have := (hperm.filter fun e => decide (e.2 ≤ MAXBYTES)).map Prod.fst
        simpa [blocksAt, List.filter_cons, hsize] using this
      refine List.Perm.trans ?_ (hl.symm.append_right _)
      rw [List.cons_append]
      exact List.perm_middle
  · exact (List.nodup_cons.1 ((hperm.map Prod.fst).nodup_iff.1 h.distinct)).2

/-- A thread gets its cache. -/
theorem Inv.ensureCache [DecidableEq τ] (h : Inv pool live hand) (t : τ) :
    Inv (pool.ensureCache t) live hand ∧ (∃ tc, (pool.ensureCache t).tls t = some tc) ∧
      (pool.ensureCache t).pc = pool.pc ∧ (pool.ensureCache t).spanList = pool.spanList ∧
      (pool.ensureCache t).origin = pool.origin ∧ ∀ u, (pool.tls u).isSome → ((pool.ensureCache t).tls u).isSome := by
  unfold Pool.ensureCache
  split
  · rename_i tc htc
    exact ⟨h, ⟨tc, htc⟩, rfl, rfl, rfl, fun _ hu => hu⟩
  · rename_i htc
    let pool' : Pool τ := { pool with tls := Function.update pool.tls t (some ThreadCache.new) }
    have hself : pool'.tls t = some ThreadCache.new := Function.update_self ..
    have hother : ∀ u, u ≠ t → pool'.tls u = pool.tls u := fun u hu => Function.update_of_ne hu ..
    refine ⟨⟨h.pages, fun hq => ?_, h.nodup, ?_, fun {u uc j b} huc hb => ?_, h.small, fun hb hsize => ?_,
      h.distinct, fun {u uc} j huc => ?_⟩, ⟨_, hself⟩, rfl, rfl, rfl, fun u hu => ?_⟩
    · obtain ⟨s, hs, hfs⟩ := h.filed hq
      exact ⟨s, hs, hfs.congr rfl fun _ _ => rfl⟩
    · have hat : pool'.blocksAt live hand = pool.blocksAt live hand := by
        funext k
        cases k with
        | span q => exact blocksAt_span_congr Iff.rfl rfl
        | live => rfl
        | hand => rfl
        | cache u j =>
          by_cases hu : u = t
          · subst hu
            simp only [blocksAt, hself, htc, Option.map_some, Option.map_none, Option.getD_some, Option.getD_none]
            rfl
          · simp only [blocksAt, hother u hu]
      show Placed (pool'.blocksAt live hand) fun b => ∃ bytes, pool.CutFrom bytes b
      rw [hat]
      exact h.placed
    · by_cases hu : u = t
      · subst hu
        rw [hself] at huc
        cases huc
        cases hb
      · rw [hother u hu] at huc
        exact h.cached huc hb
    · obtain ⟨q, s, hl⟩ := h.large hb hsize
      exact ⟨q, s, hl.congr rfl rfl id⟩
    · by_cases hu : u = t
      · subst hu
        rw [hself] at huc
        cases huc
        exact Nat.one_pos
      · rw [hother u hu] at huc
        exact h.grown j huc
    · by_cases hut : u = t
      · subst hut
        exact Option.isSome_iff_exists.2 ⟨_, hself⟩
      · exact (hother u hut).symm ▸ hu

theorem mem_reorder {i : ℕ} {l : List SpanPtr} (hl : l.Perm (pool.spanList i)) (j : ℕ) (q : SpanPtr) :
    q ∈ Function.update pool.spanList i l j ↔ q ∈ pool.spanList j := by
  by_cases hj : j = i
  · subst hj
    rw [Function.update_self]
    exact hl.mem_iff
  · rw [Function.update_of_ne hj]

/-- A list of the central cache is put in another order. -/
theorem Inv.reorder (h : Inv pool live hand) {i : ℕ} {l : List SpanPtr} (hl : l.Perm (pool.spanList i)) :
    Inv { pool with spanList := Function.update pool.spanList i l } live hand := by
  let pool' : Pool τ := { pool with spanList := Function.update pool.spanList i l }
  have hmem : ∀ j q, q ∈ pool'.spanList j ↔ q ∈ pool.spanList j := mem_reorder hl
  have hcentral : ∀ q, pool'.Central q ↔ pool.Central q := fun q => exists_congr fun j => hmem j q
  have hcut : ∀ {bytes b}, pool'.CutFrom bytes b ↔ pool.CutFrom bytes b := by
    intro bytes b
    exact exists_congr fun j => exists_congr fun q => exists_congr fun s => and_congr_left fun _ => hmem j q
  refine ⟨?_, fun {j q} hq => ?_, fun j => ?_, ?_, fun htc hb => ?_, fun hb hs => ?_, fun hb hs => ?_, h.distinct,
    h.grown⟩
  · obtain ⟨r, hpc⟩ := h.pages
    exact ⟨r, hpc.congr fun q => or_congr_left (hcentral q)⟩
  · obtain ⟨s, hs, hf⟩ := h.filed ((hmem j q).1 hq)
    exact ⟨s, hs, hf.congr rfl fun _ _ => rfl⟩
  · by_cases hj : j = i
    · subst hj
      simp only [Function.update_self]
      exact hl.nodup_iff.2 (h.nodup j)
    · simp only [Function.update_of_ne hj]
      exact h.nodup j
  · have hat : pool'.blocksAt live hand = pool.blocksAt live hand := by
      funext k
      cases k with
      | span q => exact blocksAt_span_congr (hcentral q) rfl
      | live | hand => rfl
      | cache u j => rfl
    show Placed (pool'.blocksAt live hand) fun b => ∃ bytes, pool'.CutFrom bytes b
    rw [hat, carved_congr hcut]
    exact h.placed
  · obtain ⟨bytes, hc, hi⟩ := h.cached htc hb
    exact ⟨bytes, hcut.2 hc, hi⟩
  · obtain ⟨bytes, hr, hc⟩ := h.small hb hs
    exact ⟨bytes, hr, hcut.2 hc⟩
  · obtain ⟨q, s, hlarge⟩ := h.large hb hs
    exact ⟨q, s, hlarge.congr rfl rfl (hcentral q).1⟩

end

end Pool

end Learncc
