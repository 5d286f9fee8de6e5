/-
The allocator in its memory against the one whose chains are lists: `Holds`
says that each chain is linked through the memory as the list has it.

As long as the lists are in order, a word that is the first of no free block
may hold anything (`Holds.update`), and the functions of the central cache do
the same on both sides.
-/
import Learncc.Lib.Matches
import Learncc.MemoryPool.AllocOps
import Learncc.MemoryPool.Carving
import Learncc.MemoryPool.InMemory

namespace Learncc

open SizeClass PageCache

theorem SizeClass.IsClass.mod_eight {bytes : ℕ} (h : IsClass bytes) : bytes % 8 = 0 := by
  have hal := h.aligned
  split_ifs at hal <;> omega

/-! ## Where the free blocks are -/

namespace Pool

variable {τ : Type} {pool : Pool τ} {live : List (ℕ × ℕ)} {hand : List ℕ}

/-- No free block starts at the address. -/
structure Unchained (pool : Pool τ) (b : ℕ) : Prop where
  span : ∀ {p}, pool.Central p → b ∉ pool.blockList p
  cache : ∀ {t tc}, pool.tls t = some tc → ∀ i, b ∉ (tc i).list

theorem mem_span {p : SpanPtr} (hp : pool.Central p) {b : ℕ} (hb : b ∈ pool.blockList p) :
    b ∈ pool.blocksAt live hand (.span p) := by
  obtain ⟨i, hi⟩ := hp
  rwa [blocksAt_span hi]

theorem mem_cache {t : τ} {tc : ThreadCache} (htc : pool.tls t = some tc) {i b : ℕ} (hb : b ∈ (tc i).list) :
    b ∈ pool.blocksAt live hand (.cache t i) := by
  simpa only [blocksAt, htc, Option.map_some, Option.getD_some] using hb

/-- A block that is carried is in no chain. -/
theorem Inv.unchained_of_hand (h : Inv pool live hand) {b : ℕ} (hb : b ∈ hand) : pool.Unchained b := by
  refine ⟨fun hp hc => ?_, fun htc i hc => ?_⟩
  · cases h.placed.tiles.unique (k := .hand) hb (mem_span hp hc)
  · cases h.placed.tiles.unique (k := .hand) hb (mem_cache htc hc)

/-- Nor is a small block the user has. -/
theorem Inv.unchained_of_live (h : Inv pool live hand) {b size : ℕ} (hb : (b, size) ∈ live) (hsize : size ≤ MAXBYTES) :
    pool.Unchained b := by
  have hmem : b ∈ pool.blocksAt live hand .live :=
    List.mem_map.2 ⟨(b, size), List.mem_filter.2 ⟨hb, by simpa using hsize⟩, rfl⟩
  refine ⟨fun hp hc => ?_, fun htc i hc => ?_⟩
  · cases h.placed.tiles.unique hmem (mem_span hp hc)
  · cases h.placed.tiles.unique hmem (mem_cache htc hc)

/-- Nor is what no span was cut into. -/
theorem Inv.unchained_of_uncut (h : Inv pool live hand) {b : ℕ} (hb : ∀ bytes, ¬ pool.CutFrom bytes b) :
    pool.Unchained b := by
  refine ⟨fun hp hc => ?_, fun htc i hc => ?_⟩
  · obtain ⟨bytes, hcut⟩ := h.placed.mem (mem_span hp hc)
    exact hb bytes hcut
  · obtain ⟨bytes, hcut⟩ := h.placed.mem (mem_cache htc hc)
    exact hb bytes hcut

/-- A block starts at a word of the memory. -/
theorem Inv.cut_accessible (h : Inv pool live hand) {bytes b : ℕ} (hb : pool.CutFrom bytes b) :
    b % 8 = 0 ∧ pool.pc.mapped (b / 2 ^ PAGESHIFT) = true := by
  obtain ⟨i, p, s, hp, hs, -, hbs⟩ := hb
  have hc := (h.filed_of hp hs).isClass
  obtain ⟨r, hpc⟩ := h.pages
  constructor
  · obtain ⟨j, rfl, -⟩ := s.mem_blocks hc.pos hbs
    have hmul : j * s.blockSize % 8 = 0 := by rw [Nat.mul_mod, hc.mod_eight, Nat.mul_zero, Nat.zero_mod]
    unfold PAGESHIFT
    omega
  · refine hpc.mapped _ ((hpc.layout.tiles.cover _).2 ⟨p, s.pageId, s.npages, ?_, s.page_of_block hc.pos hbs⟩)
    exact hpc.on hs (.inl (.inl ⟨i, hp⟩))

/-- No block starts at the null pointer. -/
theorem Inv.cut_ne_zero (h : Inv pool live hand) {bytes b : ℕ} (hb : pool.CutFrom bytes b) : b ≠ 0 := by
  obtain ⟨i, p, s, hp, hs, -, hbs⟩ := hb
  obtain ⟨r, hpc⟩ := h.pages
  have hlow := (hpc.layout.bound (hpc.on hs (.inl (.inl ⟨i, hp⟩)))).1
  obtain ⟨hpage, -⟩ := s.page_of_block (h.filed_of hp hs).isClass.pos hbs
  rintro rfl
  unfold PAGESHIFT at hpage
  omega

end Pool

namespace InMemory

/-- The chain in memory is the list, and the counters are the same. -/
structure Files (word : ℕ → ℕ) (f : FreeList) (a : Learncc.FreeList) : Prop where
  list : Linked word f.list a.list
  size : f.size = a.size
  maxSize : f.maxSize = a.maxSize

/-- Both limits grow when all that is let was fetched. -/
theorem Files.grow {word : ℕ → ℕ} {f : FreeList} {a : Learncc.FreeList} (h : Files word f a) (num : ℕ) :
    Files word (if num = f.maxSize then { f with maxSize := num + 1 } else f)
      (if num = a.maxSize then { a with maxSize := num + 1 } else a) := by
  rw [h.maxSize]
  split
  · exact ⟨h.list, h.size, rfl⟩
  · exact h

namespace Pool

variable {τ : Type} {pool : Pool τ} {a : Learncc.Pool τ} {live : List (ℕ × ℕ)} {hand : List ℕ}

/-- The memory holds the chains of `a`, and all else is the same. -/
structure Holds (pool : Pool τ) (a : Learncc.Pool τ) : Prop where
  pc : pool.pc = a.pc
  spanList : pool.spanList = a.spanList
  origin : pool.origin = a.origin
  span : ∀ {p}, a.Central p → Linked pool.word (pool.blockList p) (a.blockList p)
  cache : ∀ {t ac}, a.tls t = some ac → ∃ tc, pool.tls t = some tc ∧ ∀ i, Files pool.word (tc i) (ac i)
  uncached : ∀ {t}, a.tls t = none → pool.tls t = none

/-- Only the first words of the free blocks matter. -/
theorem Holds.reword (h : Holds pool a) {word : ℕ → ℕ} (hword : ∀ b, ¬ a.Unchained b → word b = pool.word b) :
    Holds { pool with word } a := by
  refine ⟨h.pc, h.spanList, h.origin, fun {p} hp => ?_, fun {t ac} hac => ?_, h.uncached⟩
  · exact (h.span hp).congr fun b hb => hword b fun hu => hu.span hp hb
  · obtain ⟨tc, htc, hfiles⟩ := h.cache hac
    refine ⟨tc, htc, fun i => ⟨?_, (hfiles i).size, (hfiles i).maxSize⟩⟩
    exact (hfiles i).list.congr fun b hb => hword b fun hu => hu.cache hac i hb

theorem Holds.update (h : Holds pool a) {b : ℕ} (hb : a.Unchained b) (v : ℕ) :
    Holds { pool with word := Function.update pool.word b v } a := by
  refine h.reword fun c hc => Function.update_of_ne ?_ _ _
  intro he
  exact hc (he ▸ hb)

theorem setNextBlock_eq {ptr next : ℕ} (h : pool.Accessible ptr) :
    pool.setNextBlock ptr next = .ok { pool with word := Function.update pool.word ptr next } := if_pos h

theorem nextBlock_eq {ptr : ℕ} (h : pool.Accessible ptr) : pool.nextBlock ptr = .ok (pool.word ptr) := if_pos h

theorem Holds.accessible (h : Holds pool a) (hinv : a.Inv live hand) {bytes b : ℕ} (hb : a.CutFrom bytes b) :
    pool.Accessible b := by
  unfold Accessible
  rw [h.pc]
  exact hinv.cut_accessible hb

/-- So is every block the caches or the hand have. -/
theorem Holds.accessible_at (h : Holds pool a) (hinv : a.Inv live hand) {k : Learncc.Pool.Place τ} {b : ℕ}
    (hb : b ∈ a.blocksAt live hand k) : pool.Accessible b := by
  obtain ⟨bytes, hcut⟩ := hinv.placed.mem hb
  exact h.accessible hinv hcut

/-- A span of the central cache gets another chain; no word but its own
blocks' and the unchained ones was written. -/
theorem Holds.setBlocks (h : Holds pool a) (hinv : a.Inv live hand) {p : SpanPtr} (hp : a.Central p) (s : Span)
    {word : ℕ → ℕ} {head : ℕ} {l : List ℕ} (hchain : Linked word head l)
    (hword : ∀ b, word b ≠ pool.word b → b ∈ a.blockList p ∨ a.Unchained b) (u : ℕ) :
    Holds { pool with
      pc := pool.pc.setSpan p { s with usedCount := u }
      word
      blockList := Function.update pool.blockList p head } (a.setBlocks p s l u) := by
  refine ⟨by rw [h.pc]; rfl, h.spanList, h.origin, fun {q} hq => ?_, fun {t ac} hac => ?_, h.uncached⟩
  · have hq' : a.Central q := hq
    by_cases hqp : q = p
    · subst hqp
      simpa only [Learncc.Pool.setBlocks, Function.update_self] using hchain
    · simp only [Learncc.Pool.setBlocks, Function.update_of_ne hqp]
      refine (h.span hq').congr fun b hb => ?_
      by_contra hne
      rcases hword b hne with hmine | hfree
      · cases hinv.placed.tiles.unique (Learncc.Pool.mem_span hq' hb) (Learncc.Pool.mem_span hp hmine)
        exact hqp rfl
      · exact hfree.span hq' hb
  · have hac' : a.tls t = some ac := hac
    obtain ⟨tc, htc, hfiles⟩ := h.cache hac'
    refine ⟨tc, htc, fun i => ⟨(hfiles i).list.congr fun b hb => ?_, (hfiles i).size, (hfiles i).maxSize⟩⟩
    by_contra hne
    rcases hword b hne with hmine | hfree
    · cases hinv.placed.tiles.unique (Learncc.Pool.mem_cache hac' hb) (Learncc.Pool.mem_span hp hmine)
    · exact hfree.cache hac' i hb

/-- A span leaves the central cache. -/
theorem Holds.leave (h : Holds pool a) (hinv : a.Inv live hand) {i : ℕ} {p : SpanPtr} (hp : p ∈ a.spanList i)
    (pc' : PageCache) : Holds { pool with
      pc := pc'
      blockList := Function.update pool.blockList p 0
      spanList := Function.update pool.spanList i ((pool.spanList i).erase p) } (a.left pc' i p) := by
  refine ⟨rfl, by rw [h.spanList]; rfl, h.origin, fun {q} hq => ?_, h.cache, h.uncached⟩
  obtain ⟨hq', hqp⟩ := (hinv.central_left hp q).1 hq
  simpa only [Learncc.Pool.left, Function.update_of_ne hqp] using h.span hq'

/-! ## get_one_span -/

theorem withBlocks_congr {pc : PageCache} {empty empty' : SpanPtr → Bool} : ∀ {l : List SpanPtr},
    (∀ p ∈ l, empty p = empty' p) → Learncc.Pool.withBlocks pc empty l = Learncc.Pool.withBlocks pc empty' l
  | [], _ => rfl
  | p :: ps, h => by
    rw [Learncc.Pool.withBlocks, Learncc.Pool.withBlocks, h p List.mem_cons_self,
      withBlocks_congr fun q hq => h q (List.mem_cons_of_mem _ hq)]

/-- A chain is empty on both sides. -/
theorem eq_zero_iff {word : ℕ → ℕ} {head : ℕ} {l : List ℕ} (h : Linked word head l) : head = 0 ↔ l = [] := by
  constructor
  · intro h0
    subst h0
    exact h.eq_nil
  · intro hl
    subst hl
    exact h

/-- The loop writes the words that carving is about. -/
theorem linkBlocks_eq {bytes stop : ℕ} : ∀ {fuel cur : ℕ} {l : List ℕ} {pool : Pool τ},
    Learncc.Pool.carve bytes stop fuel cur = .ok l → (∀ b ∈ l, pool.Accessible b) →
    linkBlocks bytes stop fuel pool cur (cur + bytes) =
      (Carving.linkBlocks bytes stop fuel pool.word cur (cur + bytes)).map fun word => { pool with word } := by
  intro fuel
  induction fuel with
  | zero =>
    intro cur l pool h
    cases h
  | succ fuel ih =>
    intro cur l pool h hacc
    unfold Learncc.Pool.carve at h
    unfold linkBlocks Carving.linkBlocks
    split at h
    · rename_i hlt
      obtain ⟨m, hm, hl⟩ := bind_ok.1 h
      obtain rfl := Except.ok.inj hl
      rw [if_pos hlt, if_pos hlt, setNextBlock_eq (hacc cur List.mem_cons_self)]
      exact ih hm fun b hb => hacc b (List.mem_cons_of_mem _ hb)
    · rename_i hlt
      obtain rfl := Except.ok.inj h
      rw [if_neg hlt, if_neg hlt, setNextBlock_eq (hacc cur List.mem_cons_self)]
      rfl

/-- A span that joins the central cache is carved in memory. -/
theorem Holds.join (h : Holds pool a) (hinv : a.Inv live hand) {n bytes : ℕ} {pc' : PageCache} {p : SpanPtr} {s : Span}
    (hg : Gives a.pc (a.InUse live) n pc' p) (hs : pc'.spans p = some s) (hlt : s.npages < NPAGES) (hc : IsClass bytes) :
    ∃ word, linkBlocks bytes (pageAddr s.pageId + pageBytes s.npages) (pageBytes s.npages) { pool with pc := pc' }
        (pageAddr s.pageId) (pageAddr s.pageId + bytes) = .ok { pool with pc := pc', word } ∧
      Holds { pool with
        pc := pc'.setSpan p { s with blockSize := bytes, usedCount := 0 }
        word
        blockList := Function.update pool.blockList p (pageAddr s.pageId)
        spanList := Function.update pool.spanList (classIndex bytes) (p :: pool.spanList (classIndex bytes))
        origin := fun b => if b ∈ ({ s with blockSize := bytes } : Span).blocks then some p else pool.origin b }
        (a.joined pc' p s bytes) := by
  obtain ⟨hpos, haddr, hlen⟩ := hg.addr hs
  obtain ⟨r', hpc'⟩ := hg.inv
  have hlow := (hpc'.layout.bound (hpc'.on hs (.inl (.inr rfl)))).1
  have hstart : 0 < pageAddr s.pageId := by
    rw [haddr]
    exact Nat.mul_pos hlow (by decide)
  have hcarve := Learncc.Pool.carve_eq hc.pos _ _ (pageAddr s.pageId)
    (show 0 < pageBytes s.npages by rw [hlen]; exact Nat.mul_pos hpos (by decide)) (Nat.le_refl _)
  -- Every block starts on a page of the new span, which is mapped.
  have hblocks : (List.range ((pageBytes s.npages + bytes - 1) / bytes)).map (fun i => pageAddr s.pageId + i * bytes) =
      (s.cut bytes).blocks := by
    rw [haddr, hlen]
    rfl
  rw [hblocks] at hcarve
  have hadd := hinv.addSpan hg hs hlt hc
  have hacc : ∀ b ∈ (s.cut bytes).blocks, ({ pool with pc := pc' } : Pool τ).Accessible b := fun b hb =>
    hadd.cut_accessible ((Learncc.Pool.cutFrom_joined hg).2 (.inr ⟨rfl, hb⟩))
  obtain ⟨word, heq, hlinked, hsame⟩ := Carving.linkBlocks_of_carve hc.pos pool.word hstart hcarve
  refine ⟨word, ?_, ?_⟩
  · rw [linkBlocks_eq hcarve hacc, heq]
    rfl
  · -- No block of the others is written.
    have hold : Holds { pool with word } a := h.reword fun b hb => hsame b fun hm => hb <|
      hinv.unchained_of_uncut fun m hcut => hinv.cut_far hg hs hcut (Learncc.Pool.page_of_cut hc hm)
    refine ⟨rfl, ?_, ?_, fun {q} hq => ?_, hold.cache, hold.uncached⟩
    · show Function.update pool.spanList _ _ = Function.update a.spanList _ _
      rw [h.spanList]
    · show (fun b => if b ∈ (s.cut bytes).blocks then some p else pool.origin b) = _
      rw [h.origin]
      rfl
    · by_cases hqp : q = p
      · subst hqp
        rw [Learncc.Pool.joined_blockList]
        simp only [Function.update_self]
        exact hlinked
      · rw [Learncc.Pool.joined_blockList_of_ne hqp]
        simp only [Function.update_of_ne hqp]
        exact hold.span (((Learncc.Pool.central_joined q).1 hq).resolve_right hqp)

theorem getOneSpan_matches (h : Holds pool a) (hinv : a.Inv live hand) {bytes : ℕ} (hc : IsClass bytes) {os : Option ℕ}
    (hok : a.pc.MmapOk (NPAGES - 1) os) :
    Matches (fun x y => x.2 = y.2 ∧ Holds x.1 y.1 ∧ x.1.tls = pool.tls) (pool.getOneSpan (classIndex bytes) bytes os)
      (a.getOneSpan (classIndex bytes) bytes os) := by
  have hfind : Learncc.Pool.withBlocks pool.pc (fun p => pool.blockList p == 0) (pool.spanList (classIndex bytes)) =
      Learncc.Pool.withBlocks a.pc (fun p => (a.blockList p).isEmpty) (a.spanList (classIndex bytes)) := by
    rw [h.pc, h.spanList]
    refine withBlocks_congr fun p hp => ?_
    rw [Bool.eq_iff_iff, beq_iff_eq, List.isEmpty_iff]
    exact eq_zero_iff (h.span ⟨_, hp⟩)
  rw [Learncc.Pool.getOneSpan_eq, getOneSpan, hfind]
  refine .bind_same fun found hfound => ?_
  cases found with
  | some p => exact .ok ⟨rfl, h, rfl⟩
  | none =>
    simp only [h.pc]
    refine .bind_same fun r hnew => ?_
    obtain ⟨pc', p⟩ := r
    obtain ⟨hpos, hlt⟩ := movePage_range hc
    obtain ⟨r, hpc⟩ := hinv.pages
    have hreq : requested (movePage bytes) = NPAGES - 1 := if_neg (by omega)
    have h52 : movePage bytes < 2 ^ 52 := Nat.lt_trans hlt (by decide)
    rcases newSpan_spec hpc hpos h52 (hreq ▸ hok) with ⟨herr, -⟩ | ⟨pc₁, p₁, s, heq, hg, hs, -⟩
    · rw [hnew] at herr
      cases herr
    · rw [hnew] at heq
      cases heq
      obtain ⟨s', hs', hn, -⟩ := hg.span
      rw [hs] at hs'
      cases hs'
      obtain ⟨hspos, haddr, hlen⟩ := hg.addr hs
      obtain ⟨word, hlink, hjoin⟩ := h.join hinv hg hs (hn ▸ hlt) hc
      simp only [Learncc.Pool.cutSpan_eq hc hs hspos haddr hlen, deref_eq hs, hlink, bind, Except.bind]
      exact .ok ⟨rfl, hjoin, rfl⟩

end Pool

end InMemory

end Learncc
