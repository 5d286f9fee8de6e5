/-
The operations of the allocator, from `get_one_span` up to `tc_malloc` and
`tc_free`: on an allocator in order each returns, and leaves one in order.
-/
import Learncc.MemoryPool.AllocParts
import Learncc.MemoryPool.AllocSpans

namespace Learncc

open SizeClass PageCache

namespace Pool

variable {τ : Type} {pool : Pool τ} {live : List (ℕ × ℕ)} {hand : List ℕ}

theorem check_ok {p : Prop} [Decidable p] (h : p) : check p = .ok () := if_pos h

theorem listIndex_ok {bytes : ℕ} (h : IsClass bytes) : listIndex (classIndex bytes) = .ok () :=
  if_pos (classIndex_lt h)

/-- A block has one size. -/
theorem Inv.cut_unique (h : Inv pool live hand) {m n b : ℕ} (hm : pool.CutFrom m b) (hn : pool.CutFrom n b) :
    m = n := by
  obtain ⟨i, p, s, hp, hs, rfl, hb⟩ := hm
  obtain ⟨j, q, t, hq, ht, rfl, hb'⟩ := hn
  have := h.span_unique hp hq hs ht hb hb'
  subst this
  rw [hs] at ht
  cases ht
  rfl

theorem Inv.cut_class (h : Inv pool live hand) {n b : ℕ} (hn : pool.CutFrom n b) : IsClass n := by
  obtain ⟨i, p, s, hp, hs, rfl, -⟩ := hn
  exact (h.filed_of hp hs).isClass

/-- A free list of a class holds blocks of that size only. -/
theorem Inv.cached_size (h : Inv pool live hand) {t : τ} {tc : ThreadCache} {bytes b : ℕ} (hc : IsClass bytes)
    (htc : pool.tls t = some tc) (hb : b ∈ (tc (classIndex bytes)).list) : pool.CutFrom bytes b := by
  obtain ⟨n, hn, hi⟩ := h.cached htc hb
  rw [← classIndex_injective (h.cut_class hn) hc hi]
  exact hn

theorem Filed.length_lt {i : ℕ} {p : SpanPtr} {s : Span} (h : pool.Filed i p s) : s.blocks.length < 2 ^ 64 := by
  have hb := h.isClass.le
  have hn := h.short
  have hdiv := Nat.div_le_self (s.npages * 2 ^ PAGESHIFT + s.blockSize - 1) s.blockSize
  simp only [Span.blocks, List.length_map, List.length_range]
  unfold NPAGES at hn
  unfold PAGESHIFT at *
  omega

end Pool

/-- The addresses of a span the page cache gives out do not wrap around. -/
theorem PageCache.Gives.addr {pc pc' : PageCache} {U : SpanPtr → Prop} {n : ℕ} {p : SpanPtr} {s : Span}
    (h : Gives pc U n pc' p) (hs : pc'.spans p = some s) :
    0 < s.npages ∧ pageAddr s.pageId = s.pageId * 2 ^ PAGESHIFT ∧ pageBytes s.npages = s.npages * 2 ^ PAGESHIFT := by
  obtain ⟨r, hinv⟩ := h.inv
  obtain ⟨hlow, hpos, htop⟩ := hinv.layout.bound (hinv.on hs (.inl (.inr rfl)))
  unfold pageAddr pageBytes size64 PAGESHIFT
  omega

/-- The spans have the same pages and blocks. -/
structure Span.Same (s t : Span) : Prop where
  pageId : s.pageId = t.pageId
  npages : s.npages = t.npages
  blockSize : s.blockSize = t.blockSize

namespace Span.Same

variable {s t u : Span}

theorem refl (s : Span) : s.Same s := ⟨rfl, rfl, rfl⟩

theorem trans (h : s.Same t) (h' : t.Same u) : s.Same u :=
  ⟨h.pageId.trans h'.pageId, h.npages.trans h'.npages, h.blockSize.trans h'.blockSize⟩

theorem blocks (h : s.Same t) : s.blocks = t.blocks := by
  unfold Span.blocks
  rw [h.pageId, h.npages, h.blockSize]

theorem pages (h : s.Same t) (x : ℕ) : s.Pages x ↔ t.Pages x := by
  unfold Span.Pages
  rw [h.pageId, h.npages]

end Span.Same

namespace Pool

variable {τ : Type} {pool : Pool τ} {live : List (ℕ × ℕ)} {hand : List ℕ}

/-- Every span filed in `pool` is filed in `pool'`, over the same pages and
cut into the same blocks. -/
def Within (pool pool' : Pool τ) : Prop :=
  ∀ i p s, p ∈ pool.spanList i → pool.pc.spans p = some s →
    ∃ s', p ∈ pool'.spanList i ∧ pool'.pc.spans p = some s' ∧ s'.Same s

theorem Within.refl (pool : Pool τ) : pool.Within pool := fun _ _ _ hp hs => ⟨_, hp, hs, .refl _⟩

theorem Within.trans {pool₁ pool₂ : Pool τ} (h : pool.Within pool₁) (h' : pool₁.Within pool₂) : pool.Within pool₂ := by
  intro i p s hp hs
  obtain ⟨s₁, hp₁, hs₁, hsame₁⟩ := h i p s hp hs
  obtain ⟨s₂, hp₂, hs₂, hsame₂⟩ := h' i p s₁ hp₁ hs₁
  exact ⟨s₂, hp₂, hs₂, hsame₂.trans hsame₁⟩

theorem within_of_eq {pool' : Pool τ} (hpc : pool'.pc = pool.pc) (hl : pool'.spanList = pool.spanList) :
    pool.Within pool' ∧ pool'.Within pool := by
  refine ⟨fun i p s hp hs => ⟨s, ?_, ?_, .refl s⟩, fun i p s hp hs => ⟨s, ?_, ?_, .refl s⟩⟩
  · rwa [hl]
  · rwa [hpc]
  · rwa [← hl]
  · rwa [← hpc]

/-- Handing blocks of a span out or taking them back leaves the spans the
same. -/
theorem within_setBlocks {p : SpanPtr} {s : Span} (hs : pool.pc.spans p = some s) (l : List ℕ) (u : ℕ) :
    pool.Within (pool.setBlocks p s l u) ∧ (pool.setBlocks p s l u).Within pool := by
  constructor
  · intro i q t hq ht
    by_cases hqp : q = p
    · subst hqp
      rw [hs] at ht
      cases ht
      exact ⟨_, hq, setSpan_spans_self .., ⟨rfl, rfl, rfl⟩⟩
    · exact ⟨t, hq, (setSpan_spans_of_ne _ _ hqp).trans ht, .refl t⟩
  · intro i q t hq ht
    by_cases hqp : q = p
    · subst hqp
      rw [setBlocks, setSpan_spans_self] at ht
      cases ht
      exact ⟨s, hq, hs, ⟨rfl, rfl, rfl⟩⟩
    · rw [setBlocks, setSpan_spans_of_ne _ _ hqp] at ht
      exact ⟨t, hq, ht, .refl t⟩

/-- Spans may have left the central cache, and that is all. -/
structure Recedes (pool pool' : Pool τ) : Prop where
  within : pool'.Within pool
  owned : pool'.pc.owned = pool.pc.owned
  origin : pool'.origin = pool.origin

theorem Recedes.refl (pool : Pool τ) : pool.Recedes pool := ⟨.refl pool, rfl, rfl⟩

theorem Recedes.trans {pool₁ pool₂ : Pool τ} (h : pool.Recedes pool₁) (h' : pool₁.Recedes pool₂) : pool.Recedes pool₂ :=
  ⟨h'.within.trans h.within, h'.owned.trans h.owned, h'.origin.trans h.origin⟩

theorem recedes_of_eq {pool' : Pool τ} (hpc : pool'.pc = pool.pc) (hl : pool'.spanList = pool.spanList)
    (ho : pool'.origin = pool.origin) : pool.Recedes pool' := ⟨(within_of_eq hpc hl).2, by rw [hpc], ho⟩

/-- The page cache has the pages of a span that is not in use any more. -/
theorem Recedes.listed {pool' : Pool τ} {live' : List (ℕ × ℕ)} {p : SpanPtr} {t : Span} (hback : pool.Recedes pool')
    (h : Inv pool live []) (h' : Inv pool' live' []) (hlive : ∀ e ∈ live', e ∈ live) (hp : pool.InUse live p)
    (ht : pool.pc.spans p = some t) (hgone : ¬ pool'.InUse live' p) {x : ℕ} (hx : t.Pages x) :
    ∃ q k u, q ∈ pool'.pc.pageList k ∧ pool'.pc.spans q = some u ∧ u.Pages x := by
  obtain ⟨r, hpc⟩ := h.pages
  obtain ⟨r', hpc'⟩ := h'.pages
  have hmine : Intervals.Holds r p x := ⟨_, _, hpc.on ht (.inl hp), hx⟩
  have hown : pool.pc.owned x = true := (hpc.layout.tiles.cover x).2 ⟨p, hmine⟩
  rw [← hback.owned] at hown
  obtain ⟨q, a, n, hq, hqx⟩ := (hpc'.layout.tiles.cover x).1 hown
  obtain ⟨u, hu, rfl, rfl, hact⟩ := hpc'.active hq
  rcases hact with (⟨j, hj⟩ | ⟨b, size, hb, hsize, ho⟩) | ⟨hfree, -⟩
  · -- A span that stayed in the central cache has no page of `p`.
    obtain ⟨u₀, hj₀, hu₀, hsame⟩ := hback.within j q u hj hu
    have hr₀ := hpc.on hu₀ (.inl (.inl ⟨j, hj₀⟩))
    have hqp : q = p := hpc.layout.tiles.unique ⟨_, _, hr₀, (hsame.pages x).2 hqx⟩ hmine
    exact absurd (.inl ⟨j, hqp ▸ hj⟩) hgone
  · -- Nor has the span of a pointer that stayed with the user.
    obtain ⟨q', u', hl'⟩ := h'.large hb hsize
    obtain ⟨q₀, u₀, hl₀⟩ := h.large (hlive _ hb) hsize
    have hoq : pool'.origin b = some q₀ := by rw [hback.origin, hl₀.origin]
    have hq₀ : q₀ = q := Option.some.inj (hoq.symm.trans ho)
    have hq' : q' = q := Option.some.inj (hl'.origin.symm.trans ho)
    subst hq₀ hq'
    have hu' := hl'.span
    rw [hu] at hu'
    cases hu'
    have hpage : u₀.pageId = u.pageId :=
      Nat.eq_of_mul_eq_mul_right (by decide) (hl₀.addr.symm.trans hl'.addr)
    have hn : u₀.npages = u.npages := hl₀.pages.trans hl'.pages.symm
    have hr₀ := hpc.on hl₀.span (.inl (.inr ⟨b, size, hlive _ hb, hsize, hl₀.origin⟩))
    rw [hpage, hn] at hr₀
    have hqp : q' = p := hpc.layout.tiles.unique ⟨_, _, hr₀, hqx⟩ hmine
    exact absurd (.inr ⟨b, size, hb, hsize, hqp ▸ ho⟩) hgone
  · exact ⟨q, _, u, hfree, hu, hqx⟩

/-! ## central_cache -/

theorem withBlocks_spec {pc : PageCache} {empty : SpanPtr → Bool} : ∀ {l : List SpanPtr},
    (∀ p ∈ l, ∃ s, pc.spans p = some s) →
    withBlocks pc empty l = .ok none ∨ ∃ p, withBlocks pc empty l = .ok (some p) ∧ p ∈ l ∧ empty p = false
  | [], _ => .inl rfl
  | p :: ps, h => by
    obtain ⟨s, hs⟩ := h p List.mem_cons_self
    simp only [withBlocks, deref_eq hs, bind, Except.bind]
    split
    · rcases withBlocks_spec fun q hq => h q (List.mem_cons_of_mem _ hq) with hn | ⟨q, hq, hm, hne⟩
      · exact .inl hn
      · exact .inr ⟨q, hq, List.mem_cons_of_mem _ hm, hne⟩
    · rename_i hne
      exact .inr ⟨p, rfl, List.mem_cons_self, by simpa using hne⟩

/-- A span the page cache gave out is cut, and joins the central cache. -/
theorem cutSpan_eq {bytes : ℕ} (hc : IsClass bytes) {pc' : PageCache} {p : SpanPtr} {s : Span}
    (hs : pc'.spans p = some s) (hpos : 0 < s.npages) (haddr : pageAddr s.pageId = s.pageId * 2 ^ PAGESHIFT)
    (hlen : pageBytes s.npages = s.npages * 2 ^ PAGESHIFT) :
    ({ pool with pc := pc' } : Pool τ).cutSpan (classIndex bytes) bytes p = .ok (pool.joined pc' p s bytes) := by
  have hcarve := carve_eq hc.pos _ _ (s.pageId * 2 ^ PAGESHIFT)
    (show 0 < s.npages * 2 ^ PAGESHIFT from Nat.mul_pos hpos (by decide)) (Nat.le_refl _)
  simp only [cutSpan, deref_eq hs, haddr, hlen, hcarve, bind, Except.bind]
  rfl

/-- `get_one_span` yields a span of the class with a block left. -/
theorem getOneSpan_spec (h : Inv pool live hand) (hused : pool.Used fun _ => False) {bytes : ℕ} (hc : IsClass bytes)
    {os : Option ℕ} (hok : pool.pc.MmapOk (NPAGES - 1) os) :
    pool.getOneSpan (classIndex bytes) bytes os = .error .badAlloc ∧ os = none ∨
      ∃ pool' p s, pool.getOneSpan (classIndex bytes) bytes os = .ok (pool', p) ∧ Inv pool' live hand ∧
        pool'.Used (· = p) ∧ p ∈ pool'.spanList (classIndex bytes) ∧ pool'.pc.spans p = some s ∧ s.blockSize = bytes ∧
        pool'.blockList p ≠ [] ∧ pool'.tls = pool.tls ∧ pool.Within pool' := by
  have hsome : ∀ p ∈ pool.spanList (classIndex bytes), ∃ s, pool.pc.spans p = some s := fun p hp => by
    obtain ⟨s, hs, -⟩ := h.filed hp
    exact ⟨s, hs⟩
  have hfirst := @withBlocks_spec pool.pc (fun p => (pool.blockList p).isEmpty) _ hsome
  rcases hfirst with hnone | ⟨p, hp, hm, hne⟩
  · obtain ⟨hpos, hlt⟩ := movePage_range hc
    obtain ⟨r, hpc⟩ := h.pages
    have hreq : requested (movePage bytes) = NPAGES - 1 := if_neg (by omega)
    have h52 : movePage bytes < 2 ^ 52 := Nat.lt_trans hlt (by decide)
    simp only [getOneSpan_eq, hnone, bind, Except.bind]
    rcases newSpan_spec hpc hpos h52 (hreq ▸ hok) with ⟨heq, hos⟩ | ⟨pc', p, t, heq, hg, ht, -⟩
    · exact .inl ⟨by rw [heq], hos⟩
    · obtain ⟨t', ht', htn, -⟩ := hg.span
      rw [ht] at ht'
      cases ht'
      obtain ⟨htpos, haddr, hlen⟩ := hg.addr ht
      have hadd := h.addSpan hg ht (htn ▸ hlt) hc
      simp only [heq, cutSpan_eq hc ht htpos haddr hlen]
      refine .inr ⟨pool.joined pc' p t bytes, p, t.cut bytes, rfl, hadd, fun j q u hq hqp hu => ?_,
        (mem_joined _ p).2 (.inr ⟨rfl, rfl⟩), joined_span, rfl, ?_, rfl, fun j q u hq hu => ?_⟩
      · have hq' : q ∈ pool.spanList j := ((mem_joined j q).1 hq).resolve_right fun hx => hqp hx.2
        exact hused j q u hq' (fun hx => hx) ((frame_of_gives hg _ (.inl ⟨j, hq'⟩)).symm.trans hu)
      · rw [joined_blockList]
        exact Span.blocks_ne_nil (s := t.cut bytes) hc.pos htpos
      · exact ⟨u, (mem_joined j q).2 (.inl hq), (frame_of_gives hg _ (.inl ⟨j, hq⟩)).trans hu, .refl u⟩
  · obtain ⟨s, hs, hf⟩ := h.filed hm
    refine .inr ⟨pool, p, s, by simp only [getOneSpan, hp, bind, Except.bind], h, hused.mono _, hm, hs, ?_,
      by simpa using hne, rfl, .refl pool⟩
    exact classIndex_injective hf.isClass hc hf.idx

/-- The span after `num` of its blocks were handed out. -/
def taken (pool : Pool τ) (p : SpanPtr) (s : Span) (num : ℕ) : Pool τ :=
  pool.setBlocks p s ((pool.blockList p).drop num) (s.usedCount + min num (pool.blockList p).length)

/-- The blocks at the front of a span's list are handed out. -/
theorem takeBlocks_eq {i num : ℕ} {p : SpanPtr} {s : Span} {start : ℕ} {rest : List ℕ} (hs : pool.pc.spans p = some s)
    (hlist : pool.blockList p = start :: rest) (hp : p ∈ pool.spanList i) (hnum : 0 < num)
    (hlt : s.usedCount + (pool.blockList p).length < 2 ^ 64) :
    pool.takeBlocks i num p = .ok ({ pool.taken p s num with
      spanList := if (pool.blockList p).drop num = [] then
        Function.update pool.spanList i ((pool.spanList i).erase p ++ [p]) else pool.spanList },
      start, rest.take (num - 1), (rest.take (num - 1)).length + 1) := by
  have hmin : min num (pool.blockList p).length ≤ (pool.blockList p).length := Nat.min_le_right _ _
  have hmod : size64 (s.usedCount + min num (pool.blockList p).length) =
      s.usedCount + min num (pool.blockList p).length := Nat.mod_eq_of_lt (by omega)
  have hlen : min num (pool.blockList p).length = (rest.take (num - 1)).length + 1 := by
    rw [hlist, List.length_cons, List.length_take]
    omega
  simp only [takeBlocks, deref_eq hs, bind, Except.bind]
  split
  · rename_i hnil
    rw [hnil] at hlist
    cases hlist
  · rename_i start' rest' hlist'
    rw [hlist] at hlist'
    cases hlist'
    simp only [if_neg (Nat.pos_iff_ne_zero.1 hnum), hmod, ← hlen]
    by_cases hnil : (pool.blockList p).drop num = []
    · rw [if_pos hnil, if_pos hp, if_pos hnil]
      rfl
    · rw [if_neg hnil, if_neg hnil]
      rfl

/-- They go to the hand. -/
theorem Inv.take (h : Inv pool live hand) {i : ℕ} {p : SpanPtr} {s : Span} (hp : p ∈ pool.spanList i)
    (hs : pool.pc.spans p = some s) (num : ℕ) :
    Inv (pool.taken p s num) live ((pool.blockList p).take num ++ hand) := by
  have hf := h.filed_of hp hs
  have hcount := hf.count
  have hmin : min num (pool.blockList p).length ≤ (pool.blockList p).length := Nat.min_le_right _ _
  refine h.setBlocks hp hs _ _ _ ?_ (fun b hb => hf.blocks b (List.mem_of_mem_drop hb)) ?_
  · rw [← List.append_assoc]
    exact List.Perm.append_right _ (List.perm_append_comm.trans (by rw [List.take_append_drop]))
  · rw [List.length_drop]
    omega

/-- An exhausted span goes to the end of its list. -/
theorem mem_exhaust {i : ℕ} {p : SpanPtr} (hp : p ∈ pool.spanList i) {c : Prop} [Decidable c] (j : ℕ) (q : SpanPtr) :
    q ∈ (if c then Function.update pool.spanList i ((pool.spanList i).erase p ++ [p]) else pool.spanList) j ↔
      q ∈ pool.spanList j := by
  split
  · exact mem_reorder (List.perm_append_comm.trans (List.perm_cons_erase hp).symm) j q
  · rfl

theorem Inv.exhaust (h : Inv pool live hand) {i : ℕ} {p : SpanPtr} (hp : p ∈ pool.spanList i) {c : Prop} [Decidable c] :
    Inv { pool with spanList :=
      if c then Function.update pool.spanList i ((pool.spanList i).erase p ++ [p]) else pool.spanList } live hand := by
  split
  · exact h.reorder (List.perm_append_comm.trans (List.perm_cons_erase hp).symm)
  · exact h

/-- `fetch_range_block` asked for some blocks hands out at least one, and no
more than that. -/
theorem fetchRangeBlock_spec (h : Inv pool live []) (hused : pool.Used fun _ => False) {bytes num : ℕ}
    (hc : IsClass bytes) (hnum : 0 < num) {os : Option ℕ} (hok : pool.pc.MmapOk (NPAGES - 1) os) :
    pool.fetchRangeBlock num bytes os = .error .badAlloc ∧ os = none ∨
      ∃ pool' start rest, pool.fetchRangeBlock num bytes os = .ok (pool', start, rest, rest.length + 1) ∧
        Inv pool' live (start :: rest) ∧ (pool'.Used fun _ => False) ∧
        (∀ b ∈ start :: rest, pool'.CutFrom bytes b) ∧ rest.length < num ∧ pool'.tls = pool.tls ∧
        pool.Within pool' := by
  simp only [fetchRangeBlock_eq, index_eq hc, listIndex_ok hc, bind, Except.bind]
  rcases getOneSpan_spec h hused hc hok with ⟨heq, hos⟩ | ⟨pool₁, p, s, heq, h₁, hused₁, hp, hs, hbytes, hne, htls,
    hin₁⟩
  · exact .inl ⟨by rw [heq], hos⟩
  · obtain ⟨start, rest, hlist⟩ := List.exists_cons_of_ne_nil hne
    have hf := h₁.filed_of hp hs
    have hlt := hf.length_lt
    have hcount := hf.count
    have hpos : 0 < (pool₁.blockList p).length := List.length_pos_iff.2 hne
    have htake : start :: rest.take (num - 1) = (pool₁.blockList p).take num := by
      rw [hlist, ← List.take_succ_cons, Nat.sub_add_cancel hnum]
    let pool₂ := pool₁.taken p s num
    have h₂ : Inv pool₂ live (start :: rest.take (num - 1)) := by
      have := h₁.take hp hs num
      rwa [List.append_nil, ← htake] at this
    have hused₂ : pool₂.Used fun _ => False := by
      intro j q t hq _ ht
      by_cases hqp : q = p
      · subst hqp
        simp only [pool₂, taken, setBlocks, setSpan_spans_self, Option.some.injEq] at ht
        subst ht
        simp only
        omega
      · simp only [pool₂, taken, setBlocks, setSpan_spans_of_ne _ _ hqp] at ht
        exact hused₁ j q t hq hqp ht
    have hcut : ∀ b ∈ start :: rest.take (num - 1), pool₂.CutFrom bytes b := by
      intro b hb
      rw [htake] at hb
      exact ⟨_, p, _, hp, setSpan_spans_self .., hbytes, hf.blocks b (List.mem_of_mem_take hb)⟩
    have hin : pool.Within pool₂ := hin₁.trans (within_setBlocks hs _ _).1
    have hrest : (rest.take (num - 1)).length < num := by
      rw [List.length_take]
      omega
    simp only [heq, takeBlocks_eq hs hlist hp hnum (by omega)]
    refine .inr ⟨_, start, rest.take (num - 1), rfl, h₂.exhaust hp, fun j q t hq hx ht => ?_,
      fun b hb => ?_, hrest, htls, fun j q t hq ht => ?_⟩
    · exact hused₂ j q t ((mem_exhaust hp j q).1 hq) hx ht
    · obtain ⟨j, q, t, hq, ht⟩ := hcut b hb
      exact ⟨j, q, t, (mem_exhaust hp j q).2 hq, ht⟩
    · obtain ⟨t', hq', ht', hsame⟩ := hin j q t hq ht
      exact ⟨t', (mem_exhaust hp j q).2 hq', ht', hsame⟩

/-- A block goes back to its span. -/
theorem returnBlock_eq {i b : ℕ} {p : SpanPtr} {s : Span} (hb : pool.pc.blockToSpan b = .ok p)
    (hs : pool.pc.spans p = some s) (hp : p ∈ pool.spanList i) (hpos : 0 < s.usedCount) (hlt : s.usedCount < 2 ^ 64) :
    pool.returnBlock i b = .ok (
      if s.usedCount = 1 then
        ({ pool with
            pc := pool.pc.setSpan p { s with blockSize := 0, usedCount := 0 }
            blockList := Function.update pool.blockList p []
            spanList := Function.update pool.spanList i ((pool.spanList i).erase p) }, some p)
      else (pool.setBlocks p s (b :: pool.blockList p) (s.usedCount - 1), none)) := by
  have hdec : dec64 s.usedCount = s.usedCount - 1 := dec64_eq hpos hlt
  simp only [returnBlock, hb, deref_eq hs, hdec, bind, Except.bind]
  by_cases hone : s.usedCount = 1
  · rw [if_pos (show s.usedCount - 1 = 0 by omega), if_pos hp, if_pos hone]
  · rw [if_neg (show s.usedCount - 1 ≠ 0 by omega), if_neg hone]
    rfl

/-- The span has the block again, and the hand does not. -/
theorem Inv.putBack (h : Inv pool live (b :: hand)) {i : ℕ} {p : SpanPtr} {s : Span} (hp : p ∈ pool.spanList i)
    (hs : pool.pc.spans p = some s) (hb : b ∈ s.blocks) (hpos : 0 < s.usedCount) :
    Inv (pool.setBlocks p s (b :: pool.blockList p) (s.usedCount - 1)) live hand := by
  have hf := h.filed_of hp hs
  have hcount := hf.count
  refine h.setBlocks hp hs _ _ _ ?_ (fun c hc => ?_) ?_
  · rw [List.cons_append]
    exact List.perm_middle.symm
  · rcases List.mem_cons.1 hc with rfl | hc
    · exact hb
    · exact hf.blocks c hc
  · rw [List.length_cons]
    omega

/-- A block of the hand goes back to its span, and the span, if that is then
whole, to the page cache. -/
theorem releaseBlock_spec {bytes b : ℕ} (h : Inv pool live (b :: hand)) (hused : pool.Used fun _ => False)
    (hcut : ∀ c ∈ b :: hand, pool.CutFrom bytes c) :
    ∃ pool', pool.releaseBlock (classIndex bytes) b = .ok pool' ∧ Inv pool' live hand ∧ (pool'.Used fun _ => False) ∧
      (∀ c ∈ hand, pool'.CutFrom bytes c) ∧ pool'.tls = pool.tls ∧ pool.Recedes pool' := by
  obtain ⟨p, s, hp, hs, hbytes, hb⟩ := h.cutFrom_iff.1 (hcut b List.mem_cons_self)
  have hf := h.filed_of hp hs
  have hpos := hused _ p s hp (fun hx => hx) hs
  have hlt := hf.length_lt
  have hcount := hf.count
  let s₁ : Span := { s with usedCount := s.usedCount - 1 }
  let pool₁ := pool.setBlocks p s (b :: pool.blockList p) (s.usedCount - 1)
  have h₁ : Inv pool₁ live hand := h.putBack hp hs hb hpos
  have hs₁ : pool₁.pc.spans p = some s₁ := setSpan_spans_self ..
  have hused₁ : pool₁.Used (· = p) := by
    intro j q t hq hqp ht
    simp only [pool₁, setBlocks, setSpan_spans_of_ne _ _ hqp] at ht
    exact hused j q t hq (fun hx => hx) ht
  have hcut₁ : ∀ c ∈ hand, pool₁.CutFrom bytes c := by
    intro c hc
    exact (cutFrom_setBlocks hs _ _).2 (hcut c (List.mem_cons_of_mem _ hc))
  simp only [releaseBlock, returnBlock_eq (h.blockToSpan_block hp hs hb) hs hp hpos (by omega), bind, Except.bind]
  by_cases hone : s.usedCount = 1
  · have hzero : s₁.usedCount = 0 := show s.usedCount - 1 = 0 by omega
    -- The span goes back whole, and takes none of the blocks still carried with it.
    let s' : Span := { s with blockSize := 0, usedCount := 0 }
    obtain ⟨pc', hrel, h₂, hframe⟩ := h₁.removeSpan hp hs₁ hzero hused₁ s' rfl rfl rfl
    have hset : pool₁.pc.setSpan p s' = pool.pc.setSpan p s' := by
      simp only [pool₁, setBlocks, PageCache.setSpan, Function.update_idem]
    rw [hset] at hrel
    simp only [s'] at hrel
    have hleft : pool₁.left pc' (classIndex bytes) p = { pool with
        pc := pc'
        blockList := Function.update pool.blockList p []
        spanList := Function.update pool.spanList (classIndex bytes)
          ((pool.spanList (classIndex bytes)).erase p) } := by
      simp only [pool₁, left, setBlocks, Function.update_idem]
    refine ⟨pool₁.left pc' (classIndex bytes) p, ?_, h₂, fun j q t hq _ ht => ?_, fun c hc => ?_, rfl,
      fun j q t hq ht => ?_, ?_, rfl⟩
    · simp only [if_pos hone, hrel, hleft]
    · obtain ⟨hq', hqp⟩ := (h₁.mem_left hp j q).1 hq
      exact hused₁ j q t hq' hqp ((hframe j q hq' hqp).symm.trans ht)
    · obtain ⟨n, hn⟩ := h₂.placed.mem (k := .hand) (show c ∈ hand from hc)
      obtain ⟨j, q, t, hq, ht, hrest⟩ := id hn
      obtain ⟨hq', hqp⟩ := (h₁.mem_left hp j q).1 hq
      have hn₁ : pool₁.CutFrom n c := ⟨j, q, t, hq', (hframe j q hq' hqp).symm.trans ht, hrest⟩
      exact h₁.cut_unique hn₁ (hcut₁ c hc) ▸ hn
    · obtain ⟨hq', hqp⟩ := (h₁.mem_left hp j q).1 hq
      exact (within_setBlocks hs _ _).2 j q t hq' ((hframe j q hq' hqp).symm.trans ht)
    · have howned : pc'.owned = (pool.pc.setSpan p s').owned :=
        releaseToPagecache_owned (setSpan_spans_self ..) hf.short hrel
      exact howned
  · have hne : s₁.usedCount ≠ 0 := show s.usedCount - 1 ≠ 0 by omega
    refine ⟨pool₁, by simp only [if_neg hone, pool₁], h₁, fun j q t hq _ ht => ?_, hcut₁, rfl,
      (within_setBlocks hs _ _).2, rfl, rfl⟩
    by_cases hqp : q = p
    · subst hqp
      rw [hs₁] at ht
      cases ht
      exact Nat.pos_of_ne_zero hne
    · exact hused₁ j q t hq hqp ht

/-- `release_to_spans` does so with every block of the chain. -/
theorem releaseBlocks_spec {bytes : ℕ} : ∀ {blocks : List ℕ} {pool : Pool τ}, Inv pool live blocks →
    (pool.Used fun _ => False) → (∀ b ∈ blocks, pool.CutFrom bytes b) →
    ∃ pool', releaseBlocks (classIndex bytes) blocks pool = .ok pool' ∧ Inv pool' live [] ∧
      (pool'.Used fun _ => False) ∧ pool'.tls = pool.tls ∧ pool.Recedes pool'
  | [], pool, h, hused, _ => ⟨pool, rfl, h, hused, rfl, .refl pool⟩
  | b :: bs, pool, h, hused, hcut => by
    obtain ⟨pool₁, heq, h₁, hused₁, hcut₁, htls₁, hback₁⟩ := releaseBlock_spec h hused hcut
    obtain ⟨pool', hrec, h', hused', htls, hback⟩ := releaseBlocks_spec h₁ hused₁ hcut₁
    refine ⟨pool', ?_, h', hused', htls.trans htls₁, hback₁.trans hback⟩
    rw [releaseBlocks_cons, heq]
    exact hrec

theorem releaseToSpans_spec {bytes : ℕ} {blocks : List ℕ} (h : Inv pool live blocks) (hused : pool.Used fun _ => False)
    (hc : IsClass bytes) (hcut : ∀ b ∈ blocks, pool.CutFrom bytes b) :
    ∃ pool', pool.releaseToSpans blocks bytes = .ok pool' ∧ Inv pool' live [] ∧ (pool'.Used fun _ => False) ∧
      pool'.tls = pool.tls ∧ pool.Recedes pool' := by
  obtain ⟨pool', heq, hrest⟩ := releaseBlocks_spec h hused hcut
  refine ⟨pool', ?_, hrest⟩
  simp only [releaseToSpans, index_eq hc, listIndex_ok hc, bind, Except.bind, heq]

/-! ## thread_cache -/

theorem CutFrom.congr {pool' : Pool τ} (hpc : pool'.pc = pool.pc) (hl : pool'.spanList = pool.spanList) {bytes b : ℕ}
    (h : pool.CutFrom bytes b) : pool'.CutFrom bytes b := by
  unfold CutFrom
  rw [hpc, hl]
  exact h

theorem Used.congr {pool' : Pool τ} (hpc : pool'.pc = pool.pc) (hl : pool'.spanList = pool.spanList)
    {skip : SpanPtr → Prop} (h : pool.Used skip) : pool'.Used skip := by
  unfold Used
  rw [hpc, hl]
  exact h

/-- No thread loses its cache. -/
def Keeps (pool pool' : Pool τ) : Prop := ∀ u, (pool.tls u).isSome → (pool'.tls u).isSome

theorem keeps_of_set {pool' : Pool τ} {t : τ} {tc : ThreadCache} (ht : pool'.tls t = some tc)
    (hother : ∀ u, u ≠ t → pool'.tls u = pool.tls u) : pool.Keeps pool' := by
  intro u hu
  by_cases hut : u = t
  · subst hut
    exact Option.isSome_iff_exists.2 ⟨tc, ht⟩
  · rw [hother u hut]
    exact hu

variable [DecidableEq τ]

/-- One block of a fetch is for the caller, the others go to the free list. -/
theorem fetchFromCentralcache_spec (h : Inv pool live []) (hused : pool.Used fun _ => False) {bytes : ℕ}
    (hc : IsClass bytes) {t : τ} {tc : ThreadCache} (htc : pool.tls t = some tc) {os : Option ℕ}
    (hok : pool.pc.MmapOk (NPAGES - 1) os) :
    pool.fetchFromCentralcache t (classIndex bytes) bytes os = .error .badAlloc ∧ os = none ∨
      ∃ pool' b, pool.fetchFromCentralcache t (classIndex bytes) bytes os = .ok (pool', b) ∧ Inv pool' live [b] ∧
        (pool'.Used fun _ => False) ∧ pool'.CutFrom bytes b ∧ pool.Keeps pool' ∧ pool.Within pool' := by
  let f := tc (classIndex bytes)
  let num := min (moveNum bytes) f.maxSize
  have hgrown : 0 < f.maxSize := h.grown _ htc
  have hnum : 0 < num := Nat.lt_min.2 ⟨moveNum_pos hc, hgrown⟩
  simp only [fetchFromCentralcache_eq, cacheOf, htc, bind, Except.bind]
  rcases fetchRangeBlock_spec h hused hc hnum hok with ⟨heq, hos⟩ | ⟨pool₁, start, rest, heq, h₁, hused₁, hcut, -, htls,
    hin⟩
  · simp only [num, f] at heq
    exact .inl ⟨by rw [heq], hos⟩
  · have htc₁ : pool₁.tls t = some tc := htls ▸ htc
    have hlist := f.stored_list num rest
    have hperm : ((f.stored num rest (rest.length + 1)).list ++ [start]).Perm (f.list ++ (start :: rest)) := by
      rw [hlist]
      have hfront : (rest ++ f.list ++ [start]).Perm (start :: rest ++ f.list) := List.perm_append_comm
      exact hfront.trans List.perm_append_comm
    obtain ⟨pool', hset, h', hpc, hsl, -, hself, hother⟩ := h₁.setFreeList htc₁ _ [start] hperm (fun b hb => by
      rw [hlist] at hb
      rcases List.mem_append.1 hb with hb | hb
      · exact ⟨bytes, hcut b (List.mem_cons_of_mem _ hb), rfl⟩
      · exact h₁.cached htc₁ hb) (f.stored_maxSize_pos num rest hgrown _)
    refine .inr ⟨pool', start, ?_, h', hused₁.congr hpc hsl, (hcut start List.mem_cons_self).congr hpc hsl, ?_,
      hin.trans (within_of_eq hpc hsl).1⟩
    · simp only [num, f] at heq hset
      simp only [heq, hset]
    · rw [Keeps, ← htls]
      exact keeps_of_set hself hother

/-- `allocate` hands out a block of the request's class. -/
theorem allocate_spec (h : Inv pool live []) (hused : pool.Used fun _ => False) {size bytes : ℕ}
    (hmax : size < MAXBYTES) (hr : roundUp size = .ok bytes) (hc : IsClass bytes) {t : τ}
    {tc : ThreadCache} (htc : pool.tls t = some tc) {os : Option ℕ} (hok : pool.pc.MmapOk (NPAGES - 1) os) :
    pool.allocate t size os = .error .badAlloc ∧ os = none ∨
      ∃ pool' b, pool.allocate t size os = .ok (pool', b) ∧ Inv pool' live [b] ∧ (pool'.Used fun _ => False) ∧
        pool'.CutFrom bytes b ∧ pool.Keeps pool' ∧ pool.Within pool' := by
  simp only [allocate, check_ok hmax, hr, index_eq hc, listIndex_ok hc, cacheOf, htc, bind, Except.bind]
  have hgrown : 0 < (tc (classIndex bytes)).maxSize := h.grown _ htc
  split
  · rename_i b bs hlist
    have hsize : ∀ c ∈ b :: bs, pool.CutFrom bytes c := fun c hm => h.cached_size hc htc (hlist ▸ hm)
    obtain ⟨pool', hset, h', hpc, hsl, -, hself, hother⟩ := h.setFreeList htc
      { tc (classIndex bytes) with list := bs, size := dec64 (tc (classIndex bytes)).size } [b]
      (by
        rw [hlist, List.append_nil]
        exact List.perm_append_comm)
      (fun c hm => ⟨bytes, hsize c (List.mem_cons_of_mem _ hm), rfl⟩) hgrown
    refine .inr ⟨pool', b, by rw [hset], h', hused.congr hpc hsl, (hsize b List.mem_cons_self).congr hpc hsl, ?_,
      (within_of_eq hpc hsl).1⟩
    exact keeps_of_set hself hother
  · exact fetchFromCentralcache_spec h hused hc htc hok

/-- `deallocate` files the block under its size, and gives the whole list
back when it has grown too long. -/
theorem deallocate_spec {bytes ptr : ℕ} (h : Inv pool live [ptr]) (hused : pool.Used fun _ => False)
    (hcut : pool.CutFrom bytes ptr) {t : τ} {tc : ThreadCache} (htc : pool.tls t = some tc) :
    ∃ pool', pool.deallocate t ptr bytes = .ok pool' ∧ Inv pool' live [] ∧ (pool'.Used fun _ => False) ∧
      pool.Keeps pool' ∧ pool.Recedes pool' ∧ ∀ u, u ≠ t → pool'.tls u = pool.tls u := by
  have hc := h.cut_class hcut
  have hmax : bytes < MAXBYTES := Nat.lt_of_le_of_lt hc.le (by decide)
  let f := (tc (classIndex bytes)).push ptr
  have hgrown : 0 < (tc (classIndex bytes)).maxSize := h.grown _ htc
  have hsize : ∀ b ∈ f.list, pool.CutFrom bytes b := by
    intro b hb
    rcases List.mem_cons.1 hb with rfl | hb
    · exact hcut
    · exact h.cached_size hc htc hb
  have hlist : f.list.Perm ((tc (classIndex bytes)).list ++ [ptr]) := (List.perm_append_singleton ..).symm
  simp only [deallocate, check_ok hmax, index_eq hc, listIndex_ok hc, cacheOf, htc, bind, Except.bind]
  split
  · obtain ⟨pool₁, hset, h₁, hpc, hsl, hor, hself, hother⟩ :=
      h.setFreeList htc f.clear f.list hlist (fun b hb => by cases hb) hgrown
    obtain ⟨pool', hrel, h', hused', htls, hback⟩ := releaseToSpans_spec h₁ (hused.congr hpc hsl) hc
      fun b hb => (hsize b hb).congr hpc hsl
    simp only [f] at hset hrel
    refine ⟨pool', by simp only [hset, hrel], h', hused', ?_, (recedes_of_eq hpc hsl hor).trans hback, htls ▸ hother⟩
    rw [Keeps, htls]
    exact keeps_of_set hself hother
  · obtain ⟨pool', hset, h', hpc, hsl, hor, hself, hother⟩ := h.setFreeList htc f [] (by rwa [List.append_nil])
      (fun b hb => ⟨bytes, hsize b hb, rfl⟩) hgrown
    exact ⟨pool', hset, h', hused.congr hpc hsl, keeps_of_set hself hother, recedes_of_eq hpc hsl hor, hother⟩

/-! ## tc_malloc and tc_free -/

/-- The sizes of large requests, in pages. -/
theorem largePages_range {size : ℕ} (hlow : MAXBYTES < size) (hhigh : size ≤ 2 ^ 64 - 4096) :
    16 < largePages size ∧ largePages size < 2 ^ 52 ∧ size ≤ largePages size * 2 ^ PAGESHIFT := by
  have hround := roundUpTo_eq size PAGESHIFT (by decide) (by unfold PAGESHIFT; omega)
  unfold largePages
  rw [hround, Nat.mul_div_cancel _ (by decide)]
  unfold MAXBYTES at *
  unfold PAGESHIFT
  omega

/-- The user's pointers after a `tc_malloc`. -/
def record (live : List (ℕ × ℕ)) (size : ℕ) : Option ℕ → List (ℕ × ℕ)
  | none => live
  | some ptr => (ptr, size) :: live

theorem tcMalloc_small (h : Inv pool live []) (hused : pool.Used fun _ => False) {size : ℕ} (h0 : 0 < size)
    (hle : size ≤ 65024) (t : τ) {os : Option ℕ} (hok : pool.pc.MmapOk (NPAGES - 1) os) :
    ∃ pool' r, pool.tcMalloc t size os = .ok (pool', r) ∧ Inv pool' (record live size r) [] ∧
      (pool'.Used fun _ => False) ∧ (r = none → os = none) ∧ (∀ b, r = some b → b ∉ live.map Prod.fst) ∧
      (pool'.tls t).isSome ∧ pool.Keeps pool' ∧ pool.Within pool' := by
  have hmax : size < MAXBYTES := Nat.lt_of_le_of_lt hle (by decide)
  obtain ⟨bytes, hr, -, hc⟩ := roundUp_class h0 hle
  obtain ⟨h₁, ⟨tc, htc⟩, hpc, hsl, -, hkeep⟩ := h.ensureCache t
  have hsome : ((pool.ensureCache t).tls t).isSome := Option.isSome_iff_exists.2 ⟨tc, htc⟩
  rw [tcMalloc, if_neg (by omega)]
  rcases allocate_spec h₁ (hused.congr hpc hsl) hmax hr hc htc (hpc ▸ hok) with
    ⟨heq, hos⟩ | ⟨pool', b, heq, h', hused', hcut, hkeep', hin⟩
  · refine ⟨pool.ensureCache t, none, by rw [heq]; rfl, h₁, hused.congr hpc hsl, fun _ => hos, nofun, hsome, hkeep,
      (within_of_eq hpc hsl).1⟩
  · obtain ⟨hlive, hnew⟩ := h'.toLive rfl (Nat.le_of_lt hmax) hr hcut
    refine ⟨pool', some b, by rw [heq]; rfl, hlive, hused', nofun, fun c hc => ?_, hkeep' t hsome,
      fun u hu => hkeep' u (hkeep u hu), (within_of_eq hpc hsl).1.trans hin⟩
    cases hc
    exact hnew

theorem tcMalloc_large (h : Inv pool live []) (hused : pool.Used fun _ => False) {size : ℕ} (hlow : MAXBYTES < size)
    (hhigh : size ≤ 2 ^ 64 - 4096) (t : τ) {os : Option ℕ} (hok : pool.pc.MmapOk (requested (largePages size)) os) :
    ∃ pool' r, pool.tcMalloc t size os = .ok (pool', r) ∧ Inv pool' (record live size r) [] ∧
      (pool'.Used fun _ => False) ∧ (r = none → os = none) ∧ (∀ b, r = some b → b ∉ live.map Prod.fst) ∧
      pool.Keeps pool' ∧ pool.Within pool' := by
  obtain ⟨h16, h52, -⟩ := largePages_range hlow hhigh
  obtain ⟨r, hpc⟩ := h.pages
  rw [tcMalloc, if_pos hlow]
  rcases newSpan_spec hpc (show 0 < largePages size by omega) h52 hok with
    ⟨heq, hos⟩ | ⟨pc', p, s, heq, hg, hs, hbytes⟩
  · refine ⟨pool, none, ?_, h, hused, fun _ => hos, nofun, fun _ hu => hu, .refl pool⟩
    simp only [mallocLarge, heq, bind, Except.bind, caught]
  · obtain ⟨s', hs', hn, hu⟩ := hg.span
    rw [hs] at hs'
    cases hs'
    obtain ⟨-, haddr, -⟩ := hg.addr hs
    have hone : size64 (s.usedCount + 1) = 1 := by rw [hu]; rfl
    obtain ⟨h', hnot⟩ := h.addLarge hlow hg hs hn (by rw [hbytes, hn])
    refine ⟨_, some (s.pageId * 2 ^ PAGESHIFT), ?_, h', fun j q u hq _ hu => ?_, nofun, fun b hb => ?_, fun _ hu => hu,
      fun j q u hq hu => ⟨u, hq, (frame_of_gives hg _ (.inl ⟨j, hq⟩)).trans hu, .refl u⟩⟩
    · simp only [mallocLarge, heq, deref_eq hs, haddr, hone, bind, Except.bind, caught]
      rfl
    · exact hused j q u hq (fun hx => hx) ((frame_of_gives hg _ (.inl ⟨j, hq⟩)).symm.trans hu)
    · cases hb
      exact hnot

/-- `tc_free` of a small block is a `deallocate` of the class it was cut for. -/
theorem Inv.tcFree_small (h : Inv pool live []) {b size : ℕ} (hb : (b, size) ∈ live) (hsize : size ≤ MAXBYTES) (t : τ)
    (ok : Bool) :
    ∃ bytes, roundUp size = .ok bytes ∧ pool.CutFrom bytes b ∧ pool.tcFree t b ok = pool.deallocate t b bytes := by
  obtain ⟨bytes, hr, i, p, s, hp, hs, rfl, hbs⟩ := h.small hb hsize
  refine ⟨s.blockSize, hr, ⟨i, p, s, hp, hs, rfl, hbs⟩, ?_⟩
  have hle := (h.filed_of hp hs).isClass.le
  have hmax : ¬ MAXBYTES < s.blockSize := by
    unfold MAXBYTES
    omega
  simp only [tcFree, h.blockToSpan_block hp hs hbs, deref_eq hs, if_neg hmax, bind, Except.bind]

/-- A thread without a cache has nowhere to put a small block. -/
theorem Inv.tcFree_uncached (h : Inv pool live []) {b size : ℕ} (hb : (b, size) ∈ live) (hsize : size ≤ MAXBYTES)
    {t : τ} (ht : pool.tls t = none) (ok : Bool) : pool.tcFree t b ok = .error .undefined := by
  obtain ⟨bytes, -, hcut, heq⟩ := h.tcFree_small hb hsize t ok
  have hc := h.cut_class hcut
  have hmax : bytes < MAXBYTES := Nat.lt_of_le_of_lt hc.le (by decide)
  simp only [heq, deallocate, check_ok hmax, index_eq hc, listIndex_ok hc, cacheOf, ht, bind, Except.bind]

/-- `tc_free` of a large block gives its span back to the page cache. -/
theorem Inv.tcFree_large (h : Inv pool live []) (hused : pool.Used fun _ => False) {b size : ℕ}
    {live' : List (ℕ × ℕ)} (hperm : live.Perm ((b, size) :: live')) (hlow : MAXBYTES < size)
    (hhigh : size ≤ 2 ^ 64 - 4096) {p : SpanPtr} {s : Span} (hl : pool.LargeSpan b size p s) (t : τ) (ok : Bool) :
    ∃ pc', (pool.pc.setSpan p { s with usedCount := 0 }).releaseToPagecache p ok = .ok pc' ∧
      pool.tcFree t b ok = .ok { pool with pc := pc' } ∧ Inv { pool with pc := pc' } live' [] ∧
      ∀ j q, q ∈ pool.spanList j → pc'.spans q = pool.pc.spans q := by
  have hb : (b, size) ∈ live := hperm.mem_iff.2 List.mem_cons_self
  obtain ⟨-, -, hmax⟩ := largePages_range hlow hhigh
  have hbytes : MAXBYTES < s.blockSize := by
    rw [hl.bytes, hl.pages]
    exact Nat.lt_of_lt_of_le hlow hmax
  have hzero : dec64 s.usedCount = 0 := by rw [hl.used]; rfl
  obtain ⟨pc', hrel, h', hframe⟩ := h.removeLarge hperm hlow hl hused ok
  refine ⟨pc', hrel, ?_, h', hframe⟩
  simp only [tcFree, h.blockToSpan_large hb hlow hl, deref_eq hl.span, if_pos hbytes, hzero, hrel, bind, Except.bind]

theorem tcFree_spec (h : Inv pool live []) (hused : pool.Used fun _ => False) {b size : ℕ} {live' : List (ℕ × ℕ)}
    (hperm : live.Perm ((b, size) :: live')) (hhigh : size ≤ 2 ^ 64 - 4096) {t : τ}
    (ht : size ≤ MAXBYTES → (pool.tls t).isSome) (ok : Bool) :
    ∃ pool', pool.tcFree t b ok = .ok pool' ∧ Inv pool' live' [] ∧ (pool'.Used fun _ => False) ∧ pool.Keeps pool' ∧
      (pool.Within pool' ∨ pool.Recedes pool') := by
  have hb : (b, size) ∈ live := hperm.mem_iff.2 List.mem_cons_self
  by_cases hsize : size ≤ MAXBYTES
  · obtain ⟨bytes, -, hcut, heq⟩ := h.tcFree_small hb hsize t ok
    obtain ⟨tc, htc⟩ := Option.isSome_iff_exists.1 (ht hsize)
    rw [heq]
    obtain ⟨pool', heq', h', hused', hkeep, hback, -⟩ := deallocate_spec (h.fromLive hperm hsize) hused hcut htc
    exact ⟨pool', heq', h', hused', hkeep, .inr hback⟩
  · have hlow : MAXBYTES < size := by omega
    obtain ⟨p, s, hl⟩ := h.large hb hlow
    obtain ⟨pc', -, heq, h', hframe⟩ := h.tcFree_large hused hperm hlow hhigh hl t ok
    refine ⟨{ pool with pc := pc' }, heq, h', fun j q u hq hx hu => ?_, fun _ hu => hu, .inl fun j q u hq hu => ?_⟩
    · exact hused j q u hq hx ((hframe j q hq).symm.trans hu)
    · exact ⟨u, hq, (hframe j q hq).trans hu, .refl u⟩

end Pool

end Learncc
