/-
The calls of the allocator in its memory do what those on lists do: they
return the same pointers, fail alike, and leave a memory that holds the lists
the others leave. `tcMalloc_matches` and `tcFree_matches` are what histories
are put together from.
-/
import Learncc.MemoryPool.Heap
import Learncc.MemoryPool.InMemoryFacts
import Learncc.MemoryPool.SlowStart

namespace Learncc

open SizeClass PageCache

namespace InMemory

namespace Pool

variable {τ : Type} {pool : Pool τ} {a : Learncc.Pool τ} {live : List (ℕ × ℕ)} {hand : List ℕ}

/-! ## fetch_range_block -/

/-- The loop of `fetch_range_block` stops at the last block it counts. -/
theorem walk_spec : ∀ (num pre n : ℕ) {cur : ℕ} {l : List ℕ}, Linked pool.word cur l → (∀ b ∈ l, pool.Accessible b) →
    ∃ stop cur', pool.walk num pre cur n = .ok (stop, cur', n + min num l.length) ∧
      Linked pool.word cur' (l.drop num) ∧ ∃ m, pre :: l.take num = m ++ [stop]
  | 0, pre, n, cur, l, h, _ => by
    refine ⟨pre, cur, ?_, h, [], by simp⟩
    rw [Nat.zero_min]
    rfl
  | num + 1, pre, n, cur, [], h, _ => by
    have h0 : cur = 0 := h
    refine ⟨pre, cur, ?_, h, [], by simp⟩
    rw [walk, if_pos h0, List.length_nil, Nat.min_zero]
    rfl
  | num + 1, pre, n, cur, b :: l, h, hacc => by
    obtain ⟨rfl, hne, hl⟩ := h
    obtain ⟨stop, cur', heq, hleft, m, hm⟩ := walk_spec num cur (n + 1) hl fun c hc =>
      hacc c (List.mem_cons_of_mem _ hc)
    refine ⟨stop, cur', ?_, hleft, pre :: m, ?_⟩
    · have hcount : n + min (num + 1) (cur :: l).length = n + 1 + min num l.length := by
        rw [List.length_cons]
        omega
      rw [walk, if_neg hne, nextBlock_eq (hacc cur List.mem_cons_self), hcount]
      exact heq
    · rw [List.take_succ_cons, hm, List.cons_append]

/-- A null after that block cuts the list in two. -/
theorem walk_cut {num start : ℕ} {l : List ℕ} (hl : Linked pool.word start (start :: l)) (hnum : 0 < num)
    (hacc : ∀ b ∈ start :: l, pool.Accessible b) :
    ∃ stop cur m, pool.walk num start start 0 = .ok (stop, cur, min num (start :: l).length) ∧
      (start :: l).take num = start :: l.take (num - 1) ∧ start :: l.take (num - 1) = m ++ [stop] ∧
      Linked (Function.update pool.word stop 0) start (start :: l.take (num - 1)) ∧
      Linked (Function.update pool.word stop 0) cur ((start :: l).drop num) := by
  obtain ⟨stop, cur, hwalk, hleft, m, hm⟩ := walk_spec num start 0 hl hacc
  have htake : (start :: l).take num = start :: l.take (num - 1) := by
    rw [← List.take_succ_cons, Nat.sub_add_cancel hnum]
  obtain ⟨m, hm⟩ : ∃ m, start :: l.take (num - 1) = m ++ [stop] := by
    rw [htake] at hm
    cases m with
    | nil => cases hm
    | cons c m => exact ⟨m, (List.cons.inj hm).2⟩
  have hsplit : start :: l = m ++ stop :: (start :: l).drop num := by
    conv_lhs => rw [← List.take_append_drop num (start :: l), htake, hm, List.append_assoc]
    rfl
  have hnd := hl.nodup
  rw [hsplit] at hnd
  have hcut : Linked (Function.update pool.word stop 0) start (start :: l.take (num - 1)) := by
    rw [hm]
    refine Linked.cut (b := (start :: l).drop num) ?_
    rw [← hsplit]
    exact hl
  have hrest : Linked (Function.update pool.word stop 0) cur ((start :: l).drop num) :=
    hleft.update (List.nodup_cons.1 (List.nodup_append.1 hnd).2.1).1
  rw [Nat.zero_add] at hwalk
  exact ⟨stop, cur, m, hwalk, htake, hm, hcut, hrest⟩

/-- `fetch_range_block` from the return of `get_one_span` on. -/
def takeBlocks (pool : Pool τ) (idx num : ℕ) (p : SpanPtr) : Except Fault (Pool τ × ℕ × ℕ × ℕ) := do
  let s ← pool.pc.deref p
  let start := pool.blockList p
  let (stop, cur, fetchnum) ← pool.walk num start start 0
  let pool ← pool.setNextBlock stop 0
  let pool := { pool with
    pc := pool.pc.setSpan p { s with usedCount := size64 (s.usedCount + fetchnum) }
    blockList := Function.update pool.blockList p cur }
  if cur = 0 then
    if p ∈ pool.spanList idx then
      .ok ({ pool with spanList := Function.update pool.spanList idx ((pool.spanList idx).erase p ++ [p]) },
        start, stop, fetchnum)
    else .error .undefined
  else .ok (pool, start, stop, fetchnum)

theorem fetchRangeBlock_eq (pool : Pool τ) (num bytes : ℕ) (os : Option ℕ) :
    pool.fetchRangeBlock num bytes os = (do
      let idx ← index bytes
      Learncc.Pool.listIndex idx
      let (pool, p) ← pool.getOneSpan idx bytes os
      pool.takeBlocks idx num p) := rfl

/-- What `fetch_range_block` returns, in memory and as a list. -/
structure Fetched (pool : Pool τ) (x : Pool τ × ℕ × ℕ × ℕ) (y : Learncc.Pool τ × ℕ × List ℕ × ℕ) : Prop where
  holds : Holds x.1 y.1
  tls : x.1.tls = pool.tls
  start : x.2.1 = y.2.1
  count : x.2.2.2 = y.2.2.2
  chain : Linked x.1.word y.2.1 (y.2.1 :: y.2.2.1)
  stop : ∃ m, y.2.1 :: y.2.2.1 = m ++ [x.2.2.1]

theorem takeBlocks_matches (h : Holds pool a) (hinv : a.Inv live []) {i num : ℕ} {p : SpanPtr} {s : Span}
    (hp : p ∈ a.spanList i) (hs : a.pc.spans p = some s) (hne : a.blockList p ≠ []) (hnum : 0 < num) :
    Matches (Fetched pool) (pool.takeBlocks i num p) (a.takeBlocks i num p) := by
  obtain ⟨start, rest, hlist⟩ := List.exists_cons_of_ne_nil hne
  have hf := hinv.filed_of hp hs
  have hcount := hf.count
  have hlt := hf.length_lt
  have hl := h.span ⟨i, hp⟩
  have hacc : ∀ b ∈ a.blockList p, pool.Accessible b := fun b hb =>
    h.accessible_at hinv (Learncc.Pool.mem_span ⟨i, hp⟩ hb)
  have hstart : pool.blockList p = start := by
    rw [hlist] at hl
    exact hl.1
  rw [hstart, hlist] at hl
  obtain ⟨stop, cur, m, hwalk, htake, hm, hcut, hrest⟩ := walk_cut hl hnum (hlist ▸ hacc)
  rw [← hlist, ← hstart] at hwalk
  rw [← hlist] at htake hrest
  have hmem : stop ∈ a.blockList p := by
    refine List.mem_of_mem_take (i := num) ?_
    rw [htake, hm]
    simp
  have hset := h.setBlocks hinv ⟨i, hp⟩ s hrest (fun b hb => .inl (by
    by_cases hbs : b = stop
    · exact hbs ▸ hmem
    · exact absurd (Function.update_of_ne hbs _ _) hb)) (s.usedCount + min num (a.blockList p).length)
  have hmod : size64 (s.usedCount + min num (a.blockList p).length) = s.usedCount + min num (a.blockList p).length :=
    Nat.mod_eq_of_lt (by omega)
  have hlen : min num (a.blockList p).length = (rest.take (num - 1)).length + 1 := by
    have := congrArg List.length htake
    rwa [List.length_take, List.length_cons] at this
  rw [Learncc.Pool.takeBlocks_eq hs hlist hp hnum (by omega)]
  have hderef : pool.pc.deref p = .ok s := by
    rw [h.pc]
    exact deref_eq hs
  simp only [takeBlocks, hderef, hwalk, setNextBlock_eq (hacc stop hmem), hmod, bind, Except.bind]
  by_cases hcur : cur = 0
  · have hnil : (a.blockList p).drop num = [] := (eq_zero_iff hrest).1 hcur
    have hp' : p ∈ pool.spanList i := h.spanList ▸ hp
    rw [if_pos hcur, if_pos hp']
    refine .ok ⟨?_, rfl, hstart, hlen, hcut, m, hm⟩
    simp only [if_pos hnil]
    refine ⟨hset.pc, by rw [h.spanList], hset.origin, fun {q} hq => hset.span ?_, hset.cache, hset.uncached⟩
    obtain ⟨j, hj⟩ := hq
    exact ⟨j, (Learncc.Pool.mem_reorder (List.perm_append_comm.trans (List.perm_cons_erase hp).symm) j q).1 hj⟩
  · have hnil : (a.blockList p).drop num ≠ [] := fun hnil => hcur ((eq_zero_iff hrest).2 hnil)
    rw [if_neg hcur]
    refine .ok ⟨?_, rfl, hstart, hlen, hcut, m, hm⟩
    simp only [if_neg hnil]
    exact hset

theorem fetchRangeBlock_matches (h : Holds pool a) (hinv : a.Inv live []) (hused : a.Used fun _ => False)
    {bytes num : ℕ} (hc : IsClass bytes) (hnum : 0 < num) {os : Option ℕ} (hok : a.pc.MmapOk (NPAGES - 1) os) :
    Matches (Fetched pool) (pool.fetchRangeBlock num bytes os) (a.fetchRangeBlock num bytes os) := by
  rw [fetchRangeBlock_eq, Learncc.Pool.fetchRangeBlock_eq, index_eq hc]
  refine .bind_same fun i hi => .bind_same fun _ _ => ?_
  cases hi
  refine .bind (getOneSpan_matches h hinv hc hok) fun x y _ hy hxy => ?_
  obtain ⟨pool₁, p'⟩ := x
  obtain ⟨hp, hholds, htls⟩ := hxy
  rcases Learncc.Pool.getOneSpan_spec hinv hused hc hok with ⟨herr, -⟩ | ⟨a₁, p, s, heq, hinv₁, -, hmem, hs, -, hne, -, -⟩
  · rw [hy] at herr
    cases herr
  · rw [hy] at heq
    cases heq
    obtain rfl : p' = p := hp
    exact (takeBlocks_matches hholds hinv₁ hmem hs hne hnum).mono fun _ _ hf => { hf with tls := hf.tls.trans htls }

/-! ## release_to_spans -/

/-- A block goes back to its span on both sides. -/
theorem releaseBlock_matches (h : Holds pool a) {bytes b : ℕ} (hinv : a.Inv live (b :: hand))
    (hused : a.Used fun _ => False) (hcut : ∀ c ∈ b :: hand, a.CutFrom bytes c)
    (hl : Linked pool.word b (b :: hand)) :
    Matches (fun x y => Holds x.1 y ∧ Linked x.1.word x.2 hand) (pool.releaseBlock (classIndex bytes) b)
      (a.releaseBlock (classIndex bytes) b) := by
  obtain ⟨p, s, hp, hs, -, hb⟩ := hinv.cutFrom_iff.1 (hcut b List.mem_cons_self)
  have hpos := hused _ p s hp (fun hx => hx) hs
  have hlt := (hinv.filed_of hp hs).length_lt
  have hcount := (hinv.filed_of hp hs).count
  have hmap := hinv.blockToSpan_block hp hs hb
  have hacc := h.accessible hinv (hcut b List.mem_cons_self)
  obtain ⟨-, hne, hnext⟩ := hl
  have hfree := hinv.unchained_of_hand (b := b) List.mem_cons_self
  have hnot : b ∉ hand := (List.nodup_cons.1 (hinv.placed.nodup .hand)).1
  have hrest : Linked (Function.update pool.word b (pool.blockList p)) (pool.word b) hand := hnext.update hnot
  have hdec : dec64 s.usedCount = s.usedCount - 1 := dec64_eq hpos (by omega)
  have hpmem : p ∈ pool.spanList (classIndex bytes) := h.spanList ▸ hp
  rw [Learncc.Pool.releaseBlock, Learncc.Pool.returnBlock_eq hmap hs hp hpos (by omega), releaseBlock,
    nextBlock_eq hacc, h.pc, hmap]
  simp only [h.pc, deref_eq hs, setNextBlock_eq hacc, hdec, bind, Except.bind]
  by_cases hone : s.usedCount = 1
  · have hzero : s.usedCount - 1 = 0 := by omega
    simp only [if_pos hzero, if_pos hpmem, if_pos hone]
    cases (a.pc.setSpan p { s with blockSize := 0, usedCount := 0 }).releaseToPagecache p true with
    | error f => exact .error f
    | ok pc' => exact .ok ⟨(h.update hfree _).leave hinv hp pc', hrest⟩
  · have hzero : s.usedCount - 1 ≠ 0 := by omega
    simp only [if_neg hzero, if_neg hone]
    have hchain : Linked (Function.update pool.word b (pool.blockList p)) b (b :: a.blockList p) :=
      (h.span ⟨_, hp⟩).push hne (hfree.span ⟨_, hp⟩)
    have hset := h.setBlocks hinv ⟨_, hp⟩ s hchain (fun c hc => .inr (by
      by_cases hcb : c = b
      · exact hcb ▸ hfree
      · exact absurd (Function.update_of_ne hcb _ _) hc)) (s.usedCount - 1)
    rw [h.pc] at hset
    exact .ok ⟨hset, hrest⟩

/-- The loop needs as many rounds as the chain has blocks, and no more. -/
theorem releaseBlocks_matches {bytes : ℕ} : ∀ {blocks : List ℕ} {pool : Pool τ} {a : Learncc.Pool τ} {start rounds : ℕ},
    Holds pool a → a.Inv live blocks → (a.Used fun _ => False) → (∀ b ∈ blocks, a.CutFrom bytes b) →
    Linked pool.word start blocks →
    (blocks.length ≤ rounds →
      Matches Holds (releaseBlocks (classIndex bytes) rounds pool start)
        (Learncc.Pool.releaseBlocks (classIndex bytes) blocks a)) ∧
    (rounds < blocks.length → ∃ f, releaseBlocks (classIndex bytes) rounds pool start = .error f)
  | [], pool, a, start, rounds, h, _, _, _, hl => by
    have h0 : start = 0 := hl
    refine ⟨fun _ => ?_, fun hlt => absurd hlt (Nat.not_lt_zero _)⟩
    cases rounds with
    | zero => rw [releaseBlocks, if_pos h0]; exact .ok h
    | succ rounds => rw [releaseBlocks, if_pos h0]; exact .ok h
  | b :: bs, pool, a, start, 0, h, _, _, _, hl => by
    obtain ⟨rfl, hne, -⟩ := hl
    exact ⟨fun hle => absurd hle (Nat.not_succ_le_zero _), fun _ => ⟨_, if_neg hne⟩⟩
  | b :: bs, pool, a, start, rounds + 1, h, hinv, hused, hcut, hl => by
    obtain ⟨rfl, hne, -⟩ := id hl
    obtain ⟨a₁, heq, hinv₁, hused₁, hcut₁, -⟩ := Learncc.Pool.releaseBlock_spec hinv hused hcut
    have hm := releaseBlock_matches h hinv hused hcut hl
    rw [heq] at hm
    obtain ⟨⟨pool₁, next⟩, hpool₁, hholds, hl₁⟩ := hm.of_ok
    obtain ⟨henough, hshort⟩ := @releaseBlocks_matches _ bs pool₁ _ next rounds hholds hinv₁ hused₁ hcut₁ hl₁
    rw [Learncc.Pool.releaseBlocks_cons, heq, releaseBlocks, if_neg hne, hpool₁]
    exact ⟨fun hle => henough (Nat.le_of_succ_le_succ hle), fun hlt => hshort (Nat.lt_of_succ_lt_succ hlt)⟩

/-! ## Large requests -/

/-- The same pointer on both sides. -/
abbrev Returned (x : Pool τ × ℕ) (y : Learncc.Pool τ × ℕ) : Prop := x.2 = y.2 ∧ Holds x.1 y.1

theorem mallocLarge_matches (h : Holds pool a) (size : ℕ) (os : Option ℕ) :
    Matches Returned (pool.mallocLarge size os) (a.mallocLarge size os) := by
  unfold mallocLarge Learncc.Pool.mallocLarge
  rw [h.pc]
  refine .bind_same fun r _ => .bind_same fun s _ => .ok ⟨rfl, rfl, h.spanList, ?_, h.span, h.cache, h.uncached⟩
  simp only [h.origin]

theorem caught_matches (h : Holds pool a) {x : Except Fault (Pool τ × ℕ)} {y : Except Fault (Learncc.Pool τ × ℕ)}
    (hxy : Matches Returned x y) :
    Matches (fun x y => x.2 = y.2 ∧ Holds x.1 y.1) (pool.caught x) (a.caught y) := by
  cases hxy with
  | ok hr => exact .ok ⟨congrArg some hr.1, hr.2⟩
  | error e =>
    cases e with
    | badAlloc => exact .ok ⟨rfl, h⟩
    | assertion => exact .error _
    | undefined => exact .error _

/-- What `munmap` takes away is no free block. -/
theorem Holds.remap (h : Holds pool a) {pc' : PageCache} (hinv : ({ a with pc := pc' } : Learncc.Pool τ).Inv live hand) :
    Holds (pool.remap pc') { a with pc := pc' } := by
  have h' : Holds { pool with pc := pc' } { a with pc := pc' } :=
    ⟨rfl, h.spanList, h.origin, h.span, h.cache, h.uncached⟩
  refine h'.reword fun b hb => ?_
  have hcut : ∃ bytes, ({ a with pc := pc' } : Learncc.Pool τ).CutFrom bytes b := by
    by_contra hno
    exact hb (hinv.unchained_of_uncut (not_exists.1 hno))
  obtain ⟨bytes, hcut⟩ := hcut
  exact if_pos (hinv.cut_accessible hcut).2

/-! ## thread_cache -/

/-- A chain that comes to a list with its last block. -/
theorem append_chain {word : ℕ → ℕ} {start stop head : ℕ} {rest l : List ℕ} (hchain : Linked word start (start :: rest))
    (hstop : ∃ m, start :: rest = m ++ [stop]) (hne : rest ≠ []) (hl : Linked word head l) (hnot : stop ∉ l) :
    Linked (Function.update word stop head) (word start) (rest ++ l) := by
  obtain ⟨-, -, hrest⟩ := hchain
  obtain ⟨m, hm⟩ := hstop
  obtain ⟨m, rfl⟩ : ∃ n, rest = n ++ [stop] := by
    cases m with
    | nil => exact absurd (List.cons.inj hm).2 hne
    | cons c m => exact ⟨m, (List.cons.inj hm).2⟩
  have hend : word stop = 0 := hrest.of_append
  refine Linked.append ?_ (show stop ∈ m ++ [stop] by simp) ?_
  · rwa [Function.update_idem, ← hend, Function.update_eq_self]
  · rw [Function.update_self]
    exact hl.update hnot

/-- A thread has a cache on both sides, or on neither. -/
theorem Holds.cacheOf (h : Holds pool a) (t : τ) :
    Matches (fun tc ac => pool.tls t = some tc ∧ a.tls t = some ac ∧ ∀ i, Files pool.word (tc i) (ac i))
      (pool.cacheOf t) (a.cacheOf t) := by
  unfold Pool.cacheOf Learncc.Pool.cacheOf
  cases hac : a.tls t with
  | none =>
    rw [h.uncached hac]
    exact .error _
  | some ac =>
    obtain ⟨tc, htc, hfiles⟩ := h.cache hac
    rw [htc]
    exact .ok ⟨rfl, rfl, hfiles⟩

variable [DecidableEq τ]

theorem Holds.setFreeList (h : Holds pool a) (t : τ) (i : ℕ) {f : FreeList} {g : Learncc.FreeList}
    (hf : Files pool.word f g) :
    Matches (fun x y => Holds x y ∧ x.word = pool.word) (pool.setFreeList t i f) (a.setFreeList t i g) := by
  refine .bind (h.cacheOf t) fun tc ac _ _ ⟨_, _, hfiles⟩ => ?_
  refine .ok ⟨⟨h.pc, h.spanList, h.origin, h.span, fun {u uc} huc => ?_, fun {u} hu => ?_⟩, rfl⟩
  · by_cases hut : u = t
    · subst hut
      simp only [Function.update_self, Option.some.injEq] at huc
      subst huc
      refine ⟨_, Function.update_self .., fun j => ?_⟩
      by_cases hj : j = i
      · subst hj
        simpa only [Function.update_self] using hf
      · simpa only [Function.update_of_ne hj] using hfiles j
    · simp only [Function.update_of_ne hut] at huc ⊢
      exact h.cache huc
  · by_cases hut : u = t
    · subst hut
      simp only [Function.update_self, reduceCtorEq] at hu
    · simp only [Function.update_of_ne hut] at hu ⊢
      exact h.uncached hu

theorem fetchFromCentralcache_matches (h : Holds pool a) (hinv : a.Inv live []) (hused : a.Used fun _ => False)
    {bytes : ℕ} (hc : IsClass bytes) (t : τ) {os : Option ℕ} (hok : a.pc.MmapOk (NPAGES - 1) os) :
    Matches Returned (pool.fetchFromCentralcache t (classIndex bytes) bytes os)
      (a.fetchFromCentralcache t (classIndex bytes) bytes os) := by
  refine .bind (h.cacheOf t) fun tc ac _ _ ⟨htc, hac, hfiles⟩ => ?_
  have hnum : 0 < min (moveNum bytes) (ac (classIndex bytes)).maxSize :=
    Nat.lt_min.2 ⟨moveNum_pos hc, hinv.grown _ hac⟩
  simp only [(hfiles (classIndex bytes)).maxSize]
  refine .bind (fetchRangeBlock_matches h hinv hused hc hnum hok) fun x y _ hy hxy => ?_
  obtain ⟨pool₁, start, stop, fetchnum⟩ := x
  rcases Learncc.Pool.fetchRangeBlock_spec hinv hused hc hnum hok with
    ⟨herr, -⟩ | ⟨a₁, start', rest, heq, hinv₁, -, -, -, htls, -⟩
  · rw [hy] at herr
    cases herr
  · rw [hy] at heq
    cases heq
    obtain ⟨hholds, hkept, hstart, hcount, hchain, hstop⟩ := hxy
    simp only at hholds hkept hstart hcount hchain hstop
    subst hstart hcount
    have hac₁ : a₁.tls t = some ac := htls ▸ hac
    obtain ⟨tc', htc', hfiles₁⟩ := hholds.cache hac₁
    rw [hkept, htc] at htc'
    cases htc'
    have hf := hfiles₁ (classIndex bytes)
    have hret : ∀ {pool₂ : Pool τ} {f : FreeList} {g : Learncc.FreeList}, Holds pool₂ a₁ → Files pool₂.word f g →
        Matches Returned (do .ok (← pool₂.setFreeList t (classIndex bytes) f, start))
          (do .ok (← a₁.setFreeList t (classIndex bytes) g, start)) := fun h₂ hg =>
      .bind (h₂.setFreeList t _ hg) fun _ _ _ _ hxy => .ok ⟨rfl, hxy.1⟩
    by_cases hone : 1 < rest.length + 1
    · -- The blocks behind the first go in front of the list.
      have hmem : stop ∈ start :: rest := by
        obtain ⟨m, hm⟩ := hstop
        rw [hm]
        simp
      have hfree := hinv₁.unchained_of_hand hmem
      have hne : rest ≠ [] := by
        rintro rfl
        exact absurd hone (by decide)
      have hpush := append_chain hchain hstop hne hf.list (hfree.cache hac₁ _)
      have hacc : ∀ b ∈ start :: rest, pool₁.Accessible b := fun b hb =>
        hholds.accessible_at hinv₁ (k := .hand) (show b ∈ start :: rest from hb)
      have hf₂ : Files (Function.update pool₁.word stop (tc (classIndex bytes)).list)
          { tc (classIndex bytes) with
            list := pool₁.word start
            size := size64 ((tc (classIndex bytes)).size + (rest.length + 1 - 1)) }
          ((ac (classIndex bytes)).pushRange rest (rest.length + 1 - 1)) :=
        ⟨hpush, by rw [Learncc.FreeList.pushRange, hf.size], hf.maxSize⟩
      simp only [if_pos hone, pushRange, nextBlock_eq (hacc start List.mem_cons_self), setNextBlock_eq (hacc stop hmem)]
      exact hret (hholds.update hfree _) (hf₂.grow (min (moveNum bytes) (ac (classIndex bytes)).maxSize))
    · simp only [if_neg hone]
      exact hret hholds (hf.grow _)

theorem allocate_matches (h : Holds pool a) (hinv : a.Inv live []) (hused : a.Used fun _ => False) (t : τ) (size : ℕ)
    {os : Option ℕ} (hok : a.pc.MmapOk (NPAGES - 1) os) :
    Matches Returned (pool.allocate t size os) (a.allocate t size os) := by
  refine .bind_same fun _ hmax => .bind_same fun bytes hround => .bind_same fun idx hindex => .bind_same fun _ hlt => ?_
  have hclass : ThreadCache.classOf size = .ok (bytes, idx) :=
    bind_ok.2 ⟨_, hmax, bind_ok.2 ⟨bytes, hround, bind_ok.2 ⟨idx, hindex, bind_ok.2 ⟨_, hlt, rfl⟩⟩⟩⟩
  obtain ⟨hc, rfl⟩ := ThreadCache.classOf_eq hclass
  refine .bind (h.cacheOf t) fun tc ac _ _ ⟨_, hac, hfiles⟩ => ?_
  obtain ⟨hl, hsize, hmaxSize⟩ := hfiles (classIndex bytes)
  cases hlist : (ac (classIndex bytes)).list with
  | nil =>
    rw [hlist] at hl
    simp only [if_pos (show (tc (classIndex bytes)).list = 0 from hl), hlist]
    exact fetchFromCentralcache_matches h hinv hused hc t hok
  | cons b bs =>
    have hcached : b ∈ a.blocksAt live [] (.cache t (classIndex bytes)) :=
      Learncc.Pool.mem_cache hac (hlist ▸ List.mem_cons_self)
    have hb : pool.Accessible b := h.accessible_at hinv hcached
    rw [hlist] at hl
    obtain ⟨hhead, hne, hrest⟩ := hl
    have hf : Files pool.word
        { tc (classIndex bytes) with list := pool.word b, size := dec64 (tc (classIndex bytes)).size }
        { ac (classIndex bytes) with list := bs, size := dec64 (ac (classIndex bytes)).size } :=
      ⟨hrest, by rw [hsize], hmaxSize⟩
    simp only [hlist, hhead, if_neg hne, pop, nextBlock_eq hb]
    exact .bind (h.setFreeList t _ hf) fun _ _ _ _ hxy => .ok ⟨rfl, hxy.1⟩

/-- `deallocate` needs as many rounds as it gives blocks back. -/
theorem deallocate_matches {ptr bytes : ℕ} (h : Holds pool a) (hinv : a.Inv live [ptr]) (hused : a.Used fun _ => False)
    (hcut : a.CutFrom bytes ptr) (t : τ) :
    ∃ n, ∀ rounds, (n ≤ rounds → Matches Holds (pool.deallocate t ptr bytes rounds) (a.deallocate t ptr bytes)) ∧
      (rounds < n → ∃ f, pool.deallocate t ptr bytes rounds = .error f) := by
  have hc := hinv.cut_class hcut
  have hmax : bytes < MAXBYTES := Nat.lt_of_le_of_lt hc.le (by decide)
  have hacc := h.accessible hinv hcut
  have hfree := hinv.unchained_of_hand (b := ptr) List.mem_cons_self
  simp only [deallocate, Learncc.Pool.deallocate, Learncc.Pool.check_ok hmax, index_eq hc, Learncc.Pool.listIndex_ok hc,
    bind, Except.bind]
  cases hac : a.tls t with
  | none =>
    refine ⟨0, fun rounds => ⟨fun _ => ?_, fun hlt => absurd hlt (Nat.not_lt_zero _)⟩⟩
    simp only [Pool.cacheOf, h.uncached hac, Learncc.Pool.cacheOf, hac]
    exact .error _
  | some ac =>
    obtain ⟨tc, htc, hfiles⟩ := h.cache hac
    obtain ⟨hl, hsize, hmaxSize⟩ := hfiles (classIndex bytes)
    let g := (ac (classIndex bytes)).push ptr
    let f : FreeList := { tc (classIndex bytes) with list := ptr, size := size64 ((tc (classIndex bytes)).size + 1) }
    have hchain : Linked (Function.update pool.word ptr (tc (classIndex bytes)).list) f.list g.list :=
      hl.push (hinv.cut_ne_zero hcut) (hfree.cache hac _)
    have hf : Files (Function.update pool.word ptr (tc (classIndex bytes)).list) f g :=
      ⟨hchain, by simp only [f, g, Learncc.FreeList.push, hsize], hmaxSize⟩
    have hupd := h.update hfree (tc (classIndex bytes)).list
    have hpush : pool.push (tc (classIndex bytes)) ptr =
        .ok ({ pool with word := Function.update pool.word ptr (tc (classIndex bytes)).list }, f) := by
      simp only [push, setNextBlock_eq hacc, bind, Except.bind, f]
    simp only [Pool.cacheOf, htc, Learncc.Pool.cacheOf, hac, hpush]
    by_cases hlong : g.maxSize ≤ g.size
    · have hlong' : f.maxSize ≤ f.size := by rwa [hf.maxSize, hf.size]
      -- The whole list goes back.
      have hgsize : ∀ b ∈ g.list, a.CutFrom bytes b := by
        intro b hb
        rcases List.mem_cons.1 hb with rfl | hb
        · exact hcut
        · exact hinv.cached_size hc hac hb
      obtain ⟨a₁, hset, hinv₁, hpc, hsl, -⟩ := hinv.setFreeList hac g.clear g.list
        (List.perm_append_singleton ..).symm (fun b hb => by cases hb) (hinv.grown (classIndex bytes) hac)
      obtain ⟨pool₁, hset', hholds, hword⟩ :=
        (hset ▸ hupd.setFreeList t (classIndex bytes) (f := f.clear) (g := g.clear) ⟨rfl, rfl, hf.maxSize⟩).of_ok
      refine ⟨g.list.length, fun rounds => ?_⟩
      have hchain₁ : Linked pool₁.word f.list g.list := by rwa [hword]
      have hback := @releaseBlocks_matches _ _ _ _ _ _ _ rounds hholds hinv₁ (hused.congr hpc hsl)
        (fun b hb => (hgsize b hb).congr hpc hsl) hchain₁
      simp only [g] at hlong hset hback
      simp only [if_pos hlong, if_pos hlong', hset, hset', releaseToSpans, Learncc.Pool.releaseToSpans, index_eq hc,
        Learncc.Pool.listIndex_ok hc, bind, Except.bind]
      exact hback
    · have hlong' : ¬ f.maxSize ≤ f.size := by rwa [hf.maxSize, hf.size]
      refine ⟨0, fun rounds => ⟨fun _ => ?_, fun hlt => absurd hlt (Nat.not_lt_zero _)⟩⟩
      simp only [g] at hlong
      simp only [if_neg hlong, if_neg hlong']
      exact (hupd.setFreeList t _ hf).mono fun _ _ hxy => hxy.1

/-! ## tc_malloc and tc_free -/

theorem Holds.ensureCache (h : Holds pool a) (t : τ) : Holds (pool.ensureCache t) (a.ensureCache t) := by
  unfold Pool.ensureCache Learncc.Pool.ensureCache
  cases hac : a.tls t with
  | some ac =>
    obtain ⟨tc, htc, -⟩ := h.cache hac
    rw [htc]
    exact h
  | none =>
    rw [h.uncached hac]
    refine ⟨h.pc, h.spanList, h.origin, h.span, fun {u uc} huc => ?_, fun {u} hu => ?_⟩
    · by_cases hut : u = t
      · subst hut
        simp only [Function.update_self, Option.some.injEq] at huc
        subst huc
        exact ⟨_, Function.update_self .., fun _ => ⟨rfl, rfl, rfl⟩⟩
      · simp only [Function.update_of_ne hut] at huc ⊢
        exact h.cache huc
    · by_cases hut : u = t
      · subst hut
        simp only [Function.update_self, reduceCtorEq] at hu
      · simp only [Function.update_of_ne hut] at hu ⊢
        exact h.uncached hu

/-- `tc_malloc` answers the same on both sides. -/
theorem tcMalloc_matches (h : Holds pool a) (hinv : a.Inv live []) (hused : a.Used fun _ => False) (t : τ) (size : ℕ)
    {os : Option ℕ} (hok : a.pc.MmapOk (Heap.asked size) os) :
    Matches (fun x y => x.2 = y.2 ∧ Holds x.1 y.1) (pool.tcMalloc t size os) (a.tcMalloc t size os) := by
  unfold tcMalloc Learncc.Pool.tcMalloc
  by_cases hlarge : MAXBYTES < size
  · rw [if_pos hlarge, if_pos hlarge]
    exact caught_matches h (mallocLarge_matches h size os)
  · rw [Heap.asked, if_neg hlarge] at hok
    rw [if_neg hlarge, if_neg hlarge]
    obtain ⟨hinv', -, hpc, hsl, -⟩ := hinv.ensureCache t
    have h' := h.ensureCache t
    exact caught_matches h' (allocate_matches h' hinv' (hused.congr hpc hsl) t size (hpc ▸ hok))

/-- `tc_free` of a small block is a `deallocate` of the class it was cut for. -/
theorem Holds.tcFree_small (h : Holds pool a) (hinv : a.Inv live []) {ptr size : ℕ} (hptr : (ptr, size) ∈ live)
    (hsize : size ≤ MAXBYTES) (t : τ) (ok : Bool) :
    ∃ bytes, roundUp size = .ok bytes ∧ a.CutFrom bytes ptr ∧
      ∀ rounds, pool.tcFree t ptr ok rounds = pool.deallocate t ptr bytes rounds := by
  obtain ⟨bytes, hr, i, p, s, hp, hs, rfl, hb⟩ := hinv.small hptr hsize
  refine ⟨s.blockSize, hr, ⟨i, p, s, hp, hs, rfl, hb⟩, fun rounds => ?_⟩
  have hle := (hinv.filed_of hp hs).isClass.le
  have hmax : ¬ MAXBYTES < s.blockSize := by
    unfold MAXBYTES
    omega
  simp only [tcFree, h.pc, hinv.blockToSpan_block hp hs hb, deref_eq hs, if_neg hmax, bind, Except.bind]

/-- `tc_free` of a live pointer, as long as the loop of `release_to_spans` is
given the rounds it takes. -/
theorem tcFree_matches (h : Holds pool a) (hinv : a.Inv live []) (hused : a.Used fun _ => False) {ptr size : ℕ}
    (hptr : (ptr, size) ∈ live) (hsize : size ≤ 2 ^ 64 - 4096) (t : τ) (ok : Bool) :
    ∃ n, ∀ rounds, (n ≤ rounds → Matches Holds (pool.tcFree t ptr ok rounds) (a.tcFree t ptr ok)) ∧
      (rounds < n → ∃ f, pool.tcFree t ptr ok rounds = .error f) := by
  by_cases hsmall : size ≤ MAXBYTES
  · obtain ⟨bytes, hr, hcut, hfree⟩ := h.tcFree_small hinv hptr hsmall t ok
    obtain ⟨bytes', hr', -, heq⟩ := hinv.tcFree_small hptr hsmall t ok
    obtain rfl : bytes = bytes' := Except.ok.inj (hr.symm.trans hr')
    simp only [hfree, heq]
    exact deallocate_matches h (hinv.fromLive (List.perm_cons_erase hptr) hsmall) hused hcut t
  · refine ⟨0, fun rounds => ⟨fun _ => ?_, fun hlt => absurd hlt (Nat.not_lt_zero _)⟩⟩
    have hlow : MAXBYTES < size := Nat.not_le.1 hsmall
    obtain ⟨p, s, hl⟩ := hinv.large hptr hlow
    obtain ⟨pc', hrel, heq, hinv', -⟩ := hinv.tcFree_large hused (List.perm_cons_erase hptr) hlow hsize hl t ok
    obtain ⟨-, -, hmax⟩ := Learncc.Pool.largePages_range hlow hsize
    have hbytes : MAXBYTES < s.blockSize := by
      rw [hl.bytes, hl.pages]
      exact Nat.lt_of_lt_of_le hlow hmax
    have hzero : dec64 s.usedCount = 0 := by rw [hl.used]; rfl
    rw [heq]
    simp only [tcFree, h.pc, hinv.blockToSpan_large hptr hlow hl, deref_eq hl.span, if_pos hbytes, hzero, hrel, bind,
      Except.bind]
    exact .ok (h.remap hinv')

end Pool

end InMemory

end Learncc
