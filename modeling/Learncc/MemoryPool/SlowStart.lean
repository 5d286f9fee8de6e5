/-
`thread_cache` (src/memory_pool/thread_cache.cc) by itself: what its calls do to
the free lists, whatever the central cache answers between one block and as many
as were asked for.

`run_bounded`: each list counts its blocks, is shorter than its limit, and the
limit stops one above the largest batch. `allocate_moves` and `deallocate_moves`:
the caches of the allocator move by these calls.
-/
import Learncc.Lib.Run
import Learncc.MemoryPool.AllocParts

namespace Learncc

open SizeClass

namespace ThreadCache

/-! ## The calls -/

/-- How many blocks `fetch_from_centralcache` asks for. -/
def asked (tc : ThreadCache) (idx bytes : ℕ) : ℕ := min (moveNum bytes) (tc idx).maxSize

/-- `fetch_from_centralcache`, for the chain that `fetch_range_block` cut. -/
def fetchFromCentralcache (tc : ThreadCache) (idx bytes : ℕ) : List ℕ → Except Fault (ThreadCache × ℕ)
  | [] => .error .undefined
  | start :: rest =>
    .ok (Function.update tc idx ((tc idx).stored (tc.asked idx bytes) rest (rest.length + 1)), start)

/-- The rounded size of a request, and the list it is for. -/
def classOf (bytes : ℕ) : Except Fault (ℕ × ℕ) := do
  check (bytes < MAXBYTES)
  let bytes ← roundUp bytes
  let idx ← index bytes
  Pool.listIndex idx
  .ok (bytes, idx)

def allocate (tc : ThreadCache) (bytes : ℕ) (chain : List ℕ) : Except Fault (ThreadCache × ℕ) := do
  let (bytes, idx) ← classOf bytes
  match (tc idx).list with
  | b :: bs => .ok (Function.update tc idx { tc idx with list := bs, size := dec64 (tc idx).size }, b)
  | [] => tc.fetchFromCentralcache idx bytes chain

/-- With the chain that goes back to the central cache. -/
def deallocate (tc : ThreadCache) (ptr bytes : ℕ) : Except Fault (ThreadCache × List ℕ) := do
  check (bytes < MAXBYTES)
  let idx ← index bytes
  Pool.listIndex idx
  let f := (tc idx).push ptr
  if f.maxSize ≤ f.size then .ok (Function.update tc idx f.clear, f.list)
  else .ok (Function.update tc idx f, [])

/-- How many blocks `allocate` asks of the central cache, if it does. -/
def request (tc : ThreadCache) (bytes : ℕ) : Except Fault (Option ℕ) := do
  let (bytes, idx) ← classOf bytes
  .ok (if (tc idx).list.isEmpty then some (tc.asked idx bytes) else none)

inductive Op
  | allocate (bytes : ℕ) (chain : List ℕ)
  | deallocate (ptr bytes : ℕ)

/-- The chain is one that the central cache may answer. -/
def Offered (chain : List ℕ) : Option ℕ → Prop
  | none => True
  | some num => 1 ≤ chain.length ∧ chain.length ≤ num

instance (chain : List ℕ) : (num : Option ℕ) → Decidable (Offered chain num)
  | none => inferInstanceAs (Decidable True)
  | some _ => inferInstanceAs (Decidable (_ ∧ _))

/-- `none` where the call does not return. -/
def step (tc : ThreadCache) : Op → Option ThreadCache
  | .allocate bytes chain =>
    (tc.request bytes).toOption.bind fun num =>
      if Offered chain num then (tc.allocate bytes chain).toOption.map Prod.fst else none
  | .deallocate ptr bytes => (tc.deallocate ptr bytes).toOption.map Prod.fst

/-! ## One list -/

/-- The list counts its blocks, which are fewer than its limit. -/
structure Counts (f : FreeList) : Prop where
  size : f.size = f.list.length
  below : f.size < f.maxSize
  limit : f.maxSize ≤ 513

theorem moveNum_le (bytes : ℕ) : moveNum bytes ≤ 512 := by
  unfold moveNum
  split <;> omega

namespace Counts

variable {f : FreeList}

theorem new : Counts FreeList.new := ⟨rfl, Nat.one_pos, by decide⟩

theorem pop (h : Counts f) {b : ℕ} {bs : List ℕ} (hlist : f.list = b :: bs) :
    Counts { f with list := bs, size := dec64 f.size } := by
  have hsize := h.size
  have hbelow := h.below
  have hlimit := h.limit
  rw [hlist, List.length_cons] at hsize
  have hdec : dec64 f.size = f.size - 1 := dec64_eq (by omega) (by omega)
  refine ⟨?_, ?_, hlimit⟩
  · rw [hdec]
    show f.size - 1 = bs.length
    omega
  · rw [hdec]
    show f.size - 1 < f.maxSize
    omega

/-- A batch no larger than the limit fits, and raises it by one at most. -/
theorem stored (h : Counts f) (hempty : f.list = []) {bytes : ℕ} {rest : List ℕ}
    (hrest : rest.length + 1 ≤ min (moveNum bytes) f.maxSize) :
    Counts (f.stored (min (moveNum bytes) f.maxSize) rest (rest.length + 1)) := by
  have hsize := h.size
  have hlimit := h.limit
  have hmove := moveNum_le bytes
  rw [hempty, List.length_nil] at hsize
  have hlen : f.size + rest.length < 2 ^ 64 := by omega
  refine ⟨?_, ?_, ?_⟩
  · rw [f.stored_size _ _ hlen, f.stored_list, hempty, List.append_nil]
    omega
  · rw [f.stored_size _ _ hlen, f.stored_maxSize]
    split
    · omega
    · omega
  · rw [f.stored_maxSize]
    split
    · omega
    · exact hlimit

theorem push (h : Counts f) (ptr : ℕ) (hroom : ¬ (f.push ptr).maxSize ≤ (f.push ptr).size) : Counts (f.push ptr) := by
  refine ⟨?_, Nat.not_le.1 hroom, h.limit⟩
  have hbelow := h.below
  have hlimit := h.limit
  show size64 (f.size + 1) = f.list.length + 1
  rw [size64, Nat.mod_eq_of_lt (by omega), h.size]

end Counts

/-! ## One call -/

/-- What the lists keep; the limit of a list depends on the size it is for. -/
structure Inv (tc : ThreadCache) : Prop where
  counts : ∀ i, Counts (tc i)
  limit : ∀ {bytes}, IsClass bytes → (tc (classIndex bytes)).maxSize ≤ moveNum bytes + 1

theorem new_inv : Inv new := by
  refine ⟨fun _ => Counts.new, fun hc => ?_⟩
  have hpos := moveNum_pos hc
  show 1 ≤ _
  omega

/-- One list is written. -/
theorem Inv.set {tc : ThreadCache} (h : Inv tc) {idx : ℕ} {f : FreeList} (hf : Counts f)
    (hlimit : ∀ {bytes}, IsClass bytes → classIndex bytes = idx → f.maxSize ≤ moveNum bytes + 1) :
    Inv (Function.update tc idx f) := by
  refine ⟨fun i => ?_, fun {bytes} hc => ?_⟩
  · by_cases hi : i = idx
    · subst hi
      rw [Function.update_self]
      exact hf
    · rw [Function.update_of_ne hi]
      exact h.counts i
  · by_cases hi : classIndex bytes = idx
    · rw [hi, Function.update_self]
      exact hlimit hc hi
    · rw [Function.update_of_ne hi]
      exact h.limit hc

/-- A request that finds a list is for a class, and the list is the class's. -/
theorem classOf_eq {size bytes idx : ℕ} (h : classOf size = .ok (bytes, idx)) :
    IsClass bytes ∧ idx = classIndex bytes := by
  obtain ⟨_, -, h⟩ := bind_ok.1 h
  obtain ⟨b, hround, h⟩ := bind_ok.1 h
  obtain ⟨i, hindex, h⟩ := bind_ok.1 h
  obtain ⟨_, hlt, h⟩ := bind_ok.1 h
  cases h
  by_cases hserved : 0 < size ∧ size ≤ 65024
  · obtain ⟨c, hc, -, hclass⟩ := roundUp_class hserved.1 hserved.2
    rw [hround] at hc
    cases hc
    rw [index_eq hclass] at hindex
    cases hindex
    exact ⟨hclass, rfl⟩
  · exfalso
    have hmax : size ≤ MAXBYTES := by
      by_contra hno
      rw [roundUp, if_neg hno] at hround
      cases hround
    by_cases h0 : size = 0
    · subst h0
      have hzero : (Except.ok 0 : Except Fault ℕ) = .ok bytes := hround
      cases hzero
      have htop : (Except.ok (2 ^ 64 - 1) : Except Fault ℕ) = .ok idx := hindex
      cases htop
      have hfault : (Except.error Fault.undefined : Except Fault Unit) = .ok _ := hlt
      cases hfault
    · have htop : bytes = 65536 := by
        have hto := roundUpTo_eq size 9 (by decide) (by unfold MAXBYTES at hmax; omega)
        unfold roundUp MAXBYTES at *
        rw [if_pos hmax, if_neg (by omega), if_neg (by omega), if_neg (by omega),
          show (512 : ℕ) = 2 ^ 9 from rfl, hto] at hround
        have := Except.ok.inj hround
        omega
      rw [htop] at hindex
      have hfault : (Except.error Fault.assertion : Except Fault ℕ) = .ok idx := hindex
      cases hfault

theorem request_eq_ok {tc : ThreadCache} {size : ℕ} {num : Option ℕ} :
    tc.request size = .ok num ↔ ∃ bytes idx, classOf size = .ok (bytes, idx) ∧
      num = if (tc idx).list.isEmpty then some (tc.asked idx bytes) else none := by
  constructor
  · intro h
    obtain ⟨⟨bytes, idx⟩, hclass, h⟩ := bind_ok.1 h
    cases h
    exact ⟨bytes, idx, hclass, rfl⟩
  · intro h
    obtain ⟨bytes, idx, hclass, rfl⟩ := h
    exact bind_ok.2 ⟨(bytes, idx), hclass, rfl⟩

/-- At least one block is asked for. -/
theorem Inv.asked_pos {tc : ThreadCache} (h : Inv tc) {bytes : ℕ} (hc : IsClass bytes) (idx : ℕ) :
    1 ≤ tc.asked idx bytes := by
  have hbelow := (h.counts idx).below
  have hpos := moveNum_pos hc
  unfold asked
  omega

theorem Inv.allocate {tc tc' : ThreadCache} (h : Inv tc) {size b : ℕ} {chain : List ℕ}
    (hoffer : ∀ num, tc.request size = .ok num → Offered chain num) (ha : tc.allocate size chain = .ok (tc', b)) :
    Inv tc' := by
  obtain ⟨⟨bytes, idx⟩, hclass, ha⟩ := bind_ok.1 ha
  obtain ⟨hc, hidx⟩ := classOf_eq hclass
  have hlimit : ∀ {m}, IsClass m → classIndex m = idx → m = bytes := by
    intro m hm hi
    exact classIndex_injective hm hc (hi.trans hidx)
  simp only at ha
  split at ha
  · rename_i b' bs hlist
    cases ha
    refine h.set ((h.counts idx).pop hlist) fun hm hi => ?_
    rw [← hi]
    exact h.limit hm
  · rename_i hlist
    have hchain : Offered chain (some (tc.asked idx bytes)) := by
      refine hoffer _ (request_eq_ok.2 ⟨bytes, idx, hclass, ?_⟩)
      rw [hlist]
      rfl
    cases chain with
    | nil => cases ha
    | cons start rest =>
      cases ha
      refine h.set ((h.counts idx).stored hlist hchain.2) fun {m} hm hi => ?_
      obtain rfl := hlimit hm hi
      have hold := h.limit hm
      rw [hi] at hold
      rw [FreeList.stored_maxSize]
      unfold asked
      split
      · omega
      · exact hold

theorem Inv.deallocate {tc tc' : ThreadCache} (h : Inv tc) {ptr bytes : ℕ} {chain : List ℕ}
    (hd : tc.deallocate ptr bytes = .ok (tc', chain)) : Inv tc' := by
  obtain ⟨_, -, hd⟩ := bind_ok.1 hd
  obtain ⟨idx, -, hd⟩ := bind_ok.1 hd
  obtain ⟨_, -, hd⟩ := bind_ok.1 hd
  have hlimit : ∀ {m}, IsClass m → classIndex m = idx → (tc idx).maxSize ≤ moveNum m + 1 := by
    intro m hm hi
    rw [← hi]
    exact h.limit hm
  simp only at hd
  split at hd
  · cases hd
    have hpos : 0 < (tc idx).maxSize := Nat.lt_of_le_of_lt (Nat.zero_le _) (h.counts idx).below
    -- The list is emptied, its limit is kept.
    exact h.set ⟨rfl, hpos, (h.counts idx).limit⟩ hlimit
  · rename_i hroom
    cases hd
    exact h.set ((h.counts idx).push ptr hroom) hlimit

theorem step_allocate {tc tc' : ThreadCache} {size : ℕ} {chain : List ℕ} :
    step tc (.allocate size chain) = some tc' ↔
      ∃ num b, tc.request size = .ok num ∧ Offered chain num ∧ tc.allocate size chain = .ok (tc', b) := by
  simp only [step, Option.bind_eq_some_iff]
  constructor
  · intro h
    obtain ⟨num, hnum, h⟩ := h
    split at h
    · rename_i hoffer
      obtain ⟨⟨t, b⟩, ht, rfl⟩ := Option.map_eq_some_iff.1 h
      exact ⟨num, b, toOption_eq_some.1 hnum, hoffer, toOption_eq_some.1 ht⟩
    · cases h
  · intro h
    obtain ⟨num, b, hnum, hoffer, ha⟩ := h
    refine ⟨num, toOption_eq_some.2 hnum, ?_⟩
    rw [if_pos hoffer, ha]
    rfl

theorem step_inv {tc tc' : ThreadCache} {op : Op} (h : Inv tc) (hs : step tc op = some tc') : Inv tc' := by
  cases op with
  | allocate size chain =>
    obtain ⟨num, b, hnum, hoffer, ha⟩ := step_allocate.1 hs
    refine h.allocate (fun num' hnum' => ?_) ha
    rw [hnum] at hnum'
    cases hnum'
    exact hoffer
  | deallocate ptr bytes =>
    obtain ⟨⟨t, c⟩, ht, rfl⟩ := Option.map_eq_some_iff.1 hs
    exact h.deallocate (toOption_eq_some.1 ht)

/-- A request that is served returns, whatever the central cache offers. -/
theorem allocate_returns (tc : ThreadCache) {size : ℕ} {chain : List ℕ} (h1 : 1 ≤ size) (hle : size ≤ 65024)
    (hoffer : ∀ num, tc.request size = .ok num → Offered chain num) :
    ∃ tc', step tc (.allocate size chain) = some tc' := by
  obtain ⟨bytes, hround, -, hc⟩ := roundUp_class h1 hle
  have hmax : size < MAXBYTES := Nat.lt_of_le_of_lt hle (by decide)
  have hclass : classOf size = .ok (bytes, classIndex bytes) := by
    simp only [classOf, check, if_pos hmax, hround, index_eq hc, Pool.listIndex, if_pos (classIndex_lt hc), bind,
      Except.bind]
  have hreq : tc.request size = .ok _ := request_eq_ok.2 ⟨bytes, classIndex bytes, hclass, rfl⟩
  have hchain := hoffer _ hreq
  obtain ⟨tc', b, ha⟩ : ∃ tc' b, tc.allocate size chain = .ok (tc', b) := by
    simp only [allocate, hclass, bind, Except.bind]
    cases hlist : (tc (classIndex bytes)).list with
    | cons b bs => exact ⟨_, b, rfl⟩
    | nil =>
      rw [hlist] at hchain
      cases chain with
      | nil => exact absurd (show 1 ≤ 0 from hchain.1) (by decide)
      | cons start rest => exact ⟨_, start, rfl⟩
  exact ⟨tc', step_allocate.2 ⟨_, b, hreq, hchain, ha⟩⟩

/-- Three fetches, of which the last is answered short, and a list given back. -/
def growing : List Op :=
  [.allocate 100 [1000], .allocate 100 [2000, 3000], .deallocate 1000 104, .deallocate 2000 104,
    .allocate 100 [4000, 5000]]

end ThreadCache

/-! ## The caches of the allocator -/

namespace Pool

open ThreadCache

variable {τ : Type} {pool pool' : Pool τ}

theorem getOneSpan_tls {idx bytes : ℕ} {os : Option ℕ} {p : SpanPtr}
    (h : pool.getOneSpan idx bytes os = .ok (pool', p)) : pool'.tls = pool.tls := by
  rw [getOneSpan_eq] at h
  obtain ⟨found, -, h⟩ := bind_ok.1 h
  cases found with
  | some q =>
    cases h
    rfl
  | none =>
    obtain ⟨⟨pc, q⟩, -, h⟩ := bind_ok.1 h
    obtain ⟨pool₁, hcut, h⟩ := bind_ok.1 h
    cases h
    obtain ⟨s, -, hcut⟩ := bind_ok.1 hcut
    obtain ⟨blocks, -, hcut⟩ := bind_ok.1 hcut
    cases hcut
    rfl

/-- The chain has as many blocks as are counted, and no more than were asked for. -/
theorem takeBlocks_chain {idx num start fetchnum : ℕ} {p : SpanPtr} {rest : List ℕ} (hnum : 0 < num)
    (h : pool.takeBlocks idx num p = .ok (pool', start, rest, fetchnum)) :
    fetchnum = rest.length + 1 ∧ rest.length + 1 ≤ num ∧ pool'.tls = pool.tls := by
  obtain ⟨s, -, h⟩ := bind_ok.1 h
  have hlen : ∀ {b : ℕ} {bs : List ℕ}, pool.blockList p = b :: bs →
      min num (pool.blockList p).length = (bs.take (num - 1)).length + 1 ∧ (bs.take (num - 1)).length + 1 ≤ num := by
    intro b bs hlist
    rw [hlist, List.length_cons, List.length_take]
    omega
  split at h
  · cases h
  · rename_i b bs hlist
    simp only [if_neg (Nat.pos_iff_ne_zero.1 hnum)] at h
    split at h
    · split at h
      · cases h
        exact ⟨(hlen hlist).1, (hlen hlist).2, rfl⟩
      · cases h
    · cases h
      exact ⟨(hlen hlist).1, (hlen hlist).2, rfl⟩

theorem fetchRangeBlock_chain {num bytes start fetchnum : ℕ} {os : Option ℕ} {rest : List ℕ} (hnum : 0 < num)
    (h : pool.fetchRangeBlock num bytes os = .ok (pool', start, rest, fetchnum)) :
    fetchnum = rest.length + 1 ∧ rest.length + 1 ≤ num ∧ pool'.tls = pool.tls := by
  rw [fetchRangeBlock_eq] at h
  obtain ⟨idx, -, h⟩ := bind_ok.1 h
  obtain ⟨_, -, h⟩ := bind_ok.1 h
  obtain ⟨⟨pool₁, p⟩, hone, h⟩ := bind_ok.1 h
  obtain ⟨hcount, hle, htls⟩ := takeBlocks_chain hnum h
  exact ⟨hcount, hle, htls.trans (getOneSpan_tls hone)⟩

theorem returnBlock_tls {idx b : ℕ} {whole : Option SpanPtr}
    (h : pool.returnBlock idx b = .ok (pool', whole)) : pool'.tls = pool.tls := by
  obtain ⟨p, -, h⟩ := bind_ok.1 h
  obtain ⟨s, -, h⟩ := bind_ok.1 h
  split at h
  · split at h
    · cases h
      rfl
    · cases h
  · cases h
    rfl

theorem releaseBlock_tls {idx b : ℕ} (h : pool.releaseBlock idx b = .ok pool') : pool'.tls = pool.tls := by
  obtain ⟨⟨pool₁, whole⟩, hback, h⟩ := bind_ok.1 h
  have htls := returnBlock_tls hback
  cases whole with
  | none =>
    cases h
    exact htls
  | some p =>
    obtain ⟨pc, -, h⟩ := bind_ok.1 h
    cases h
    exact htls

theorem releaseBlocks_tls {idx : ℕ} {blocks : List ℕ} (h : pool.releaseBlocks idx blocks = .ok pool') :
    pool'.tls = pool.tls := by
  induction blocks generalizing pool with
  | nil =>
    cases h
    rfl
  | cons b bs ih =>
    rw [releaseBlocks_cons] at h
    obtain ⟨pool₁, hback, h⟩ := bind_ok.1 h
    exact (ih h).trans (releaseBlock_tls hback)

variable [DecidableEq τ] {t : τ} {tc : ThreadCache}

theorem setFreeList_tls {idx : ℕ} {f : FreeList} (htc : pool.tls t = some tc)
    (h : pool.setFreeList t idx f = .ok pool') : pool'.tls t = some (Function.update tc idx f) := by
  obtain ⟨tc', htc', h⟩ := bind_ok.1 h
  rw [cacheOf, htc] at htc'
  cases htc'
  cases h
  exact Function.update_self ..

/-- A small request moves the cache of its thread by `allocate`. -/
theorem allocate_moves (hinv : tc.Inv) (htc : pool.tls t = some tc) {size b : ℕ} {os : Option ℕ}
    (h : pool.allocate t size os = .ok (pool', b)) :
    ∃ chain tc', tc.step (.allocate size chain) = some tc' ∧ pool'.tls t = some tc' := by
  obtain ⟨_, hmax, h⟩ := bind_ok.1 h
  obtain ⟨bytes, hround, h⟩ := bind_ok.1 h
  obtain ⟨idx, hindex, h⟩ := bind_ok.1 h
  obtain ⟨_, hlt, h⟩ := bind_ok.1 h
  obtain ⟨tc₀, htc₀, h⟩ := bind_ok.1 h
  rw [cacheOf, htc] at htc₀
  cases htc₀
  have hclass : classOf size = .ok (bytes, idx) :=
    bind_ok.2 ⟨_, hmax, bind_ok.2 ⟨bytes, hround, bind_ok.2 ⟨idx, hindex, bind_ok.2 ⟨_, hlt, rfl⟩⟩⟩⟩
  have hreq : tc.request size = .ok _ := request_eq_ok.2 ⟨bytes, idx, hclass, rfl⟩
  simp only at h
  split at h
  · rename_i b' bs hlist
    obtain ⟨pool₁, hset, h⟩ := bind_ok.1 h
    cases h
    refine ⟨[], _, step_allocate.2 ⟨_, b, hreq, ?_, bind_ok.2 ⟨_, hclass, ?_⟩⟩, setFreeList_tls htc hset⟩
    · rw [hlist]
      trivial
    · simp only [hlist]
  · rename_i hlist
    have hpos := hinv.asked_pos (classOf_eq hclass).1 idx
    rw [fetchFromCentralcache_eq] at h
    obtain ⟨tc₀, htc₀, h⟩ := bind_ok.1 h
    rw [cacheOf, htc] at htc₀
    cases htc₀
    obtain ⟨⟨pool₁, start, rest, fetchnum⟩, hfetch, h⟩ := bind_ok.1 h
    obtain ⟨rfl, hle, htls⟩ := fetchRangeBlock_chain hpos hfetch
    obtain ⟨pool₂, hset, h⟩ := bind_ok.1 h
    cases h
    refine ⟨b :: rest, _, step_allocate.2 ⟨_, b, hreq, ?_, bind_ok.2 ⟨_, hclass, ?_⟩⟩,
      setFreeList_tls (htls ▸ htc) hset⟩
    · rw [hlist]
      exact ⟨Nat.succ_pos _, hle⟩
    · simp only [hlist]
      rfl

/-- Giving a small block back moves it by `deallocate`. -/
theorem deallocate_moves (htc : pool.tls t = some tc) {ptr bytes : ℕ} (h : pool.deallocate t ptr bytes = .ok pool') :
    ∃ tc', tc.step (.deallocate ptr bytes) = some tc' ∧ pool'.tls t = some tc' := by
  obtain ⟨_, hmax, h⟩ := bind_ok.1 h
  obtain ⟨idx, hindex, h⟩ := bind_ok.1 h
  obtain ⟨_, hlt, h⟩ := bind_ok.1 h
  obtain ⟨tc₀, htc₀, h⟩ := bind_ok.1 h
  rw [cacheOf, htc] at htc₀
  cases htc₀
  have hmoves : ∀ {tc' : ThreadCache} {chain : List ℕ},
      (if ((tc idx).push ptr).maxSize ≤ ((tc idx).push ptr).size then
        (.ok (Function.update tc idx ((tc idx).push ptr).clear, ((tc idx).push ptr).list) :
          Except Fault (ThreadCache × List ℕ))
      else .ok (Function.update tc idx ((tc idx).push ptr), [])) = .ok (tc', chain) →
        tc.step (.deallocate ptr bytes) = some tc' := by
    intro tc' chain hd
    have hcall : tc.deallocate ptr bytes = .ok (tc', chain) :=
      bind_ok.2 ⟨_, hmax, bind_ok.2 ⟨idx, hindex, bind_ok.2 ⟨_, hlt, hd⟩⟩⟩
    show (tc.deallocate ptr bytes).toOption.map Prod.fst = some tc'
    rw [hcall]
    rfl
  simp only at h
  split at h
  · rename_i hlong
    obtain ⟨pool₁, hset, h⟩ := bind_ok.1 h
    obtain ⟨_, -, h⟩ := bind_ok.1 h
    obtain ⟨_, -, h⟩ := bind_ok.1 h
    exact ⟨_, hmoves (if_pos hlong), (congrFun (releaseBlocks_tls h) t).trans (setFreeList_tls htc hset)⟩
  · rename_i hroom
    exact ⟨_, hmoves (if_neg hroom), setFreeList_tls htc h⟩

end Pool

end Learncc
