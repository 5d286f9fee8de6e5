/-
`myallocator` over any history of `allocate` and `deallocate`, with any
answers of `malloc`: each function keeps the blocks apart, so every run does.
-/
import Learncc.Public.AllocatorBlocks

namespace Learncc.MyAllocator

open Extent

/-- What is in hand beside the reserve is `X`. -/
structure InvWith (elem : ℕ) (s : MyAllocator) (L : ℕ → List ℕ) (X : List Extent) : Prop where
  held : Held elem s L (X ++ [⟨s.startFree, s.endFree - s.startFree⟩])
  le : s.startFree ≤ s.endFree
  lt : s.endFree < 2 ^ 64
  whole : (s.endFree - s.startFree) % 8 = 0

abbrev Inv (elem : ℕ) (s : MyAllocator) (L : ℕ → List ℕ) : Prop := InvWith elem s L []

variable {elem : ℕ} {s s' : MyAllocator} {L : ℕ → List ℕ} {X : List Extent}

theorem init_inv (elem : ℕ) (link : ℕ → ℕ) : Inv elem (init link) fun _ => [] := by
  refine ⟨⟨fun i _ => rfl, ⟨?_, fun b hb => ?_⟩, ?_, ?_, ?_⟩, Nat.le_refl _, Nat.two_pow_pos 64, rfl⟩
  · have : free (fun _ => []) = [] := by decide
    rw [this]
    exact List.pairwise_singleton _ _
  · have : free (fun _ => []) = [] := by decide
    rw [this] at hb
    rw [List.mem_singleton.1 hb]
    exact .inl rfl
  · intro r hr
    cases hr
  · intro b hb
    cases hb
  · intro b hb
    cases hb

theorem InvWith.bytesLeft_eq (h : InvWith elem s L X) : s.bytesLeft = s.endFree - s.startFree := by
  have hle := h.le
  have hlt := h.lt
  unfold bytesLeft size64
  omega

/-! ## `_S_chunk_alloc` -/

theorem malloc_cases {bytes : ℕ} {answers rest : Answers} {r : Option ℕ}
    (h : s.malloc bytes answers = some (s', r, rest)) :
    r = none ∧ s' = s ∨
      ∃ p, r = some p ∧ Fresh s.mallocs ⟨p, bytes⟩ ∧ s' = { s with mallocs := ⟨p, bytes⟩ :: s.mallocs } := by
  unfold malloc at h
  split at h
  · cases h
  · cases h
    exact .inl ⟨rfl, rfl⟩
  · split at h
    · rename_i hf
      cases h
      exact .inr ⟨_, rfl, hf, rfl⟩
    · cases h

/-- `push`, of a block in hand. -/
theorem push_held {Y : List Extent} {p bytes i : ℕ} (h : Held elem s L (⟨p, bytes⟩ :: Y)) (hi : i < NFREELISTS)
    (hsize : ALIGN * (i + 1) ≤ bytes) : Held elem (s.push i p) (Function.update L i (p :: L i)) Y :=
  Blocks.push h hi hsize

/-- What is left goes to a list below those for larger objects. -/
theorem fileLeftover_spec (h : Inv elem s L) (hle : s.bytesLeft ≤ MAX_BYTES) :
    ∃ L', Held elem s.fileLeftover L' [] ∧ ∀ i, s.bytesLeft ≤ ALIGN * i → L' i = L i := by
  have hleft := h.bytesLeft_eq
  have hwhole := h.whole
  unfold fileLeftover
  split
  · rename_i hpos
    have hsize : ALIGN * (freelistIndex s.bytesLeft + 1) = s.bytesLeft := by
      rw [roundUp_index hpos hle, roundUp_eq hle]
      omega
    have hheld : Held elem s L [⟨s.startFree, s.endFree - s.startFree⟩] := h.held
    have hpush := push_held hheld (freelistIndex_lt hpos hle) (Nat.le_of_eq (hsize.trans hleft))
    refine ⟨_, hpush, fun i hi => ?_⟩
    refine Function.update_of_ne ?_ _ _
    intro he
    rw [he] at hi
    unfold ALIGN at hsize hi
    omega
  · exact ⟨L, h.held.drop, fun i _ => rfl⟩

theorem findObj_spec : ∀ {k i j : ℕ}, s.findObj k i = some j →
    i ≤ j ∧ j ≤ MAX_BYTES ∧ j % 8 = i % 8 ∧ s.freeList (freelistIndex j) ≠ 0
  | 0, _, _, h => by cases h
  | k + 1, i, j, h => by
    unfold findObj at h
    split at h
    · rename_i hle
      split at h
      · rename_i hne
        cases h
        exact ⟨Nat.le_refl _, hle, rfl, hne⟩
      · obtain ⟨h1, h2, h3, h4⟩ := findObj_spec h
        unfold ALIGN at h1 h3
        exact ⟨by omega, h2, by omega, h4⟩
    · cases h

/-- A block in hand becomes the reserve. -/
theorem setReserve_inv {p bytes : ℕ} (h : Held elem s L [⟨p, bytes⟩]) (hlt : p + bytes < 2 ^ 64) (h8 : bytes % 8 = 0) :
    Inv elem (s.setReserve p bytes) L := by
  have hsub : p + bytes - p = bytes := Nat.add_sub_cancel_left p bytes
  refine ⟨?_, Nat.le_add_right p bytes, hlt, ?_⟩
  · show Held elem s L ([] ++ [⟨p, p + bytes - p⟩])
    rw [hsub]
    exact h
  · show (p + bytes - p) % 8 = 0
    rw [hsub]
    exact h8

theorem setReserve_left {p bytes : ℕ} (hlt : p + bytes < 2 ^ 64) : (s.setReserve p bytes).bytesLeft = bytes := by
  show size64 (p + bytes + 2 ^ 64 - p) = bytes
  unfold size64
  omega

/-- A block from `malloc` becomes the reserve. -/
theorem grown_spec {p bytes : ℕ} (h : Held elem s L []) (hf : Fresh s.mallocs ⟨p, bytes⟩) (h8 : bytes % 8 = 0)
    (hs : s' = MyAllocator.grown { s with mallocs := ⟨p, bytes⟩ :: s.mallocs } p bytes) :
    Inv elem s' L ∧ s'.live = s.live ∧ s'.bytesLeft = bytes := by
  subst hs
  have hinv := setReserve_inv (s := { s with mallocs := ⟨p, bytes⟩ :: s.mallocs }) (h.malloc hf) hf.2.2.1 h8
  exact ⟨⟨hinv.held, hinv.le, hinv.lt, hinv.whole⟩, rfl, setReserve_left (s := s) hf.2.2.1⟩

/-- Enough for the recursive call, or an empty reserve and no change but where the
left-over piece went. -/
theorem grow_spec (h : Inv elem s L) {i nobjs : ℕ} (hi : i < NFREELISTS) (hlt : s.bytesLeft < ALIGN * (i + 1))
    (hn : 0 < nobjs) {answers : Answers} {ok : Bool} (hg : s.grow (ALIGN * (i + 1)) nobjs answers = some (s', ok)) :
    ∃ L', Inv elem s' L' ∧ (L i = [] → L' i = []) ∧ s'.live = s.live ∧
      (ok = true → ALIGN * (i + 1) ≤ s'.bytesLeft) ∧ (ok = false → s'.startFree = 0 ∧ s'.endFree = 0) := by
  have h16 : i < 16 := hi
  have hleft := h.bytesLeft_eq
  have hwhole := h.whole
  have hmax : s.bytesLeft ≤ MAX_BYTES := by
    unfold ALIGN at hlt
    unfold MAX_BYTES
    omega
  obtain ⟨L₁, hL₁, hkeep⟩ := fileLeftover_spec h hmax
  have hempty : L i = [] → L₁ i = [] := by
    intro hL
    rw [hkeep i (by unfold ALIGN at *; omega), hL]
  have hlive : s.fileLeftover.live = s.live := by
    unfold fileLeftover
    split <;> rfl
  have hbytes : s.bytesToGet (ALIGN * (i + 1)) nobjs % 8 = 0 ∧
      ALIGN * (i + 1) ≤ s.bytesToGet (ALIGN * (i + 1)) nobjs := by
    have hround := roundUp_mod (s.heapSize / 2 ^ 4)
    have hmul : ALIGN * (i + 1) ≤ ALIGN * (i + 1) * nobjs := Nat.le_mul_of_pos_right _ hn
    have hmod : ALIGN * (i + 1) * nobjs % 8 = 0 := by
      rw [ALIGN, Nat.mul_assoc]
      exact Nat.mul_mod_right 8 _
    unfold bytesToGet
    omega
  generalize hb : s.bytesToGet (ALIGN * (i + 1)) nobjs = bytes at hbytes
  simp only [grow, hb] at hg
  generalize hs₁ : s.fileLeftover = s₁ at hg hL₁ hlive
  split at hg
  · cases hg
  · rename_i t p rest hm
    cases hg
    rcases malloc_cases hm with ⟨hp, -⟩ | ⟨q, hq, hf, ht⟩
    · cases hp
    · cases hq
      subst ht
      obtain ⟨hinv, hlive', hleft'⟩ := grown_spec hL₁ hf hbytes.1 rfl
      refine ⟨L₁, hinv, hempty, hlive'.trans hlive, fun _ => ?_, fun hfail => by cases hfail⟩
      exact Nat.le_trans hbytes.2 (Nat.le_of_eq hleft'.symm)
  · rename_i t rest hm
    rcases malloc_cases hm with ⟨-, rfl⟩ | ⟨q, hq, -⟩
    swap
    · cases hq
    split at hg
    · -- An object of a larger list becomes the reserve.
      rename_i j hj
      cases hg
      obtain ⟨hge, hle, hmod, hne⟩ := findObj_spec hj
      have hj0 : 0 < j := by
        unfold ALIGN at hge
        omega
      have hj8 : j % 8 = 0 := by
        rw [hmod, ALIGN]
        exact Nat.mul_mod_right 8 _
      have hsize : ALIGN * (freelistIndex j + 1) = j := by
        rw [roundUp_index hj0 hle, roundUp_eq hle]
        omega
      have hpop := hL₁.pop (freelistIndex_lt hj0 hle) hne
      rw [hsize] at hpop
      have htop := hpop.lt_top hj0
      refine ⟨_, setReserve_inv (s := t.pop (freelistIndex j)) hpop htop hj8, fun hL => ?_, hlive, fun _ => ?_,
        fun hfail => by cases hfail⟩
      · by_cases hji : freelistIndex j = i
        · rw [hji, Function.update_self, hempty hL, List.tail_nil]
        · rw [Function.update_of_ne (Ne.symm hji), hempty hL]
      · rw [setReserve_left htop]
        exact hge
    · split at hg
      · cases hg
      · rename_i u p rest' hm'
        cases hg
        rcases malloc_cases hm' with ⟨hp, -⟩ | ⟨q, hq, hf, hu⟩
        · cases hp
        · cases hq
          subst hu
          obtain ⟨hinv, hlive', hleft'⟩ := grown_spec (s := t.setReserve 0 0) hL₁ hf hbytes.1 rfl
          refine ⟨L₁, hinv, hempty, hlive'.trans hlive, fun _ => ?_, fun hfail => by cases hfail⟩
          exact Nat.le_trans hbytes.2 (Nat.le_of_eq hleft'.symm)
      · rename_i u rest' hm'
        cases hg
        rcases malloc_cases hm' with ⟨-, rfl⟩ | ⟨q, hq, -⟩
        · exact ⟨L₁, setReserve_inv (hL₁.empty rfl) (Nat.two_pow_pos 64) rfl, hempty, hlive,
            fun hok => (by cases hok), fun _ => ⟨rfl, rfl⟩⟩
        · cases hq

/-- As many objects as there are bytes for, and no more than asked for. -/
theorem chunkFrom_eq {size nobjs : ℕ} (hpos : 0 < size) (hle : size ≤ s.bytesLeft) (hn : 0 < nobjs) :
    ∃ k, 0 < k ∧ k ≤ nobjs ∧ size * k ≤ s.bytesLeft ∧
      s.chunkFrom size nobjs = ({ s with startFree := s.startFree + size * k }, s.startFree, k) := by
  unfold chunkFrom
  split
  · rename_i hfit
    exact ⟨nobjs, hn, Nat.le_refl _, hfit, rfl⟩
  · rename_i hfew
    refine ⟨s.bytesLeft / size, Nat.div_pos hle hpos, ?_, Nat.mul_div_le _ _, rfl⟩
    exact Nat.div_le_of_le_mul (Nat.le_of_lt (Nat.not_le.1 hfew))

/-- Objects from the front of the reserve. -/
theorem chunkFrom_spec (h : Inv elem s L) {size nobjs : ℕ} (hpos : 0 < size) (h8 : size % 8 = 0)
    (hle : size ≤ s.bytesLeft) (hn : 0 < nobjs) :
    ∃ k, 0 < k ∧ (s.chunkFrom size nobjs).2 = (s.startFree, k) ∧ (s.chunkFrom size nobjs).1.live = s.live ∧
      InvWith elem (s.chunkFrom size nobjs).1 L [⟨s.startFree, size * k⟩] := by
  have hleft := h.bytesLeft_eq
  have hwhole := h.whole
  have hse := h.le
  obtain ⟨k, hk, -, hfit, heq⟩ := chunkFrom_eq hpos hle hn
  rw [heq]
  refine ⟨k, hk, rfl, rfl, ?_, ?_, h.lt, ?_⟩
  · -- The reserve gives way to the objects and what is left.
    have hheld : Held elem s L [⟨s.startFree, s.endFree - s.startFree⟩] := h.held
    have hsep : Separate [⟨s.startFree, size * k⟩, ⟨s.startFree + size * k, s.endFree - (s.startFree + size * k)⟩] := by
      refine Separate.add (List.pairwise_singleton _ _) fun b hb => ?_
      rw [List.mem_singleton.1 hb]
      unfold Apart
      simp
    refine hheld.replace hsep fun b hb => ?_
    unfold Within
    simp only [List.mem_cons, List.not_mem_nil, or_false] at hb
    rcases hb with rfl | rfl
    · simp only
      omega
    · simp only
      omega
  · show s.startFree + size * k ≤ s.endFree
    omega
  · show (s.endFree - (s.startFree + size * k)) % 8 = 0
    have hmod : size * k % 8 = 0 := by rw [Nat.mul_mod, h8, Nat.zero_mul, Nat.zero_mod]
    omega

theorem chunkAlloc_spec (h : Inv elem s L) {i nobjs : ℕ} (hi : i < NFREELISTS) (hL : L i = []) (hn : 0 < nobjs)
    {answers : Answers} {r : Option (ℕ × ℕ)} (hc : s.chunkAlloc (ALIGN * (i + 1)) nobjs answers = some (s', r)) :
    ∃ L', L' i = [] ∧ s'.live = s.live ∧
      (r = none ∧ Inv elem s' L' ∨
        ∃ p k, r = some (p, k) ∧ 0 < k ∧ InvWith elem s' L' [⟨p, ALIGN * (i + 1) * k⟩]) := by
  have hpos : 0 < ALIGN * (i + 1) := by
    unfold ALIGN
    omega
  have h8 : ALIGN * (i + 1) % 8 = 0 := Nat.mul_mod_right 8 _
  unfold chunkAlloc at hc
  split at hc
  · rename_i hle
    obtain ⟨k, hk, hr, hlive, hinv⟩ := chunkFrom_spec h hpos h8 hle hn
    cases hc
    exact ⟨L, hL, hlive, .inr ⟨_, k, by rw [hr], hk, hinv⟩⟩
  · rename_i hlt
    split at hc
    · cases hc
    · rename_i t hg
      cases hc
      obtain ⟨L', hinv, hL', hlive, -⟩ := grow_spec h hi (Nat.not_le.1 hlt) hn hg
      exact ⟨L', hL' hL, hlive, .inl ⟨rfl, hinv⟩⟩
    · rename_i t hg
      cases hc
      obtain ⟨L', hinv, hL', hlive, hleft, -⟩ := grow_spec h hi (Nat.not_le.1 hlt) hn hg
      obtain ⟨k, hk, hr, hlive', hinv'⟩ := chunkFrom_spec hinv hpos h8 (hleft rfl) hn
      exact ⟨L', hL' hL, hlive'.trans hlive, .inr ⟨_, k, by rw [hr], hk, hinv'⟩⟩

/-! ## `allocate` and `deallocate` -/

/-- The first object of a chunk is the result, the others become a list. -/
theorem refill_rest {n chunk m i : ℕ} (h : InvWith elem s L [⟨chunk, n * (m + 2)⟩]) (hi : i < NFREELISTS)
    (hn : n = ALIGN * (i + 1)) (hL : L i = []) :
    ∃ L', InvWith elem { s with
      freeList := Function.update s.freeList i (chunk + n)
      link := linkObjs n m (chunk + n) s.link } L' [⟨chunk, n⟩] := by
  have hheld : Held elem s L (pieces n chunk (m + 2) ++ [⟨s.startFree, s.endFree - s.startFree⟩]) :=
    Blocks.replace h.held (pieces_separate _ _) (pieces_within _ _)
  have hmid : Held elem s L (pieces n (chunk + n) (m + 1) ++
      ([⟨chunk, n⟩] ++ [⟨s.startFree, s.endFree - s.startFree⟩])) :=
    Blocks.perm hheld List.perm_middle.symm
  exact ⟨_, hmid.relink hi hn hL, h.le, h.lt, h.whole⟩

theorem refill_spec (h : Inv elem s L) {i n : ℕ} (hi : i < NFREELISTS) (hn : n = ALIGN * (i + 1))
    (hindex : freelistIndex n = i) (hL : L i = []) {answers : Answers} {r : Option ℕ}
    (hr : s.refill n answers = some (s', r)) :
    ∃ L', s'.live = s.live ∧ (r = none ∧ Inv elem s' L' ∨ ∃ p, r = some p ∧ InvWith elem s' L' [⟨p, n⟩]) := by
  have hspec : ∀ {t r}, s.chunkAlloc n 20 answers = some (t, r) → ∃ L', L' i = [] ∧ t.live = s.live ∧
      (r = none ∧ Inv elem t L' ∨ ∃ p k, r = some (p, k) ∧ 0 < k ∧ InvWith elem t L' [⟨p, n * k⟩]) := by
    intro t r hc
    rw [hn] at hc ⊢
    exact chunkAlloc_spec h hi hL (by decide) hc
  rw [refill, hindex] at hr
  split at hr
  · cases hr
  · rename_i t hc
    cases hr
    obtain ⟨L', -, hlive, ⟨-, hinv⟩ | ⟨p, k, hp, -⟩⟩ := hspec hc
    · exact ⟨L', hlive, .inl ⟨rfl, hinv⟩⟩
    · cases hp
  · rename_i t chunk nobjs hc
    obtain ⟨L', hL', hlive, ⟨hnone, -⟩ | ⟨p, k, hp, hk, hinv⟩⟩ := hspec hc
    · cases hnone
    cases hp
    split at hr
    · rename_i hone
      cases hr
      rw [hone, Nat.mul_one] at hinv
      exact ⟨L', hlive, .inr ⟨_, rfl, hinv⟩⟩
    · rename_i hone
      cases hr
      obtain ⟨m, rfl⟩ : ∃ m, nobjs = m + 2 := ⟨nobjs - 2, by omega⟩
      obtain ⟨L'', hinv'⟩ := refill_rest hinv hi hn hL'
      exact ⟨L'', hlive, .inr ⟨_, rfl, hinv'⟩⟩

theorem freelistIndex_roundUp {bytes : ℕ} (h0 : 0 < bytes) (h : bytes ≤ MAX_BYTES) :
    freelistIndex (roundUp bytes) = freelistIndex bytes := by
  have hle : bytes ≤ 128 := h
  have hround := roundUp_eq h
  have h1 : 0 < roundUp bytes := by omega
  have h2 : roundUp bytes ≤ MAX_BYTES := by
    unfold MAX_BYTES
    omega
  rw [freelistIndex_eq h1 h2, freelistIndex_eq h0 h, hround]
  omega

/-- Nothing but memory that is free or new is handed out. -/
theorem allocate_spec (h : Inv elem s L) {n : ℕ} (hpos : 0 < n * elem) (hlt : n * elem < 2 ^ 64) {answers : Answers}
    {r : Option ℕ} (ha : s.allocate elem n answers = some (s', r)) :
    ∃ L', s'.live = s.live ∧
      (r = none ∧ Inv elem s' L' ∨ ∃ p, r = some p ∧ InvWith elem s' L' [⟨p, owned elem n⟩] ∧
        (MAX_BYTES < n * elem → ⟨p, n * elem⟩ ∈ s'.mallocs)) := by
  have hbytes : size64 (n * elem) = n * elem := Nat.mod_eq_of_lt hlt
  simp only [allocate, hbytes] at ha
  split at ha
  · rename_i hbig
    obtain ⟨⟨t, p, rest⟩, hm, he⟩ := Option.map_eq_some_iff.1 ha
    cases he
    rcases malloc_cases hm with ⟨hr, ht⟩ | ⟨q, hq, hf, ht⟩
    · subst ht
      exact ⟨L, rfl, .inl ⟨hr, h⟩⟩
    · subst ht
      refine ⟨L, rfl, .inr ⟨q, hq, ⟨?_, h.le, h.lt, h.whole⟩, fun _ => List.mem_cons_self⟩⟩
      rw [owned, if_pos hbig]
      exact Blocks.malloc h.held hf
  · rename_i hsmall
    have hle := Nat.not_lt.1 hsmall
    have hi := freelistIndex_lt hpos hle
    have hsize := roundUp_index hpos hle
    have howned : owned elem n = roundUp (n * elem) := if_neg hsmall
    rw [howned]
    split at ha
    · rename_i hnull
      have hL : L (freelistIndex (n * elem)) = [] := by
        have := h.held.linked _ hi
        rw [hnull] at this
        exact this.eq_nil
      obtain ⟨L', hlive, hr⟩ := refill_spec h hi hsize.symm (freelistIndex_roundUp hpos hle) hL ha
      rcases hr with hr | ⟨p, hp, hinv⟩
      · exact ⟨L', hlive, .inl hr⟩
      · exact ⟨L', hlive, .inr ⟨p, hp, hinv, fun hbig => absurd hbig hsmall⟩⟩
    · rename_i hne
      cases ha
      have hpop := Blocks.pop h.held hi hne
      rw [hsize] at hpop
      exact ⟨_, rfl, .inr ⟨_, rfl, ⟨hpop, h.le, h.lt, h.whole⟩, fun hbig => absurd hbig hsmall⟩⟩

/-- A block is filed, if it is not too large, on a list for blocks no larger. -/
theorem deallocate_inv (h : Inv elem s L) (helem : 0 < elem) {p n : ℕ} (hb : (p, n) ∈ s.live) :
    ∃ L', Inv elem { s.deallocate elem p n with live := s.live.erase (p, n) } L' := by
  have hn : 0 < n := h.held.asked _ hb
  have hmul : n ≤ n * elem := Nat.le_mul_of_pos_right n helem
  have htake := Blocks.take h.held hb
  unfold deallocate
  split
  · rename_i hbig
    have howned : owned elem n = n * elem := if_pos (Nat.lt_of_lt_of_le hbig hmul)
    simp only [howned] at htake
    exact ⟨L, htake.free helem (by simp only; omega), h.le, h.lt, h.whole⟩
  · rename_i hsmall
    have hle := Nat.not_lt.1 hsmall
    have hfits : ALIGN * (freelistIndex n + 1) ≤ owned elem n := by
      rw [roundUp_index hn hle, roundUp_eq hle, owned]
      unfold MAX_BYTES at *
      split
      · omega
      · rename_i hx
        rw [roundUp_eq (Nat.not_lt.1 hx)]
        omega
    have hi := freelistIndex_lt hn hle
    generalize freelistIndex n = i at hi hfits ⊢
    exact ⟨_, htake.push hi hfits, h.le, h.lt, h.whole⟩

theorem step_inv (helem : 0 < elem) {op : Op} (h : Inv elem s L) (hs : step elem s op = some s') :
    ∃ L', Inv elem s' L' := by
  cases op with
  | allocate n answers =>
    simp only [step] at hs
    split at hs
    · rename_i hn
      have hpos : 0 < n * elem := Nat.mul_pos hn.1 helem
      split at hs
      · cases hs
      · rename_i t ha
        cases hs
        obtain ⟨L', -, ⟨-, hinv⟩ | ⟨p, hp, -⟩⟩ := allocate_spec h hpos hn.2 ha
        · exact ⟨L', hinv⟩
        · cases hp
      · rename_i t p ha
        cases hs
        obtain ⟨L', -, ⟨hr, -⟩ | ⟨q, hq, hinv, hlarge⟩⟩ := allocate_spec h hpos hn.2 ha
        · cases hr
        · cases hq
          refine ⟨L', Blocks.give hinv.held hn.1 rfl fun hbig => hlarge ?_, hinv.le, hinv.lt, hinv.whole⟩
          exact Nat.lt_of_lt_of_le hbig (Nat.le_mul_of_pos_right n helem)
    · cases hs
  | deallocate p n =>
    simp only [step] at hs
    split at hs
    · rename_i hb
      cases hs
      exact deallocate_inv h helem hb
    · cases hs
  | write p n x words =>
    simp only [step] at hs
    split at hs
    · rename_i hw
      cases hs
      exact ⟨L, h.held.write hw.1 hw.2.1 hw.2.2 words, h.le, h.lt, h.whole⟩
    · cases hs

theorem run_inv (helem : 0 < elem) {link : ℕ → ℕ} {ops : List Op} (h : Run.run (step elem) (init link) ops = some s) :
    ∃ L, Inv elem s L := by
  refine Run.run_invariant (fun s => ∃ L, Inv elem s L) (fun s op t hi hs => ?_) ⟨_, init_inv elem link⟩ h
  obtain ⟨L, hi⟩ := hi
  exact step_inv helem hi hs

theorem free_starts (L : ℕ → List ℕ) : (free L).map Extent.start = (List.range NFREELISTS).flatMap L := by
  rw [free, List.map_flatMap]
  refine List.flatMap_congr fun i _ => ?_
  rw [listed, List.map_map]
  exact List.map_id _

/-- **The blocks stay apart.** After any history, with any answers of
`malloc`: the lists can be followed to their ends and hold no object twice;
their objects, with all the bytes their list is for, the blocks of the users
and the reserve are cut from what `malloc` gave without overlap; the reserve
is a multiple of 8 bytes; and what `allocate` returns next shares nothing with
a block that a user holds. -/
theorem run_safe {elem : ℕ} (helem : 0 < elem) {link : ℕ → ℕ} {ops : List Op} {s : MyAllocator}
    (h : Run.run (step elem) (init link) ops = some s) :
    (∃ L : ℕ → List ℕ, (∀ i < NFREELISTS, Linked s.link (s.freeList i) (L i)) ∧
      ((List.range NFREELISTS).flatMap L).Nodup ∧
      Cut s.mallocs (⟨s.startFree, s.endFree - s.startFree⟩ :: (free L ++ held elem s.live))) ∧
      s.startFree ≤ s.endFree ∧ (s.endFree - s.startFree) % 8 = 0 ∧
      ∀ n answers s' p, 0 < n → n * elem < 2 ^ 64 → s.allocate elem n answers = some (s', some p) →
        ∀ b ∈ s.live, Apart ⟨p, n * elem⟩ ⟨b.1, b.2 * elem⟩ := by
  obtain ⟨L, hinv⟩ := run_inv helem h
  have hcut : Cut s.mallocs (⟨s.startFree, s.endFree - s.startFree⟩ :: (free L ++ held elem s.live)) := hinv.held.cut
  refine ⟨⟨L, hinv.held.linked, ?_, hcut⟩, hinv.le, hinv.whole, ?_⟩
  · rw [← free_starts]
    refine Separate.nodup_start hcut.separate.tail.left fun a ha => ?_
    obtain ⟨i, -, hi⟩ := List.mem_flatMap.1 ha
    obtain ⟨p, -, rfl⟩ := List.mem_map.1 hi
    simp [ALIGN]
  · intro n answers s' p hn hlt ha b hb
    obtain ⟨L', hlive, ⟨hr, -⟩ | ⟨q, hq, hinv', -⟩⟩ := allocate_spec hinv (Nat.mul_pos hn helem) hlt ha
    · cases hr
    cases hq
    have hmem : (⟨b.1, owned elem b.2⟩ : Extent) ∈ held elem s'.live := List.mem_map.2 ⟨b, hlive ▸ hb, rfl⟩
    have hcut' : Cut s'.mallocs (⟨p, owned elem n⟩ :: ⟨s'.startFree, s'.endFree - s'.startFree⟩ ::
        (free L' ++ held elem s'.live)) := hinv'.held.cut
    have hap := hcut'.separate.apart (List.mem_cons_of_mem _ (List.mem_append_right _ hmem))
    have hp := owned_ge elem n
    have hb' := owned_ge elem b.2
    unfold Apart at *
    simp only at *
    omega

/-- Elements of 4 bytes: five of them, from a new reserve; forty of them, from
`malloc`, which are given back and filed among the blocks of 40 bytes; and a
request that `malloc` refuses. -/
def intOps : List Op :=
  [.allocate 5 [some 4096], .allocate 40 [some 65536], .deallocate 65536 40, .allocate 50 [none]]

theorem run_safe_ints :
    ∃ s, Run.run (step 4) (init fun _ => 0) intOps = some s ∧ s.live = [(4096, 5)] ∧ s.freeList 4 = 65536 ∧
      (s.endFree - s.startFree) % 8 = 0 ∧ ∃ l, Linked s.link (s.freeList 4) l := by
  have hrun : (Run.run (step 4) (init fun _ => 0) intOps).map (fun s => (s.live, s.freeList 4)) =
      some ([(4096, 5)], 65536) := by
    decide +kernel
  obtain ⟨s, hs, he⟩ := Option.map_eq_some_iff.1 hrun
  rw [Prod.mk.injEq] at he
  obtain ⟨⟨L, hlinked, -⟩, -, hwhole, -⟩ := run_safe (by decide) hs
  exact ⟨s, hs, he.1, he.2, hwhole, L 4, hlinked 4 (by decide)⟩

end Learncc.MyAllocator
