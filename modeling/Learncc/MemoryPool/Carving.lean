/-
Carving a span into blocks (`central_cache::get_one_span`,
src/memory_pool/central_cache.cc), with the links the loop writes into the
blocks. The loop compares where a block starts with the end of the span, not
where it ends: when the size does not divide the span, the last block reaches
out of it.

`carvedWell_iff_dvd`: carving is right exactly for the sizes that divide.
-/
import Mathlib.Order.CompletePartialOrder
import Mathlib.Order.Interval.Set.Disjoint
import Learncc.Lib.Linked
import Learncc.MemoryPool.AllocFacts

namespace Learncc

namespace Carving

/-- The loop, `next_block(cur) = next`, and the null behind it. -/
def linkBlocks (bytes stop : ℕ) : ℕ → (ℕ → ℕ) → ℕ → ℕ → Except Fault (ℕ → ℕ)
  | 0, _, _, _ => .error .undefined
  | fuel + 1, mem, cur, next =>
    if next < stop then linkBlocks bytes stop fuel (Function.update mem cur next) next (next + bytes)
    else .ok (Function.update mem cur 0)

/-- The part of `get_one_span` behind `new_span`: the memory with its links,
and `block_list_`. -/
def carveSpan (mem : ℕ → ℕ) (s : Span) (bytes : ℕ) : Except Fault ((ℕ → ℕ) × ℕ) := do
  let start := pageAddr s.pageId
  let stop := start + pageBytes s.npages
  .ok (← linkBlocks bytes stop (pageBytes s.npages) mem start (start + bytes), start)

/-- What carving is for: from `start` on, the blocks of the span, all of them
and nothing else. -/
structure Carved (mem : ℕ → ℕ) (s : Span) (bytes start : ℕ) (l : List ℕ) : Prop where
  linked : Linked mem start l
  nodup : l.Nodup
  disjoint : ∀ p ∈ l, ∀ q ∈ l, p ≠ q → Disjoint (Set.Ico p (p + bytes)) (Set.Ico q (q + bytes))
  inside : ∀ p ∈ l, Set.Ico p (p + bytes) ⊆ Set.Ico (s.pageId * 4096) ((s.pageId + s.npages) * 4096)
  all : ∀ i < s.npages * 4096 / bytes, s.pageId * 4096 + i * bytes ∈ l
  length : l.length = s.npages * 4096 / bytes

/-- The code returns a list that is carved as it should be. -/
def CarvedWell (mem : ℕ → ℕ) (s : Span) (bytes : ℕ) : Prop :=
  ∃ mem' start l, carveSpan mem s bytes = .ok (mem', start) ∧ Carved mem' s bytes start l

/-! ## The loop -/

theorem carve_ge {bytes stop : ℕ} : ∀ {fuel cur : ℕ} {l : List ℕ}, Pool.carve bytes stop fuel cur = .ok l →
    ∀ p ∈ l, cur ≤ p := by
  intro fuel
  induction fuel with
  | zero =>
    intro cur l h
    exact absurd h (by simp [Pool.carve])
  | succ fuel ih =>
    intro cur l h p hp
    unfold Pool.carve at h
    split at h
    · obtain ⟨m, hm, hl⟩ := bind_ok.1 h
      obtain rfl := Except.ok.inj hl
      rcases List.mem_cons.1 hp with rfl | hp
      · exact Nat.le_refl _
      · exact (Nat.le_add_right _ _).trans (ih hm p hp)
    · obtain rfl := Except.ok.inj h
      exact (List.mem_singleton.1 hp).ge

/-- The links make the list that the allocator's model has in their place. -/
theorem linkBlocks_of_carve {bytes stop : ℕ} (hb : 0 < bytes) : ∀ {fuel cur : ℕ} {l : List ℕ} (mem : ℕ → ℕ),
    0 < cur → Pool.carve bytes stop fuel cur = .ok l →
    ∃ mem', linkBlocks bytes stop fuel mem cur (cur + bytes) = .ok mem' ∧ Linked mem' cur l ∧
      ∀ a ∉ l, mem' a = mem a := by
  intro fuel
  induction fuel with
  | zero =>
    intro cur l mem _ h
    exact absurd h (by simp [Pool.carve])
  | succ fuel ih =>
    intro cur l mem hcur h
    unfold Pool.carve at h
    unfold linkBlocks
    split at h
    · rename_i hlt
      obtain ⟨m, hm, hl⟩ := bind_ok.1 h
      obtain rfl := Except.ok.inj hl
      obtain ⟨mem', heq, hlinked, hsame⟩ := ih (Function.update mem cur (cur + bytes)) (by omega) hm
      have hnot : cur ∉ m := fun hmem => by
        have := carve_ge hm cur hmem
        omega
      refine ⟨mem', by rw [if_pos hlt, heq], ⟨rfl, by omega, ?_⟩, ?_⟩
      · rw [hsame cur hnot, Function.update_self]
        exact hlinked
      · intro a ha
        obtain ⟨hne, ham⟩ := not_or.1 (mt List.mem_cons.2 ha)
        rw [hsame a ham, Function.update_of_ne hne]
    · rename_i hlt
      obtain rfl := Except.ok.inj h
      refine ⟨_, if_neg hlt, ⟨rfl, by omega, Function.update_self ..⟩, ?_⟩
      intro a ha
      exact Function.update_of_ne (mt List.mem_singleton.2 ha) _ _

/-! ## A span -/

variable {s : Span} {bytes : ℕ}

/-- Carving returns the starts that lie in the span. -/
theorem carveSpan_spec (mem : ℕ → ℕ) (hb : 0 < bytes) (hid : 0 < s.pageId) (hn : 0 < s.npages)
    (htop : (s.pageId + s.npages) * 4096 < 2 ^ 64) :
    ∃ mem', carveSpan mem s bytes = .ok (mem', s.pageId * 4096) ∧
      Linked mem' (s.pageId * 4096) ({ s with blockSize := bytes } : Span).blocks := by
  have haddr : pageAddr s.pageId = s.pageId * 4096 := by
    unfold pageAddr size64 PAGESHIFT
    omega
  have hlen : pageBytes s.npages = s.npages * 4096 := by
    unfold pageBytes size64 PAGESHIFT
    omega
  have hcarve := Pool.carve_eq hb (s.npages * 4096) (s.npages * 4096) (s.pageId * 4096) (by omega) (Nat.le_refl _)
  obtain ⟨mem', heq, hlinked, -⟩ := linkBlocks_of_carve hb mem (by omega) hcarve
  refine ⟨mem', ?_, hlinked⟩
  simp only [carveSpan, haddr, hlen, heq, bind, Except.bind]

/-- The starts, when the size divides the span. -/
theorem carved_of_dvd {mem : ℕ → ℕ} (hb : 0 < bytes) (hdvd : bytes ∣ s.npages * 4096)
    (h : Linked mem (s.pageId * 4096) ({ s with blockSize := bytes } : Span).blocks) :
    Carved mem s bytes (s.pageId * 4096) ({ s with blockSize := bytes } : Span).blocks := by
  obtain ⟨k, hk⟩ := hdvd
  have hfloor : s.npages * 4096 / bytes = k := by
    rw [hk, Nat.mul_div_cancel_left _ hb]
  have hceil : (s.npages * 4096 + bytes - 1) / bytes = k := by
    rw [hk, Nat.add_sub_assoc hb, Nat.mul_add_div hb, Nat.div_eq_of_lt (by omega), Nat.add_zero]
  have hmem : ∀ p, p ∈ ({ s with blockSize := bytes } : Span).blocks ↔ ∃ i < k, s.pageId * 4096 + i * bytes = p := by
    intro p
    show p ∈ (List.range ((s.npages * 4096 + bytes - 1) / bytes)).map _ ↔ _
    rw [hceil]
    simp [PAGESHIFT]
  refine ⟨h, h.nodup, ?_, ?_, ?_, ?_⟩
  · intro p hp q hq hne
    obtain ⟨i, -, rfl⟩ := (hmem p).1 hp
    obtain ⟨j, -, rfl⟩ := (hmem q).1 hq
    have hij : i ≠ j := fun heq => hne (by rw [heq])
    rw [Set.Ico_disjoint_Ico]
    rcases Nat.lt_or_gt_of_ne hij with hlt | hlt
    · have := Nat.mul_le_mul_right bytes (Nat.succ_le_of_lt hlt)
      rw [Nat.succ_mul] at this
      omega
    · have := Nat.mul_le_mul_right bytes (Nat.succ_le_of_lt hlt)
      rw [Nat.succ_mul] at this
      omega
  · intro p hp
    obtain ⟨i, hi, rfl⟩ := (hmem p).1 hp
    have hle : (i + 1) * bytes ≤ s.npages * 4096 := by
      rw [hk, Nat.mul_comm bytes]
      exact Nat.mul_le_mul_right bytes hi
    rw [Nat.succ_mul] at hle
    rw [Nat.add_mul]
    exact Set.Ico_subset_Ico (by omega) (by omega)
  · intro i hi
    exact (hmem _).2 ⟨i, hfloor ▸ hi, rfl⟩
  · show ((List.range ((s.npages * 4096 + bytes - 1) / bytes)).map _).length = _
    rw [hceil, hfloor, List.length_map, List.length_range]

/-- When the size does not divide the span, one start too many lies in it. -/
theorem not_carved_of_not_dvd {mem : ℕ → ℕ} {l : List ℕ} (hb : 0 < bytes) (hdvd : ¬ bytes ∣ s.npages * 4096)
    (h : Linked mem (s.pageId * 4096) ({ s with blockSize := bytes } : Span).blocks) :
    ¬ Carved mem s bytes (s.pageId * 4096) l := by
  intro hc
  have hlen := hc.length
  rw [hc.linked.unique h] at hlen
  have hdiv := Nat.div_add_mod (s.npages * 4096) bytes
  have hmod : 0 < s.npages * 4096 % bytes := Nat.pos_of_ne_zero (mt Nat.dvd_of_mod_eq_zero hdvd)
  have hceil : s.npages * 4096 / bytes + 1 ≤ (s.npages * 4096 + bytes - 1) / bytes := by
    rw [Nat.le_div_iff_mul_le hb, Nat.succ_mul, Nat.mul_comm]
    omega
  simp only [Span.blocks, PAGESHIFT, Nat.reducePow, List.length_map, List.length_range] at hlen
  omega

theorem carvedWell_iff (mem : ℕ → ℕ) (hb : 0 < bytes) (hid : 0 < s.pageId) (hn : 0 < s.npages)
    (htop : (s.pageId + s.npages) * 4096 < 2 ^ 64) : CarvedWell mem s bytes ↔ bytes ∣ s.npages * 4096 := by
  obtain ⟨mem', heq, hlinked⟩ := carveSpan_spec mem hb hid hn htop
  constructor
  · intro hwell
    obtain ⟨_, _, l, heq', hc⟩ := hwell
    obtain ⟨rfl, rfl⟩ := Prod.mk.inj (Except.ok.inj (heq.symm.trans heq'))
    by_contra hdvd
    exact not_carved_of_not_dvd hb hdvd hlinked hc
  · intro hdvd
    exact ⟨mem', _, _, heq, carved_of_dvd hb hdvd hlinked⟩

/-- **Carving.** A span is cut into its blocks exactly when the block size
divides it; no other size that fits in the span is carved well. -/
theorem carvedWell_iff_dvd (mem : ℕ → ℕ) (h8 : 8 ≤ bytes) (_haligned : 8 ∣ bytes) (hn : 1 ≤ s.npages)
    (_hfits : bytes ≤ s.npages * 4096) (hid : 0 < s.pageId) (htop : (s.pageId + s.npages) * 4096 < 2 ^ 64) :
    CarvedWell mem s bytes ↔ bytes ∣ s.npages * 4096 :=
  carvedWell_iff mem (by omega) hid hn htop

/-- Blocks of 144 bytes, in the 15 pages that `move_page` gives them. -/
def span144 : Span := Span.new 1 (SizeClass.movePage 144) 0

/-- Blocks of 128 bytes divide their span of 16 pages. -/
theorem carvedWell_128 : CarvedWell (fun _ => 0) (Span.new 1 (SizeClass.movePage 128) 0) 128 :=
  (carvedWell_iff_dvd (fun _ => 0) (by decide) (by decide) (by decide) (by decide) (by decide) (by decide)).2
    (by decide)

/-- The span that a request of 144 bytes is served from is not carved well:
its 427th block ends 48 bytes behind it. -/
theorem not_carvedWell_144 : 8 ∣ 144 ∧ 144 ≤ span144.npages * 4096 ∧ ¬ CarvedWell (fun _ => 0) span144 144 := by
  refine ⟨by decide, by decide, fun hwell => ?_⟩
  have hdvd := (carvedWell_iff (fun _ => 0) (by decide) (by decide) (by decide) (by decide)).1 hwell
  exact absurd hdvd (by decide)

end Carving

end Learncc
