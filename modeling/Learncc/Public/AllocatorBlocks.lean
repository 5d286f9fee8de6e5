/-
Who has which bytes: the blocks on the free lists of `myallocator`, the blocks
its users hold, and what is in hand (the reserve, or a block on its way from
one to another).

`Blocks` says that they share nothing and lie in what `malloc` gave; there is
one lemma for each way a block changes hands.
-/
import Learncc.Public.MyAllocator

namespace Learncc.MyAllocator

open Extent

/-! ## Sizes -/

theorem roundUp_mod (bytes : ℕ) : roundUp bytes % 8 = 0 := by
  have hlt : size64 (bytes + ALIGN - 1) < 2 ^ 64 := Nat.mod_lt _ (Nat.two_pow_pos 64)
  have hland := SizeClass.land_highBits hlt (show 3 ≤ 64 by decide)
  rw [roundUp, SizeClass.roundUpTo, show ALIGN = 2 ^ 3 from rfl] at *
  rw [hland]
  exact Nat.mul_mod_left _ _

theorem roundUp_eq {bytes : ℕ} (h : bytes ≤ MAX_BYTES) : roundUp bytes = (bytes + 7) / 8 * 8 := by
  have hle : bytes ≤ 128 := h
  exact SizeClass.roundUpTo_eq bytes 3 (by decide) (by omega)

theorem freelistIndex_eq {bytes : ℕ} (h0 : 0 < bytes) (h : bytes ≤ MAX_BYTES) :
    freelistIndex bytes = (bytes + 7) / 8 - 1 := by
  have hle : bytes ≤ 128 := h
  exact SizeClass.indexIn_eq (k := 3) h0 (by omega)

theorem freelistIndex_lt {bytes : ℕ} (h0 : 0 < bytes) (h : bytes ≤ MAX_BYTES) : freelistIndex bytes < NFREELISTS := by
  have hle : bytes ≤ 128 := h
  rw [freelistIndex_eq h0 h, NFREELISTS]
  omega

/-- The objects on a list have the size that is asked of it. -/
theorem roundUp_index {bytes : ℕ} (h0 : 0 < bytes) (h : bytes ≤ MAX_BYTES) :
    ALIGN * (freelistIndex bytes + 1) = roundUp bytes := by
  rw [freelistIndex_eq h0 h, roundUp_eq h, ALIGN]
  omega

/-- A block has what was asked for. -/
theorem owned_ge (elem n : ℕ) : n * elem ≤ owned elem n := by
  unfold owned
  split
  · exact Nat.le_refl _
  · rename_i hle
    rw [roundUp_eq (Nat.not_lt.1 hle)]
    omega

/-! ## The blocks -/

/-- The objects on the list `i`, for the lists `L`. -/
def listed (L : ℕ → List ℕ) (i : ℕ) : List Extent := (L i).map fun p => ⟨p, ALIGN * (i + 1)⟩

def free (L : ℕ → List ℕ) : List Extent := (List.range NFREELISTS).flatMap (listed L)

def held (elem : ℕ) (live : List (ℕ × ℕ)) : List Extent := live.map fun b => ⟨b.1, owned elem b.2⟩

/-- The free lists hold the objects `L`; with the blocks that users hold and
those in hand, `Y`, they are cut from what `malloc` gave. -/
structure Blocks (elem : ℕ) (freeList link : ℕ → ℕ) (live : List (ℕ × ℕ)) (mallocs : List Extent) (L : ℕ → List ℕ)
    (Y : List Extent) : Prop where
  linked : ∀ i < NFREELISTS, Linked link (freeList i) (L i)
  cut : Cut mallocs (Y ++ (free L ++ held elem live))
  bounds : ∀ r ∈ mallocs, 0 < r.start ∧ r.start + r.size < 2 ^ 64
  /-- A block for `free` is all of what `malloc` gave. -/
  large : ∀ b ∈ live, MAX_BYTES < b.2 → ⟨b.1, b.2 * elem⟩ ∈ mallocs
  asked : ∀ b ∈ live, 0 < b.2

abbrev Held (elem : ℕ) (s : MyAllocator) (L : ℕ → List ℕ) (Y : List Extent) : Prop :=
  Blocks elem s.freeList s.link s.live s.mallocs L Y

/-- The lists other than `i`. -/
def others (L : ℕ → List ℕ) (i : ℕ) : List Extent := ((List.range NFREELISTS).erase i).flatMap (listed L)

theorem free_perm (L : ℕ → List ℕ) {i : ℕ} (hi : i < NFREELISTS) : (free L).Perm (listed L i ++ others L i) := by
  have hmem : i ∈ List.range NFREELISTS := List.mem_range.2 hi
  have := (List.perm_cons_erase hmem).flatMap_right (listed L)
  rwa [List.flatMap_cons] at this

theorem others_update (L : ℕ → List ℕ) (i : ℕ) (l : List ℕ) : others (Function.update L i l) i = others L i := by
  refine List.flatMap_congr fun j hj => ?_
  have hne : j ≠ i := fun he => (List.Nodup.not_mem_erase List.nodup_range) (he ▸ hj)
  rw [listed, listed, Function.update_of_ne hne]

/-- A list is exchanged for another. -/
theorem free_update (L : ℕ → List ℕ) {i : ℕ} (hi : i < NFREELISTS) (l : List ℕ) :
    (free (Function.update L i l)).Perm ((l.map fun p => ⟨p, ALIGN * (i + 1)⟩) ++ others L i) := by
  have := free_perm (Function.update L i l) hi
  rwa [others_update, listed, Function.update_self] at this

theorem free_cons (L : ℕ → List ℕ) {i : ℕ} (hi : i < NFREELISTS) {p : ℕ} {l : List ℕ} (hL : L i = p :: l) :
    (free L).Perm (⟨p, ALIGN * (i + 1)⟩ :: free (Function.update L i l)) := by
  refine (free_perm L hi).trans ?_
  rw [listed, hL, List.map_cons, List.cons_append]
  exact .cons _ (free_update L hi l).symm

theorem mem_free {L : ℕ → List ℕ} {i p : ℕ} (hi : i < NFREELISTS) (hp : p ∈ L i) :
    (⟨p, ALIGN * (i + 1)⟩ : Extent) ∈ free L :=
  List.mem_flatMap.2 ⟨i, List.mem_range.2 hi, List.mem_map.2 ⟨p, hp, rfl⟩⟩

/-! ## The objects of a chunk -/

section

variable {n p k : ℕ} {link : ℕ → ℕ}

theorem mem_pieces : ∀ {k p : ℕ} {b : Extent}, b ∈ pieces n p k → p ≤ b.start ∧ b.size = n
  | 0, _, _, hb => by cases hb
  | k + 1, p, b, hb => by
    rw [pieces, List.mem_cons] at hb
    rcases hb with rfl | hb
    · exact ⟨Nat.le_refl _, rfl⟩
    · obtain ⟨hle, hsize⟩ := mem_pieces hb
      exact ⟨by omega, hsize⟩

/-- The loop writes to the objects only. -/
theorem linkObjs_frame : ∀ {k p : ℕ} {link : ℕ → ℕ} {q : ℕ}, (∀ b ∈ pieces n p (k + 1), b.start ≠ q) →
    linkObjs n k p link q = link q
  | 0, p, link, q, hq => Function.update_of_ne (hq ⟨p, n⟩ List.mem_cons_self).symm _ _
  | k + 1, p, link, q, hq => by
    rw [linkObjs, linkObjs_frame fun b hb => hq b (List.mem_cons_of_mem _ hb)]
    exact Function.update_of_ne (hq ⟨p, n⟩ List.mem_cons_self).symm _ _

theorem linkObjs_linked (hn : 0 < n) : ∀ {k p : ℕ} {link : ℕ → ℕ}, p ≠ 0 →
    Linked (linkObjs n k p link) p ((pieces n p (k + 1)).map Extent.start)
  | 0, p, link, hp => ⟨rfl, hp, Function.update_self ..⟩
  | k + 1, p, link, hp => by
    refine ⟨rfl, hp, ?_⟩
    have hnext : linkObjs n (k + 1) p link p = p + n := by
      rw [linkObjs, linkObjs_frame fun b hb => ?_, Function.update_self]
      have := (mem_pieces hb).1
      omega
    simp only
    rw [hnext]
    exact linkObjs_linked hn (by omega)

end

namespace Blocks

variable {elem : ℕ} {freeList link : ℕ → ℕ} {live : List (ℕ × ℕ)} {mallocs : List Extent} {L : ℕ → List ℕ}
  {Y Z : List Extent} {a : Extent}

theorem perm (h : Blocks elem freeList link live mallocs L Y) (hp : Y.Perm Z) :
    Blocks elem freeList link live mallocs L Z :=
  { h with cut := h.cut.perm (hp.append_right _) }

theorem drop (h : Blocks elem freeList link live mallocs L (a :: Y)) : Blocks elem freeList link live mallocs L Y :=
  { h with cut := h.cut.tail }

theorem replace (h : Blocks elem freeList link live mallocs L (a :: Y)) (hZ : Separate Z) (hin : ∀ b ∈ Z, b.Within a) :
    Blocks elem freeList link live mallocs L (Z ++ Y) := by
  refine { h with cut := ?_ }
  rw [List.append_assoc]
  exact h.cut.replace hZ hin

/-- An extent in hand is on no list. -/
theorem not_mem (h : Blocks elem freeList link live mallocs L (a :: Y)) (ha : 0 < a.size) {i : ℕ}
    (hi : i < NFREELISTS) : a.start ∉ L i := by
  intro hp
  have hap := h.cut.separate.apart (List.mem_append_right Y (List.mem_append_left _ (mem_free hi hp)))
  unfold Apart ALIGN at hap
  simp only at hap
  omega

/-- `malloc` gives nothing at the address 0. -/
theorem ne_zero (h : Blocks elem freeList link live mallocs L (a :: Y)) (ha : 0 < a.size) : a.start ≠ 0 := by
  rcases h.cut.within a List.mem_cons_self with hz | ⟨r, hr, hw⟩
  · omega
  · have := (h.bounds r hr).1
    unfold Within at hw
    omega

theorem lt_top (h : Blocks elem freeList link live mallocs L (a :: Y)) (ha : 0 < a.size) :
    a.start + a.size < 2 ^ 64 := by
  rcases h.cut.within a List.mem_cons_self with hz | ⟨r, hr, hw⟩
  · omega
  · have := (h.bounds r hr).2
    unfold Within at hw
    omega

theorem empty (h : Blocks elem freeList link live mallocs L Y) (ha : a.size = 0) :
    Blocks elem freeList link live mallocs L (a :: Y) := { h with cut := h.cut.empty ha }

/-- A block in hand goes to a list for blocks no larger. -/
theorem push (h : Blocks elem freeList link live mallocs L (a :: Y)) {i : ℕ} (hi : i < NFREELISTS)
    (hsize : ALIGN * (i + 1) ≤ a.size) :
    Blocks elem (Function.update freeList i a.start) (Function.update link a.start (freeList i)) live mallocs
      (Function.update L i (a.start :: L i)) Y := by
  have hpos : 0 < a.size := by
    unfold ALIGN at hsize
    omega
  refine { h with linked := fun j hj => ?_, cut := ?_ }
  · by_cases hji : j = i
    · subst hji
      rw [Function.update_self, Function.update_self]
      exact (h.linked j hj).push (h.ne_zero hpos) (h.not_mem hpos hj)
    · rw [Function.update_of_ne hji, Function.update_of_ne hji]
      exact (h.linked j hj).update (h.not_mem hpos hj)
  · have hcut := h.cut.replace (m := [⟨a.start, ALIGN * (i + 1)⟩]) (List.pairwise_singleton _ _) (fun b hb => by
      rw [List.mem_singleton.1 hb]
      unfold Within
      simp only
      omega)
    refine hcut.perm ?_
    have hfree := (free_update L hi (a.start :: L i)).trans (.cons _ (free_perm L hi).symm)
    have hall : (Y ++ (free (Function.update L i (a.start :: L i)) ++ held elem live)).Perm
        (Y ++ (⟨a.start, ALIGN * (i + 1)⟩ :: free L ++ held elem live)) := (hfree.append_right _).append_left Y
    refine List.Perm.trans ?_ hall.symm
    show (⟨a.start, ALIGN * (i + 1)⟩ :: (Y ++ (free L ++ held elem live))).Perm
      (Y ++ ⟨a.start, ALIGN * (i + 1)⟩ :: (free L ++ held elem live))
    exact List.perm_middle.symm

/-- The first object of a list is taken in hand. -/
theorem pop (h : Blocks elem freeList link live mallocs L Y) {i : ℕ} (hi : i < NFREELISTS) (hne : freeList i ≠ 0) :
    Blocks elem (Function.update freeList i (link (freeList i))) link live mallocs (Function.update L i (L i).tail)
      (⟨freeList i, ALIGN * (i + 1)⟩ :: Y) := by
  obtain ⟨l, hl, hlinked⟩ := (h.linked i hi).uncons hne
  rw [hl, List.tail_cons]
  refine { h with linked := fun j hj => ?_, cut := h.cut.perm ?_ }
  · by_cases hji : j = i
    · subst hji
      rw [Function.update_self, Function.update_self]
      exact hlinked
    · rw [Function.update_of_ne hji, Function.update_of_ne hji]
      exact h.linked j hj
  · have hall : (Y ++ (free L ++ held elem live)).Perm
        (Y ++ (⟨freeList i, ALIGN * (i + 1)⟩ :: free (Function.update L i l) ++ held elem live)) :=
      ((free_cons L hi hl).append_right _).append_left Y
    exact hall.trans List.perm_middle

/-- A block in hand goes to a user. -/
theorem give (h : Blocks elem freeList link live mallocs L (a :: Y)) {n : ℕ} (hn : 0 < n) (ha : a.size = owned elem n)
    (hlarge : MAX_BYTES < n → ⟨a.start, n * elem⟩ ∈ mallocs) :
    Blocks elem freeList link ((a.start, n) :: live) mallocs L Y := by
  refine { h with cut := h.cut.perm ?_, large := fun b hb => ?_, asked := fun b hb => ?_ }
  · have hheld : held elem ((a.start, n) :: live) = a :: held elem live := by
      rw [held, List.map_cons, ← ha]
      rfl
    rw [hheld, List.cons_append, ← List.append_assoc, ← List.append_assoc]
    exact List.perm_middle.symm
  · rcases List.mem_cons.1 hb with rfl | hb
    · exact hlarge
    · exact h.large b hb
  · rcases List.mem_cons.1 hb with rfl | hb
    · exact hn
    · exact h.asked b hb

/-- A user's block is taken in hand. -/
theorem take (h : Blocks elem freeList link live mallocs L Y) {b : ℕ × ℕ} (hb : b ∈ live) :
    Blocks elem freeList link (live.erase b) mallocs L (⟨b.1, owned elem b.2⟩ :: Y) := by
  refine { h with cut := h.cut.perm ?_, large := fun c hc => h.large c (List.mem_of_mem_erase hc),
                  asked := fun c hc => h.asked c (List.mem_of_mem_erase hc) }
  have hheld : (held elem live).Perm (⟨b.1, owned elem b.2⟩ :: held elem (live.erase b)) :=
    (List.perm_cons_erase hb).map _
  have hall : (Y ++ (free L ++ held elem live)).Perm
      ((Y ++ free L) ++ ⟨b.1, owned elem b.2⟩ :: held elem (live.erase b)) := by
    rw [← List.append_assoc]
    exact hheld.append_left _
  refine hall.trans (List.perm_middle.trans ?_)
  rw [List.append_assoc, List.cons_append]

/-- `malloc` gives a block. -/
theorem malloc (h : Blocks elem freeList link live mallocs L Y) (ha : Fresh mallocs a) :
    Blocks elem freeList link live (a :: mallocs) L (a :: Y) := by
  refine { h with cut := h.cut.enter ha.2.2.2, bounds := fun r hr => ?_, large := fun b hb hn => ?_ }
  · rcases List.mem_cons.1 hr with rfl | hr
    · exact ⟨ha.1, ha.2.2.1⟩
    · exact h.bounds r hr
  · exact List.mem_cons_of_mem a (h.large b hb hn)

/-- `free` takes a block that `malloc` gave. -/
theorem free (h : Blocks elem freeList link live mallocs L (a :: Y)) (helem : 0 < elem) (ha : 0 < a.size) :
    Blocks elem freeList link live (mallocs.erase a) L Y := by
  refine { h with cut := h.cut.leave, bounds := fun r hr => h.bounds r (List.mem_of_mem_erase hr),
                  large := fun b hb hn => ?_ }
  rw [List.mem_erase_of_ne]
  · exact h.large b hb hn
  -- Another large block is another extent.
  · intro he
    have hbig : MAX_BYTES < b.2 * elem := Nat.lt_of_lt_of_le hn (Nat.le_mul_of_pos_right _ helem)
    have hmem : a ∈ held elem live := by
      refine List.mem_map.2 ⟨b, hb, ?_⟩
      rw [owned, if_pos hbig]
      exact he
    have hap := h.cut.separate.apart (List.mem_append_right Y (List.mem_append_right _ hmem))
    unfold Apart at hap
    omega

/-- A user writes where it may. -/
theorem write (h : Blocks elem freeList link live mallocs L Y) {b : ℕ × ℕ} (hb : b ∈ live) {x : ℕ} (hx : b.1 ≤ x)
    (hlt : x < b.1 + b.2 * elem) (words : ℕ → ℕ) :
    Blocks elem freeList (fun p => if p ≤ x ∧ x < p + ALIGN then words p else link p) live mallocs L Y := by
  refine { h with linked := fun i hi => (h.linked i hi).congr fun p hp => if_neg ?_ }
  intro hpx
  have hmem : (⟨b.1, owned elem b.2⟩ : Extent) ∈ held elem live := List.mem_map.2 ⟨b, hb, rfl⟩
  have hap := h.cut.separate.right.across (mem_free hi hp) hmem
  have howned := owned_ge elem b.2
  unfold Apart ALIGN at *
  simp only at *
  omega

/-- A list that is empty gets the objects of a chunk. -/
theorem relink {n p k : ℕ} (h : Blocks elem freeList link live mallocs L (pieces n p (k + 1) ++ Y)) {i : ℕ}
    (hi : i < NFREELISTS) (hn : n = ALIGN * (i + 1)) (hL : L i = []) :
    Blocks elem (Function.update freeList i p) (linkObjs n k p link) live mallocs
      (Function.update L i ((pieces n p (k + 1)).map Extent.start)) Y := by
  have hpos : 0 < n := by
    rw [hn, ALIGN]
    omega
  refine { h with linked := fun j hj => ?_, cut := h.cut.perm ?_ }
  · by_cases hji : j = i
    · subst hji
      rw [Function.update_self, Function.update_self]
      refine linkObjs_linked hpos (Blocks.ne_zero (a := ⟨p, n⟩) h hpos)
    · rw [Function.update_of_ne hji, Function.update_of_ne hji]
      refine (h.linked j hj).congr fun q hq => linkObjs_frame fun b hb he => ?_
      have hap := h.cut.separate.across (List.mem_append_left Y hb) (List.mem_append_left _ (mem_free hj hq))
      have hsize := (mem_pieces hb).2
      unfold Apart ALIGN at hap
      simp only at hap
      omega
  · have hfree : (MyAllocator.free L).Perm (others L i) := by
      have := free_perm L hi
      rwa [listed, hL, List.map_nil, List.nil_append] at this
    have hpieces :
        ((pieces n p (k + 1)).map Extent.start).map (fun q => ⟨q, ALIGN * (i + 1)⟩) = pieces n p (k + 1) := by
      rw [List.map_map]
      refine (List.map_congr_left fun b hb => ?_).trans (List.map_id _)
      simp only [Function.comp_apply, id, ← hn, ← (mem_pieces hb).2]
    have hnew := (free_update L hi ((pieces n p (k + 1)).map Extent.start)).trans
      ((hfree.symm.append_left _).trans (.of_eq (by rw [hpieces])))
    have hall := (hnew.append_right (held elem live)).append_left Y
    refine List.Perm.trans ?_ hall.symm
    rw [List.append_assoc, List.append_assoc]
    exact List.perm_append_comm_assoc _ _ _

end Blocks

end Learncc.MyAllocator
