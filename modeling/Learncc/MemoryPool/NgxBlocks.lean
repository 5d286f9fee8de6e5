/-
The blocks of `ngx_mempool` and what is handed out of them
(src/memory_pool/ngx_mempool.cc). `Base` is what holds of the chain and of
malloc's blocks as long as no aligned pointer passes the end of a block: then
the test of the room left is exact. A pool whose size is a multiple of eight
stays so (`Base.even`). `pallocSmall_spec` says what a small request does.
-/
import Learncc.MemoryPool.NgxPool
import Mathlib.Data.List.Nodup
import Mathlib.Data.List.Pairwise

namespace Learncc.Ngx

open Extent

theorem alignPtr_eq {p : ℕ} (h : p + 8 ≤ 2 ^ 64) : alignPtr p = (p + 7) / 8 * 8 :=
  SizeClass.roundUpTo_eq p 3 (by decide) (by omega)

/-! ## One block -/

/-- A block of `size` bytes with a header: what is handed out lies between the
header and `last`, in pieces that share nothing. -/
structure Block.Ok (size header : ℕ) (b : Block) : Prop where
  pos : 0 < b.base
  base : b.base % 16 = 0
  top : b.base + size ≤ 2 ^ 63
  endPtr : b.endPtr = b.base + size
  low : b.base + header ≤ b.last
  high : b.last ≤ b.endPtr
  given : ∀ g ∈ b.given, b.base + header ≤ g.start ∧ g.start + g.size ≤ b.last
  aligned : ∀ g ∈ b.given, g.aligned = true → g.start % 8 = 0
  apart : Separate (b.given.map Piece.extent)

variable {size header bytes : ℕ} {b : Block} {align : Bool} {owner : Owner}

/-- A piece is handed out from `m` on. -/
theorem Block.Ok.give (h : b.Ok size header) {m : ℕ} (hm : b.last ≤ m) (hfit : m + bytes ≤ b.endPtr)
    (halign : align = true → m % 8 = 0) :
    Block.Ok size header { b with last := m + bytes, given := ⟨m, bytes, align, owner⟩ :: b.given } := by
  have hlow := h.low
  refine { h with low := ?_, high := hfit, given := ?_, aligned := ?_, apart := ?_ }
  · show b.base + header ≤ m + bytes
    omega
  · intro g hg
    rcases List.mem_cons.1 hg with rfl | hg
    · exact ⟨Nat.le_trans hlow hm, Nat.le_refl _⟩
    · obtain ⟨h1, h2⟩ := h.given g hg
      exact ⟨h1, by show g.start + g.size ≤ m + bytes; omega⟩
  · intro g hg
    rcases List.mem_cons.1 hg with rfl | hg
    · exact halign
    · exact h.aligned g hg
  · refine h.apart.add fun e he => ?_
    obtain ⟨g, hg, rfl⟩ := List.mem_map.1 he
    have h2 := (h.given g hg).2
    exact .inr (.inr (.inr (Nat.le_trans h2 hm)))

theorem Block.Ok.place_le (h : b.Ok size header) (heven : align = true → alignPtr b.last ≤ b.endPtr) :
    b.last ≤ Pool.place b align ∧ Pool.place b align ≤ b.endPtr ∧ (align = true → Pool.place b align % 8 = 0) := by
  have hbase := h.base
  have hend := h.endPtr
  have htop := h.top
  have hhigh := h.high
  cases align with
  | false => exact ⟨Nat.le_refl _, hhigh, fun he => by cases he⟩
  | true =>
    have hfits := heven rfl
    have heq : alignPtr b.last = (b.last + 7) / 8 * 8 := alignPtr_eq (by omega)
    rw [heq] at hfits
    have hplace : Pool.place b true = (b.last + 7) / 8 * 8 := heq
    rw [hplace]
    omega

/-- In a pool of whole words an aligned pointer does not pass the end. -/
theorem Block.Ok.even (h : b.Ok size header) (h8 : size % 8 = 0) : alignPtr b.last ≤ b.endPtr := by
  have hbase := h.base
  have hend := h.endPtr
  have htop := h.top
  have hhigh := h.high
  rw [alignPtr_eq (by omega)]
  omega

theorem Block.Ok.room_eq (h : b.Ok size header) {m : ℕ} (hm : m ≤ b.endPtr) : Pool.room b m = b.endPtr - m := by
  have hend := h.endPtr
  have htop := h.top
  unfold Pool.room size64
  omega

/-! ## The chain -/

/-- The block is where it was, and as good as before. -/
structure Like (size : ℕ) (b b' : Block) : Prop where
  base : b'.base = b.base
  endPtr : b'.endPtr = b.endPtr
  ok : ∀ header, b.Ok size header → b'.Ok size header

theorem Like.refl (size : ℕ) (b : Block) : Like size b b := ⟨rfl, rfl, fun _ h => h⟩

/-- The first block has the header of the pool, the others that of a block. -/
def Chain (size : ℕ) : List Block → Prop
  | [] => False
  | b :: rest => b.Ok size POOL ∧ ∀ c ∈ rest, c.Ok size DATA

theorem forall₂_refl (size : ℕ) (bs : List Block) : List.Forall₂ (Like size) bs bs := by
  induction bs with
  | nil => exact .nil
  | cons b bs ih => exact .cons (.refl size b) ih

theorem forall₂_mem {α β : Type} {R : α → β → Prop} {l : List α} {l' : List β} (h : List.Forall₂ R l l') {b : β}
    (hb : b ∈ l') : ∃ a ∈ l, R a b := by
  induction h with
  | nil => cases hb
  | cons hab _ ih =>
    rcases List.mem_cons.1 hb with rfl | hb
    · exact ⟨_, List.mem_cons_self, hab⟩
    · obtain ⟨a, ha, hr⟩ := ih hb
      exact ⟨a, List.mem_cons_of_mem _ ha, hr⟩

theorem Chain.like {bs bs' : List Block} (h : Chain size bs) (hl : List.Forall₂ (Like size) bs bs') :
    Chain size bs' := by
  cases hl with
  | nil => exact h
  | cons hb hrest =>
    refine ⟨hb.ok _ h.1, fun c' hc' => ?_⟩
    obtain ⟨c, hc, hlike⟩ := forall₂_mem hrest hc'
    exact hlike.ok _ (h.2 c hc)

theorem Chain.ok {bs : List Block} (h : Chain size bs) (hb : b ∈ bs) : ∃ header, DATA ≤ header ∧ b.Ok size header := by
  cases bs with
  | nil => cases hb
  | cons c rest =>
    rcases List.mem_cons.1 hb with rfl | hb
    · exact ⟨POOL, by decide, h.1⟩
    · exact ⟨DATA, Nat.le_refl _, h.2 b hb⟩

/-- A new block at the end. -/
theorem Chain.concat {bs : List Block} (h : Chain size bs) (hb : b.Ok size DATA) : Chain size (bs ++ [b]) := by
  cases bs with
  | nil => exact h.elim
  | cons c rest =>
    refine ⟨h.1, fun d hd => ?_⟩
    rcases List.mem_append.1 hd with hd | hd
    · exact h.2 d hd
    · rw [List.mem_singleton.1 hd]
      exact hb

theorem like_extents {bs bs' : List Block} (h : List.Forall₂ (Like size) bs bs') :
    bs'.map Block.extent = bs.map Block.extent := by
  induction h with
  | nil => rfl
  | cons hb _ ih => rw [List.map_cons, List.map_cons, ih, Block.extent, Block.extent, hb.base, hb.endPtr]

/-! ## The loops -/

theorem tryBlocks_spec {bs bs' : List Block} {m : ℕ} (heven : align = true → ∀ b ∈ bs, alignPtr b.last ≤ b.endPtr)
    (hok : ∀ b ∈ bs, ∃ header, b.Ok size header) (h : Pool.tryBlocks bytes align owner bs = some (bs', m)) :
    List.Forall₂ (Like size) bs bs' ∧
      (bs'.flatMap Block.given).Perm (⟨m, bytes, align, owner⟩ :: bs.flatMap Block.given) ∧
      (align = true → m % 8 = 0) ∧
      (align = true → bytes % 8 = 0 → ∀ b ∈ bs', alignPtr b.last ≤ b.endPtr) := by
  induction bs generalizing bs' with
  | nil => cases h
  | cons b rest ih =>
    obtain ⟨header, hb⟩ := hok b List.mem_cons_self
    obtain ⟨hlast, hend, halign⟩ := hb.place_le fun ha => heven ha b List.mem_cons_self
    unfold Pool.tryBlocks at h
    split at h
    · -- There is room: the block is the one.
      rename_i hroom
      rw [hb.room_eq hend] at hroom
      cases h
      refine ⟨.cons ⟨rfl, rfl, fun _ hx => hx.give hlast (by omega) halign⟩ (forall₂_refl size rest), .refl _, halign,
        fun ha hbytes c hc => ?_⟩
      rcases List.mem_cons.1 hc with rfl | hc
      · have hm := halign ha
        have htop := hb.top
        have hsize := hb.endPtr
        show alignPtr (Pool.place b align + bytes) ≤ b.endPtr
        rw [alignPtr_eq (by omega)]
        omega
      · exact heven ha c (List.mem_cons_of_mem b hc)
    · obtain ⟨⟨rest', m'⟩, hrest, hr⟩ := Option.map_eq_some_iff.1 h
      cases hr
      obtain ⟨hlike, hperm, hm, heven'⟩ := ih (fun ha c hc => heven ha c (List.mem_cons_of_mem b hc))
        (fun c hc => hok c (List.mem_cons_of_mem b hc)) hrest
      refine ⟨.cons (.refl size b) hlike, ?_, hm, fun ha hbytes c hc => ?_⟩
      · rw [List.flatMap_cons, List.flatMap_cons]
        exact (hperm.append_left _).trans List.perm_middle
      · rcases List.mem_cons.1 hc with rfl | hc
        · exact heven ha c List.mem_cons_self
        · exact heven' ha hbytes c hc

theorem countFailed_spec (size i current : ℕ) (bs : List Block) :
    List.Forall₂ (Like size) bs (Pool.countFailed i current bs).1 ∧
      (Pool.countFailed i current bs).1.flatMap Block.given = bs.flatMap Block.given ∧
      (current < i + bs.length → (Pool.countFailed i current bs).2 < i + bs.length) := by
  fun_induction Pool.countFailed i current bs with
  | case1 => exact ⟨.nil, rfl, id⟩
  | case2 i current b => exact ⟨forall₂_refl size [b], rfl, id⟩
  | case3 i current b c rest r ih =>
    obtain ⟨hlike, hgiven, hcurrent⟩ := ih
    refine ⟨.cons ⟨rfl, rfl, fun _ hx => { hx with }⟩ hlike, ?_, fun hlt => ?_⟩
    · rw [List.flatMap_cons, List.flatMap_cons, hgiven]
    · simp only [List.length_cons] at hcurrent hlt ⊢
      have hstep : (if 4 < b.failed then i + 1 else current) < i + 1 + (rest.length + 1) := by
        split <;> omega
      have hlast := hcurrent hstep
      show (Pool.countFailed (i + 1) (if 4 < b.failed then i + 1 else current) (c :: rest)).2 < _
      omega

theorem countFailed_even (i current : ℕ) {bs : List Block} (h : ∀ b ∈ bs, alignPtr b.last ≤ b.endPtr) :
    ∀ b ∈ (Pool.countFailed i current bs).1, alignPtr b.last ≤ b.endPtr := by
  fun_induction Pool.countFailed i current bs with
  | case1 => exact h
  | case2 => exact h
  | case3 i current b c rest r ih =>
    intro d hd
    rcases List.mem_cons.1 hd with rfl | hd
    · exact h b List.mem_cons_self
    · exact ih (fun d hd => h d (List.mem_cons_of_mem b hd)) d hd

/-! ## The pool -/

/-- The chain, and what malloc has given: the blocks of the chain, the large
blocks, and what is in hand, `X`. -/
structure Base (size : ℕ) (X : List Extent) (s : Pool) : Prop where
  chain : Chain size s.blocks
  current : s.current < s.blocks.length
  max : s.max = min (size - POOL) MAX
  heap : s.heap.Perm (s.blocks.map Block.extent ++ (s.chunks.map Piece.extent ++ X))
  separate : Separate s.heap
  bounds : ∀ e ∈ s.heap, 0 < e.start ∧ e.start % 16 = 0 ∧ 0 < e.size
  badFree : s.badFree = false

variable {s s' : Pool} {X : List Extent}

theorem Base.blockSize_eq (h : Base size X s) : s.blockSize = size := by
  unfold Pool.blockSize
  cases hb : s.blocks with
  | nil =>
    have hchain := h.chain
    rw [hb] at hchain
    exact hchain.elim
  | cons b rest =>
    have hchain := h.chain
    rw [hb] at hchain
    have hend := hchain.1.endPtr
    have htop := hchain.1.top
    show size64 (b.endPtr + 2 ^ 64 - b.base) = size
    unfold size64
    omega

theorem malloc_cases {r : Option ℕ} (h : s.malloc bytes = some (s', r)) :
    (∃ answers, r = none ∧ s' = { s with answers }) ∨
      ∃ m answers, r = some m ∧ Fresh s.heap ⟨m, bytes⟩ ∧
        s' = { s with heap := ⟨m, bytes⟩ :: s.heap, answers } := by
  unfold Pool.malloc at h
  split at h
  · cases h
  · cases h
    exact .inl ⟨_, rfl, rfl⟩
  · split at h
    · rename_i hf
      cases h
      exact .inr ⟨_, _, rfl, hf, rfl⟩
    · cases h

/-- What a small request leaves alone. -/
structure SameLists (s s' : Pool) : Prop where
  word : s'.word = s.word
  large : s'.large = s.large
  cleanup : s'.cleanup = s.cleanup
  chunks : s'.chunks = s.chunks
  nlarge : s'.nlarge = s.nlarge
  added : s'.added = s.added

/-- Base only looks at the chain and at malloc's blocks. -/
theorem Base.congr (h : Base size X s) (hblocks : s'.blocks = s.blocks) (hcurrent : s'.current = s.current)
    (hmax : s'.max = s.max) (hheap : s'.heap = s.heap) (hchunks : s'.chunks = s.chunks)
    (hbad : s'.badFree = s.badFree) : Base size X s' := by
  refine ⟨?_, ?_, ?_, ?_, ?_, ?_, ?_⟩
  · rw [hblocks]; exact h.chain
  · rw [hblocks, hcurrent]; exact h.current
  · rw [hmax]; exact h.max
  · rw [hheap, hblocks, hchunks]; exact h.heap
  · rw [hheap]; exact h.separate
  · rw [hheap]; exact h.bounds
  · rw [hbad]; exact h.badFree

theorem Chain.pos {bs : List Block} (h : Chain size bs) : POOL ≤ size := by
  cases bs with
  | nil => exact h.elim
  | cons b rest =>
    have h1 := h.1.low
    have h2 := h.1.high
    have h3 := h.1.endPtr
    omega

theorem newBlock_ok (align : Bool) (owner : Owner) {m : ℕ} {heap : List Extent}
    (hf : Fresh heap ⟨m, size⟩) (hfit : DATA + bytes ≤ size) :
    alignPtr (m + DATA) = m + DATA ∧ Block.Ok size DATA (Pool.newBlock m size bytes align owner) := by
  obtain ⟨hpos, h16, htop, -⟩ := hf
  simp only at hpos h16 htop
  have hdata : DATA = 32 := rfl
  have halign : alignPtr (m + DATA) = m + DATA := by
    rw [alignPtr_eq (by omega)]
    omega
  refine ⟨halign, ⟨hpos, h16, htop, rfl, ?_, ?_, fun g hg => ?_, fun g hg _ => ?_, List.pairwise_singleton _ _⟩⟩
  · show m + DATA ≤ alignPtr (m + DATA) + bytes
    omega
  · show alignPtr (m + DATA) + bytes ≤ m + size
    omega
  · rw [List.mem_singleton.1 hg]
    exact ⟨Nat.le_of_eq halign.symm, Nat.le_refl _⟩
  · rw [List.mem_singleton.1 hg]
    show alignPtr (m + DATA) % 8 = 0
    omega

/-- The first request does not put the end of what is used off the words. -/
theorem newBlock_even {m : ℕ} {heap : List Extent} (hf : Fresh heap ⟨m, size⟩) (hfit : DATA + bytes ≤ size)
    (hbytes : bytes % 8 = 0) (align : Bool) (owner : Owner) :
    alignPtr (Pool.newBlock m size bytes align owner).last ≤ (Pool.newBlock m size bytes align owner).endPtr := by
  obtain ⟨hptr, hok⟩ := newBlock_ok align owner hf hfit
  obtain ⟨hpos, h16, htop, -⟩ := hf
  simp only at hpos h16 htop
  have hdata : DATA = 32 := rfl
  show alignPtr (alignPtr (m + DATA) + bytes) ≤ m + size
  rw [hptr, alignPtr_eq (by omega)]
  omega

/-- Whatever the loops make of the blocks from `current` on, the chain is as
good as before. -/
theorem like_drop {bs : List Block} (h : List.Forall₂ (Like size) (s.blocks.drop s.current) bs) :
    List.Forall₂ (Like size) s.blocks (s.blocks.take s.current ++ bs) := by
  have happ : List.Forall₂ (Like size) (s.blocks.take s.current ++ s.blocks.drop s.current)
      (s.blocks.take s.current ++ bs) := List.rel_append (forall₂_refl size _) h
  rwa [List.take_append_drop] at happ

theorem Base.like {bs : List Block} (h : Base size X s) (hl : List.Forall₂ (Like size) s.blocks bs) :
    Base size X { s with blocks := bs } := by
  refine { h with chain := h.chain.like hl, current := ?_, heap := ?_ }
  · show s.current < bs.length
    rw [← hl.length_eq]
    exact h.current
  · show s.heap.Perm (bs.map Block.extent ++ (s.chunks.map Piece.extent ++ X))
    rw [like_extents hl]
    exact h.heap

/-- A block from malloc becomes the last of the chain. -/
theorem Base.concat {m current : ℕ} (answers : List (Option ℕ)) (h : Base size X s) (hf : Fresh s.heap ⟨m, size⟩)
    (hb : b.Ok size DATA) (hm : b.base = m) (hcurrent : current < s.blocks.length + 1) :
    Base size X { s with blocks := s.blocks ++ [b], current, heap := ⟨m, size⟩ :: s.heap, answers } := by
  have hext : b.extent = ⟨m, size⟩ := by
    rw [Block.extent, hb.endPtr, hm, Nat.add_sub_cancel_left]
  have hpool := h.chain.pos
  refine { h with chain := h.chain.concat hb, current := ?_, heap := ?_, separate := ?_, bounds := ?_ }
  · show current < (s.blocks ++ [b]).length
    rw [List.length_append, List.length_singleton]
    exact hcurrent
  · show (⟨m, size⟩ :: s.heap).Perm ((s.blocks ++ [b]).map Block.extent ++ (s.chunks.map Piece.extent ++ X))
    rw [List.map_append, List.map_singleton, hext, List.append_assoc, List.singleton_append]
    exact (h.heap.cons _).trans List.perm_middle.symm
  · exact h.separate.add hf.2.2.2
  · intro e he
    rcases List.mem_cons.1 he with rfl | he
    · exact ⟨hf.1, hf.2.1, Nat.lt_of_lt_of_le (by decide) hpool⟩
    · exact h.bounds e he

theorem pallocBlock_spec {r : Option ℕ} (h : Base size X s) (hfit : DATA + bytes ≤ size)
    (hp : s.pallocBlock bytes align owner = some (s', r)) :
    Base size X s' ∧ SameLists s s' ∧ (s.Even → bytes % 8 = 0 → s'.Even) ∧
      (r = none ∧ s'.live = s.live ∨
        ∃ m, r = some m ∧ s'.live.Perm (⟨m, bytes, align, owner⟩ :: s.live) ∧ (align = true → m % 8 = 0)) := by
  have hsize := h.blockSize_eq
  unfold Pool.pallocBlock at hp
  cases hm : s.malloc s.blockSize with
  | none =>
    rw [hm] at hp
    cases hp
  | some q =>
    rw [hm] at hp
    obtain ⟨t, p⟩ := q
    rcases malloc_cases hm with ⟨answers, rfl, rfl⟩ | ⟨m, answers, rfl, hf, rfl⟩
    · cases hp
      exact ⟨h.congr rfl rfl rfl rfl rfl rfl, ⟨rfl, rfl, rfl, rfl, rfl, rfl⟩, fun he _ => he, .inl ⟨rfl, rfl⟩⟩
    · rw [hsize] at hf hp
      obtain ⟨hptr, hnew⟩ := newBlock_ok align owner hf hfit
      obtain ⟨hlike, hgiven, hcurrent⟩ := countFailed_spec size s.current s.current (s.blocks.drop s.current)
      have hlen : s.current + (s.blocks.drop s.current).length = s.blocks.length := by
        have hlt := h.current
        rw [List.length_drop]
        omega
      rw [hlen] at hcurrent
      cases hp
      have hbase := (h.like (like_drop hlike)).concat answers hf hnew rfl
        (Nat.lt_succ_of_lt (Nat.lt_of_lt_of_eq (hcurrent h.current) (like_drop hlike).length_eq))
      refine ⟨hbase, ⟨rfl, rfl, rfl, rfl, rfl, rfl⟩, fun he hbytes c hc => ?_, .inr ⟨_, rfl, ?_, fun _ => ?_⟩⟩
      · rcases List.mem_append.1 hc with hc | hc
        · rcases List.mem_append.1 hc with hc | hc
          · exact he c (List.mem_of_mem_take hc)
          · exact countFailed_even _ _ (fun d hd => he d (List.mem_of_mem_drop hd)) c hc
        · rw [List.mem_singleton.1 hc]
          exact newBlock_even hf hfit hbytes align owner
      · show ((s.blocks.take s.current ++ (Pool.countFailed s.current s.current (s.blocks.drop s.current)).1 ++
          [Pool.newBlock m size bytes align owner]).flatMap Block.given ++ s.chunks).Perm
            (_ :: (s.blocks.flatMap Block.given ++ s.chunks))
        rw [List.flatMap_append, List.flatMap_append, hgiven, ← List.flatMap_append, List.take_append_drop,
          List.flatMap_singleton, List.append_assoc]
        exact List.perm_middle
      · obtain ⟨-, h16, -⟩ := hf
        have hdata : DATA = 32 := rfl
        simp only at h16
        omega

/-- A small request: it is refused for want of memory, or a new piece is handed
out. -/
theorem pallocSmall_spec {r : Option ℕ} (h : Base size X s) (heven : align = true → s.Even) (hfit : DATA + bytes ≤ size)
    (hp : s.pallocSmall bytes align owner = some (s', r)) :
    Base size X s' ∧ SameLists s s' ∧ (align = true → bytes % 8 = 0 → s'.Even) ∧
      (r = none ∧ s'.live = s.live ∨
        ∃ m, r = some m ∧ s'.live.Perm (⟨m, bytes, align, owner⟩ :: s.live) ∧ (align = true → m % 8 = 0)) := by
  have hok : ∀ b ∈ s.blocks.drop s.current, ∃ header, b.Ok size header := by
    intro b hb
    obtain ⟨header, -, hx⟩ := h.chain.ok (List.mem_of_mem_drop hb)
    exact ⟨header, hx⟩
  unfold Pool.pallocSmall at hp
  split at hp
  · rename_i bs m htry
    cases hp
    obtain ⟨hlike, hperm, hm, heven'⟩ :=
      tryBlocks_spec (fun ha b hb => heven ha b (List.mem_of_mem_drop hb)) hok htry
    refine ⟨h.like (like_drop hlike), ⟨rfl, rfl, rfl, rfl, rfl, rfl⟩, fun ha hbytes c hc => ?_, .inr ⟨m, rfl, ?_, hm⟩⟩
    · rcases List.mem_append.1 hc with hc | hc
      · exact heven ha c (List.mem_of_mem_take hc)
      · exact heven' ha hbytes c hc
    show ((s.blocks.take s.current ++ bs).flatMap Block.given ++ s.chunks).Perm
      (_ :: (s.blocks.flatMap Block.given ++ s.chunks))
    have hsplit : s.blocks.flatMap Block.given =
        (s.blocks.take s.current).flatMap Block.given ++ (s.blocks.drop s.current).flatMap Block.given := by
      rw [← List.flatMap_append, List.take_append_drop]
    rw [List.flatMap_append, hsplit]
    exact ((hperm.append_left _).trans List.perm_middle).append_right _
  · obtain ⟨hbase, hsame, heven', hout⟩ := pallocBlock_spec h hfit hp
    exact ⟨hbase, hsame, fun ha => heven' (heven ha), hout⟩

/-- A pool of whole words. -/
theorem Base.even (h : Base size X s) (h8 : size % 8 = 0) : s.Even := by
  intro b hb
  obtain ⟨header, -, hok⟩ := h.chain.ok hb
  exact hok.even h8

/-! ## What is handed out -/

theorem Block.Ok.within (h : b.Ok size header) {g : Piece} (hg : g ∈ b.given) : g.extent.Within b.extent := by
  obtain ⟨h1, h2⟩ := h.given g hg
  have h3 := h.high
  have h4 := h.endPtr
  refine .inr ⟨?_, ?_⟩
  · show b.base ≤ g.start
    omega
  · show g.start + g.size ≤ b.base + (b.endPtr - b.base)
    omega

theorem Base.regions (h : Base size X s) :
    Separate (s.blocks.map Block.extent ++ (s.chunks.map Piece.extent ++ X)) := h.separate.perm h.heap

/-- The pieces handed out and what is in hand share nothing. -/
theorem Base.live_separate (h : Base size X s) : Separate (s.live.map Piece.extent ++ X) := by
  have hregions := h.regions
  have hgiven : Separate (s.blocks.flatMap fun b => b.given.map Piece.extent) := by
    refine hregions.left.flatMap fun b hb => ?_
    obtain ⟨header, -, hok⟩ := h.chain.ok hb
    refine ⟨hok.apart, fun e he => ?_⟩
    obtain ⟨g, hg, rfl⟩ := List.mem_map.1 he
    exact hok.within hg
  rw [Pool.live, List.map_append, List.map_flatMap, List.append_assoc]
  refine hgiven.append hregions.right fun e he e' he' => ?_
  obtain ⟨b, hb, hm⟩ := List.mem_flatMap.1 he
  obtain ⟨g, hg, rfl⟩ := List.mem_map.1 hm
  obtain ⟨header, -, hok⟩ := h.chain.ok hb
  exact (hregions.across (List.mem_map_of_mem hb) he').mono (hok.within hg)

theorem Base.apart (h : Base size X s) {g g' : Piece} (hg : g ∈ s.live) (hg' : g' ∈ s.live) (hne : g ≠ g') :
    g.extent.Apart g'.extent := by
  have hpair : s.live.Pairwise fun a b => a.extent.Apart b.extent := List.pairwise_map.1 h.live_separate.left
  have hsymm : Std.Symm fun a b : Piece => a.extent.Apart b.extent := ⟨fun _ _ hab => hab.symm⟩
  exact hpair.forall hg hg' hne

/-- A piece starts where something is, and at a word if it was asked to. -/
theorem Base.start (h : Base size X s) {g : Piece} (hg : g ∈ s.live) :
    0 < g.start ∧ (g.aligned = true → g.start % 8 = 0) := by
  rcases List.mem_append.1 hg with hg | hg
  · obtain ⟨b, hb, hg⟩ := List.mem_flatMap.1 hg
    obtain ⟨header, -, hok⟩ := h.chain.ok hb
    have hpos := hok.pos
    have hlow := (hok.given g hg).1
    exact ⟨by omega, hok.aligned g hg⟩
  · have hheap : g.extent ∈ s.heap :=
      h.heap.mem_iff.2 (List.mem_append_right _ (List.mem_append_left _ (List.mem_map_of_mem hg)))
    obtain ⟨hpos, h16, -⟩ := h.bounds _ hheap
    have hstart : g.extent.start = g.start := rfl
    rw [hstart] at hpos h16
    exact ⟨hpos, fun _ => by omega⟩

end Learncc.Ngx
