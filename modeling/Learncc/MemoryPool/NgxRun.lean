/-
Runs of `ngx_mempool` (src/memory_pool/ngx_mempool.cc) from its creation: where
the small pieces are, which cleanup handlers the destruction runs, and that the
blocks of malloc are freed once.

Where an aligned pointer passes the end of a block, the test of the room left
wraps and the request is placed behind the block (`overrun`); only a pool of
whole words is safe from that. And a reset hands out the memory of the cleanup
nodes again while the list still has them.
-/
import Learncc.MemoryPool.NgxCleanup

namespace Learncc.Ngx

open Extent

variable {size base : ℕ} {word : ℕ → ℕ} {s s' s₀ : Pool} {nodes : List ℕ} {op : Op} {ops : List Op}

/-! ## A new pool -/

theorem createPool_eq (h : Pool.createPool size base word = some s₀) :
    Fresh [] ⟨base, size⟩ ∧
      s₀ = { blocks := [{ base, last := base + POOL, endPtr := base + size, failed := 0, given := [] }]
             current := 0
             max := Pool.maxFor size
             large := 0, cleanup := 0, word, answers := [], heap := [⟨base, size⟩], chunks := [], nlarge := 0
             added := [], ran := [], badFree := false } := by
  unfold Pool.createPool at h
  split at h
  · rename_i hf
    exact ⟨hf, (Option.some.inj h).symm⟩
  · cases h

theorem maxFor_eq (hsize : POOL ≤ size) (htop : size ≤ 2 ^ 63) : Pool.maxFor size = min (size - POOL) MAX := by
  have hpool : POOL = 64 := rfl
  have hmax : size64 (size + 2 ^ 64 - POOL) = size - POOL := by
    unfold size64
    omega
  unfold Pool.maxFor
  rw [hmax]
  split <;> omega

theorem createPool_spec (hsize : POOL ≤ size) (h : Pool.createPool size base word = some s₀) :
    Inv size s₀ [] ∧ Clean s₀ := by
  obtain ⟨⟨hpos, h16, htop, -⟩, hs⟩ := createPool_eq h
  simp only at hpos h16 htop
  have hmax := maxFor_eq hsize (Nat.le_trans (Nat.le_add_left size base) htop)
  generalize Pool.maxFor size = max at hmax hs
  subst hs
  refine ⟨⟨⟨⟨?_, ?_⟩, Nat.one_pos, hmax, ?_, List.pairwise_singleton _ _, ?_, rfl⟩, ?_⟩, .none rfl rfl⟩
  · exact ⟨hpos, h16, htop, rfl, Nat.le_refl _, Nat.add_le_add_left hsize base,
      fun g hg => (List.not_mem_nil hg).elim, fun g hg => (List.not_mem_nil hg).elim, .nil⟩
  · exact fun c hc => (List.not_mem_nil hc).elim
  · show [Extent.mk base size].Perm ([⟨base, base + size - base⟩] ++ [])
    rw [Nat.add_sub_cancel_left]
    exact .refl _
  · intro e he
    rw [List.mem_singleton.1 he]
    exact ⟨hpos, h16, Nat.lt_of_lt_of_le (show 0 < POOL by decide) hsize⟩
  · exact ⟨rfl, rfl, List.nodup_nil, fun n hn => (List.not_mem_nil hn).elim, .nil,
      fun c hc => (List.not_mem_nil hc).elim⟩

/-! ## One operation -/

/-- The operation places no aligned request where an aligned pointer passes the
end of a block. -/
def Pool.EvenFor (s : Pool) : Op → Prop
  | .palloc .. => s.Even
  | .pnalloc size _ => s.max < size → s.Even
  | .pcalloc .. => s.Even
  | .cleanupAdd .. => s.Even
  | _ => True

/-- The operation does not take back the memory of a cleanup node that is in the
list. -/
def Pool.KeepsNodes (s : Pool) : Op → Prop
  | .pfree p => p ∉ s.added.map Node.addr
  | .reset => s.added = []
  | _ => True

theorem Inv.answers (h : Inv size s nodes) (answers : List (Option ℕ)) : Inv size { s with answers } nodes :=
  ⟨h.base.congr rfl rfl rfl rfl rfl rfl, h.large.keep (fun _ _ => rfl) (fun _ _ => rfl) h.large.owned rfl rfl rfl⟩

theorem Clean.answers (h : Clean s) (answers : List (Option ℕ)) : Clean { s with answers } := ⟨h.1, h.2, h.3, h.4⟩

/-- What an allocation does to both. -/
theorem pallocFor_step {bytes : ℕ} {align : Bool} {r : Option ℕ} {answers : List (Option ℕ)} (h : Inv size s nodes)
    (heven : align = true ∨ s.max < bytes → s.Even)
    (hp : ({ s with answers } : Pool).pallocFor bytes align .user = some (s', r)) :
    ∃ nodes', Inv size s' nodes' ∧ (Clean s → Clean s') ∧
      ∀ p, r = some p → ∃ g ∈ s'.live, g.start = p ∧ g.size = bytes ∧ g.owner = .user := by
  obtain ⟨nodes', hinv, hgrows, -, hout⟩ := pallocFor_spec (h.answers answers) heven (fun he => by cases he) hp
  refine ⟨nodes', hinv, fun hc => (hc.answers answers).grows hgrows, fun p hr => ?_⟩
  rcases hout with rfl | ⟨q, more, aligned, rfl, -, hlive⟩
  · cases hr
  · cases hr
    exact ⟨_, hlive.mem_iff.2 List.mem_cons_self, rfl, rfl, rfl⟩

/-- A step keeps the pool in order, and the list of cleanup nodes where it does
not take their memory. -/
theorem step_spec (h : Inv size s nodes) (heven : s.EvenFor op) (hs : s.step op = some s') :
    ∃ nodes', Inv size s' nodes' ∧ (s.KeepsNodes op → Clean s → Clean s') := by
  cases op with
  | palloc bytes answers =>
    obtain ⟨⟨t, r⟩, hp, rfl⟩ := Option.map_eq_some_iff.1 hs
    obtain ⟨nodes', hinv, hclean, -⟩ := pallocFor_step h (fun _ => heven) hp
    exact ⟨nodes', hinv, fun _ => hclean⟩
  | pnalloc bytes answers =>
    obtain ⟨⟨t, r⟩, hp, rfl⟩ := Option.map_eq_some_iff.1 hs
    obtain ⟨nodes', hinv, hclean, -⟩ := pallocFor_step h (fun ho => heven (ho.resolve_left fun he => by cases he)) hp
    exact ⟨nodes', hinv, fun _ => hclean⟩
  | pcalloc bytes answers =>
    obtain ⟨⟨t, r⟩, hp, rfl⟩ := Option.map_eq_some_iff.1 hs
    unfold Pool.pcalloc at hp
    cases ha : ({ s with answers } : Pool).palloc bytes with
    | none =>
      rw [ha] at hp
      cases hp
    | some q =>
      obtain ⟨s₁, r₁⟩ := q
      rw [ha] at hp
      obtain ⟨nodes', hinv, hclean, hpiece⟩ := pallocFor_step h (fun _ => heven) ha
      cases r₁ with
      | none =>
        cases hp
        exact ⟨nodes', hinv, fun _ => hclean⟩
      | some p =>
        cases hp
        obtain ⟨g, hg, rfl, rfl, ho⟩ := hpiece _ rfl
        obtain ⟨hzero, hgrows⟩ := memzero_spec hinv hg ho
        exact ⟨nodes', hzero, fun _ hc => (hclean hc).grows hgrows⟩
  | cleanupAdd bytes answers =>
    obtain ⟨⟨t, r⟩, hp, rfl⟩ := Option.map_eq_some_iff.1 hs
    obtain ⟨nodes', hinv, hout⟩ := poolCleanupAdd_spec (h.answers answers) heven hp
    refine ⟨nodes', hinv, fun _ hc => ?_⟩
    rcases hout with hgrows | ⟨n, hadds⟩
    · exact (hc.answers answers).grows hgrows
    · exact (hc.answers answers).adds hadds
  | pfree p =>
    cases hs
    obtain ⟨hinv, hspares⟩ := pfree_spec h p
    exact ⟨nodes, hinv, fun hk hc => hc.spares hspares hk⟩
  | reset =>
    cases hs
    refine ⟨[], resetPool_spec h, fun hk hc => ?_⟩
    obtain ⟨heap, hfree, -⟩ := freeLarge_spec h
    have hlinked := hc.linked
    rw [show s.added = [] from hk] at hlinked
    refine .none ?_ ?_ <;> unfold Pool.resetPool <;> rw [hfree]
    · exact hlinked
    · exact hk
  | write x v =>
    obtain ⟨hx, hs⟩ := Option.ite_none_right_eq_some.1 hs
    cases hs
    obtain ⟨hinv, hgrows⟩ := writeByte_spec (v := v) h hx
    exact ⟨nodes, hinv, fun _ hc => hc.grows hgrows⟩
  | setHandler c handler =>
    obtain ⟨hc, hs⟩ := Option.ite_none_right_eq_some.1 hs
    cases hs
    refine ⟨nodes, setMember_inv h hc (cleanupPiece_handler c), fun _ hclean => ?_⟩
    refine setMember_clean h hclean hc (.inl rfl) (fun _ => rfl) fun n hn hnc => ⟨?_, ?_⟩
    · exact Function.update_self _ _ _
    · rw [← (hclean.holds n hn).2, hnc]
      exact Function.update_of_ne (by omega) _ _
  | setData c data =>
    obtain ⟨hc, hs⟩ := Option.ite_none_right_eq_some.1 hs
    cases hs
    refine ⟨nodes, setMember_inv h hc (cleanupPiece_data c), fun _ hclean => ?_⟩
    refine setMember_clean h hclean hc (.inr rfl) (fun _ => rfl) fun n hn hnc => ⟨?_, ?_⟩
    · rw [← (hclean.holds n hn).1, hnc]
      exact Function.update_of_ne (by omega) _ _
    · exact Function.update_self _ _ _

/-! ## Pools of whole words -/

theorem Inv.evenFor (h : Inv size s nodes) (h8 : size % 8 = 0) (op : Op) : s.EvenFor op := by
  have heven : s.Even := h.base.even h8
  cases op with
  | palloc | pcalloc | cleanupAdd => exact heven
  | pnalloc => exact fun _ => heven
  | _ => trivial

theorem run_inv (hsize : POOL ≤ size) (h8 : size % 8 = 0) (h₀ : Pool.createPool size base word = some s₀)
    (h : Run.run Pool.step s₀ ops = some s) : ∃ nodes, Inv size s nodes := by
  refine Run.run_invariant (fun t => ∃ nodes, Inv size t nodes) (fun t op t' ht hs => ?_)
    ⟨[], (createPool_spec hsize h₀).1⟩ h
  obtain ⟨nodes, hinv⟩ := ht
  obtain ⟨nodes', hinv', -⟩ := step_spec hinv (hinv.evenFor h8 op) hs
  exact ⟨nodes', hinv'⟩

/-! ## Small pieces -/

/-- The small pieces handed out since the last reset. -/
def Pool.small (s : Pool) : List Piece := s.blocks.flatMap Block.given

/-- The piece lies between the header and the end of the block at a place of the
chain. -/
def Pool.Inside (s : Pool) (g : Piece) (i : ℕ) : Prop :=
  ∃ b, s.blocks[i]? = some b ∧ b.base + (if i = 0 then POOL else DATA) ≤ g.start ∧ g.start + g.size ≤ b.endPtr

/-- Every small piece lies in one block, they share no byte, and those that were
asked for at a word are at one. -/
structure Pool.Safe (s : Pool) : Prop where
  inside : ∀ g ∈ s.small, ∃! i, s.Inside g i
  apart : s.small.Pairwise fun g g' => g.extent.Apart g'.extent
  aligned : ∀ g ∈ s.small, g.aligned = true → g.start % NGX_ALIGNMENT = 0

theorem Chain.getElem {bs : List Block} {b : Block} {i : ℕ} (h : Chain size bs) (hb : bs[i]? = some b) :
    b.Ok size (if i = 0 then POOL else DATA) := by
  cases bs with
  | nil => cases hb
  | cons c rest =>
    cases i with
    | zero =>
      cases hb
      exact h.1
    | succ i => exact h.2 b (List.mem_of_getElem? hb)

/-- No piece is inside two blocks. -/
theorem Base.inside_unique {X : List Extent} (h : Base size X s) {g : Piece} {i j : ℕ} (hi : s.Inside g i)
    (hj : s.Inside g j) : i = j := by
  obtain ⟨b, hb, hlow, hhigh⟩ := hi
  obtain ⟨c, hc, hlow', hhigh'⟩ := hj
  have hbok := h.chain.getElem hb
  have hcok := h.chain.getElem hc
  by_contra hne
  -- Two blocks share nothing, so one ends before the other begins.
  have hap : b.extent.Apart c.extent := by
    have hpair : s.blocks.Pairwise fun b c => b.extent.Apart c.extent := List.pairwise_map.1 h.regions.left
    obtain ⟨hil, rfl⟩ := List.getElem?_eq_some_iff.1 hb
    obtain ⟨hjl, rfl⟩ := List.getElem?_eq_some_iff.1 hc
    rcases Nat.lt_or_gt_of_ne hne with hlt | hlt
    · exact List.pairwise_iff_getElem.1 hpair i j hil hjl hlt
    · exact (List.pairwise_iff_getElem.1 hpair j i hjl hil hlt).symm
  have hbend := hbok.endPtr
  have hcend := hcok.endPtr
  have hpos := h.chain.pos
  have hpool : POOL = 64 := rfl
  have hdata : DATA = 32 := rfl
  have h1 : b.extent.start = b.base := rfl
  have h2 : b.extent.size = b.endPtr - b.base := rfl
  have h3 : c.extent.start = c.base := rfl
  have h4 : c.extent.size = c.endPtr - c.base := rfl
  unfold Apart at hap
  split at hlow <;> split at hlow' <;> omega

theorem Base.safe {X : List Extent} (h : Base size X s) : s.Safe := by
  refine ⟨fun g hg => ?_, List.pairwise_map.1 ?_, fun g hg => ?_⟩
  · obtain ⟨b, hb, hgb⟩ := List.mem_flatMap.1 hg
    obtain ⟨i, hi⟩ := List.mem_iff_getElem?.1 hb
    have hok := h.chain.getElem hi
    obtain ⟨hlow, hhigh⟩ := hok.given g hgb
    have hinside : s.Inside g i := ⟨b, hi, hlow, Nat.le_trans hhigh hok.high⟩
    exact ⟨i, hinside, fun j hj => h.inside_unique hj hinside⟩
  · have hlive := h.live_separate.left
    rw [Pool.live, List.map_append] at hlive
    exact hlive.left
  · exact (h.start (List.mem_append_left _ hg)).2

/-! ## Where the pointer passes the end -/

/-- The first block of a pool at 16, filled up to `last`. -/
def firstBlock (size last : ℕ) (given : List Piece) : Block :=
  { base := 16, last, endPtr := 16 + size, failed := 0, given }

def filled (size max last : ℕ) (given : List Piece) : Pool :=
  { blocks := [firstBlock size last given], current := 0, max, large := 0, cleanup := 0, word := fun _ => 0
    answers := [], heap := [⟨16, size⟩], chunks := [], nlarge := 0, added := [], ran := [], badFree := false }

variable {max last m : ℕ} {given : List Piece} {align : Bool}

/-- Everywhere but at the end itself the test finds room for a byte. -/
theorem room_pos {b : Block} (h : m ≠ b.endPtr) (hm : m ≤ b.endPtr + 8) (htop : b.endPtr ≤ 2 ^ 63) :
    1 ≤ Pool.room b m := by
  unfold Pool.room size64
  omega

theorem firstBlock_end (size last : ℕ) (given : List Piece) : (firstBlock size last given).endPtr = 16 + size := rfl

theorem tryBlocks_one {b : Block} {bytes : ℕ} {owner : Owner} (hroom : bytes ≤ Pool.room b (Pool.place b align)) :
    Pool.tryBlocks bytes align owner [b] = some ([{ b with
      last := Pool.place b align + bytes
      given := ⟨Pool.place b align, bytes, align, owner⟩ :: b.given }], Pool.place b align) := by
  rw [Pool.tryBlocks, if_pos hroom]

/-- A byte that is asked for is taken where the test finds room. -/
theorem palloc_filled (hmax : 1 ≤ max) (hm : Pool.place (firstBlock size last given) align = m)
    (hroom : 1 ≤ Pool.room (firstBlock size last given) m) :
    (filled size max last given).pallocFor 1 align .user =
      some (filled size max (m + 1) (⟨m, 1, align, .user⟩ :: given), some m) := by
  subst hm
  have htry : Pool.tryBlocks 1 align .user [firstBlock size last given] = _ := tryBlocks_one hroom
  have hdrop : (filled size max last given).blocks.drop (filled size max last given).current =
      [firstBlock size last given] := rfl
  have hcond : 1 ≤ (filled size max last given).max := hmax
  rw [Pool.pallocFor, if_pos hcond, Pool.pallocSmall, hdrop, htry]
  dsimp only
  rfl

/-- The user fills the block byte by byte. -/
theorem fill (hmax : 1 ≤ max) (htop : 16 + size ≤ 2 ^ 63) {k : ℕ} (given : List Piece) (hk : last + k ≤ 16 + size) :
    ∃ given', Run.run Pool.step (filled size max last given) (List.replicate k (.pnalloc 1 [])) =
      some (filled size max (last + k) given') := by
  induction k generalizing last given with
  | zero => exact ⟨given, rfl⟩
  | succ k ih =>
    obtain ⟨given', hrun⟩ := @ih (last + 1) (⟨last, 1, false, .user⟩ :: given) (by omega)
    have hend := firstBlock_end size last given
    have hroom : 1 ≤ Pool.room (firstBlock size last given) last :=
      room_pos (by omega) (by omega) (by rw [hend]; exact htop)
    have hstep : (filled size max last given).pallocFor 1 false .user = _ := palloc_filled hmax rfl hroom
    have hone : Pool.step (filled size max last given) (.pnalloc 1 []) =
        some (filled size max (last + 1) (⟨last, 1, false, .user⟩ :: given)) := congrArg (Option.map Prod.fst) hstep
    refine ⟨given', ?_⟩
    rw [List.replicate_succ, Run.run_cons]
    refine ⟨_, hone, ?_⟩
    rw [hrun, Nat.add_right_comm, Nat.add_assoc]

/-- In a pool whose block is full and does not end at a word, an aligned request
is placed behind the block. -/
theorem overrun (hsize : POOL ≤ size) (h8 : size % 8 ≠ 0) (htop : 16 + size ≤ 2 ^ 63) :
    ∃ s₀ s, Pool.createPool size 16 (fun _ => 0) = some s₀ ∧
      Run.run Pool.step s₀ (List.replicate (size - POOL) (.pnalloc 1 []) ++ [.palloc 1 []]) = some s ∧
      ¬ s.Safe := by
  have hpool : POOL = 64 := rfl
  have hlarge : MAX = 4095 := rfl
  have hmax : 1 ≤ Pool.maxFor size := by
    rw [maxFor_eq hsize (by omega)]
    omega
  have hfresh : Fresh [] ⟨16, size⟩ :=
    ⟨(show 0 < 16 by decide), (show 16 % 16 = 0 by decide), htop, fun r hr => (List.not_mem_nil hr).elim⟩
  have hcreate : Pool.createPool size 16 (fun _ => 0) = some (filled size (Pool.maxFor size) (16 + POOL) []) := by
    rw [Pool.createPool, if_pos hfresh]
    rfl
  generalize Pool.maxFor size = max at hmax hcreate
  obtain ⟨given, hfill⟩ := @fill _ _ (16 + POOL) hmax htop (size - POOL) [] (by omega)
  have hlast : 16 + POOL + (size - POOL) = 16 + size := by omega
  rw [hlast] at hfill
  have halign : alignPtr (16 + size) = (16 + size + 7) / 8 * 8 := alignPtr_eq (by omega)
  have hend := firstBlock_end size (16 + size) given
  have hroom : 1 ≤ Pool.room (firstBlock size (16 + size) given) (alignPtr (16 + size)) :=
    room_pos (by omega) (by omega) (by rw [hend]; exact htop)
  have hstep : (filled size max (16 + size) given).pallocFor 1 true .user = _ := palloc_filled hmax rfl hroom
  have hone : Pool.step (filled size max (16 + size) given) (.palloc 1 []) =
      some (filled size max (alignPtr (16 + size) + 1) (⟨alignPtr (16 + size), 1, true, .user⟩ :: given)) :=
    congrArg (Option.map Prod.fst) hstep
  refine ⟨_, _, hcreate, Run.run_concat.2 ⟨_, hfill, hone⟩, fun hsafe => ?_⟩
  obtain ⟨i, ⟨b, hb, -, hhigh⟩, -⟩ := hsafe.inside ⟨alignPtr (16 + size), 1, true, .user⟩ List.mem_cons_self
  have hend : b.endPtr = 16 + size := by
    rw [List.mem_singleton.1 (List.mem_of_getElem? hb)]
    rfl
  rw [hend] at hhigh
  simp only at hhigh
  omega

/-- **Where the small pieces are.** They are all inside the blocks, apart and
aligned, in every run of a pool of that size, exactly when the size is a multiple
of eight (or malloc cannot give a block of that size). -/
theorem small_safe_iff (hsize : POOL ≤ size) :
    (∀ base word s₀ ops s, Pool.createPool size base word = some s₀ → Run.run Pool.step s₀ ops = some s → s.Safe) ↔
      size % 8 = 0 ∨ 2 ^ 63 < 16 + size := by
  constructor
  · intro hall
    by_contra hneg
    obtain ⟨h8, htop⟩ := not_or.1 hneg
    obtain ⟨s₀, s, h₀, hrun, hnot⟩ := overrun hsize h8 (Nat.not_lt.1 htop)
    exact hnot (hall 16 _ s₀ _ s h₀ hrun)
  · intro hor base word s₀ ops s h₀ hrun
    rcases hor with h8 | htop
    · obtain ⟨nodes, hinv⟩ := run_inv hsize h8 h₀ hrun
      exact hinv.base.safe
    · obtain ⟨⟨hpos, h16, hle, -⟩, -⟩ := createPool_eq h₀
      simp only at hpos h16 hle
      omega

theorem small_safe_iff_1024 :
    (∀ base word s₀ ops s, Pool.createPool 1024 base word = some s₀ → Run.run Pool.step s₀ ops = some s → s.Safe) ↔
      1024 % 8 = 0 ∨ 2 ^ 63 < 16 + 1024 := small_safe_iff (by decide)

/-- A pool of 65 bytes: the byte that is left, then an aligned one. -/
theorem safe_not_65 :
    ∃ s₀ s, Pool.createPool 65 16 (fun _ => 0) = some s₀ ∧
      Run.run Pool.step s₀ [.pnalloc 1 [], .palloc 1 []] = some s ∧ ¬ s.Safe :=
  overrun (by decide) (by decide) (by omega)

/-! ## Cleanup handlers -/

/-- Before each operation no aligned request would pass the end of a block, and
the memory of a node in the list is not taken back. -/
def Pool.Clear (s : Pool) (op : Op) : Prop := s.EvenFor op ∧ s.KeepsNodes op

theorem run_clean (hsize : POOL ≤ size) (h₀ : Pool.createPool size base word = some s₀)
    (hclear : Run.Along Pool.step Pool.Clear s₀ ops) (h : Run.run Pool.step s₀ ops = some s) :
    ∃ nodes, Inv size s nodes ∧ Clean s := by
  refine Run.run_along_invariant (fun t => ∃ nodes, Inv size t nodes ∧ Clean t) (fun t op t' ht hc hs => ?_)
    ⟨[], createPool_spec hsize h₀⟩ hclear h
  obtain ⟨nodes, hinv, hclean⟩ := ht
  obtain ⟨nodes', hinv', hkeep⟩ := step_spec hinv hc.1 hs
  exact ⟨nodes', hinv', hkeep hc.2 hclean⟩

/-- A list in order is destroyed: the loop ends, and the handlers run are those set. -/
theorem destroyPool_clean (h : Clean s) :
    s.destroyPool s.added.length = some ((s.blocks.map Block.base).foldl Pool.free
      ({ s with ran := (s.added.filter fun n => n.handler ≠ 0).map fun n => (n.handler, n.data) : Pool }.freeLarge)) := by
  rw [Pool.destroyPool, cleanups_eq h.linked h.holds, Option.map_some]

/-- **Cleanup handlers.** In a run that never takes back the memory of a node in
the list, the destruction ends and runs the handlers that were set, each with its
data, the last added first, and no others. -/
theorem destroyPool_runs (hsize : POOL ≤ size) (h₀ : Pool.createPool size base word = some s₀)
    (hclear : Run.Along Pool.step Pool.Clear s₀ ops) (h : Run.run Pool.step s₀ ops = some s) :
    (∃ steps t, s.destroyPool steps = some t) ∧ ∀ steps t, s.destroyPool steps = some t →
      t.ran = (s.added.filter fun n => n.handler ≠ 0).map fun n => (n.handler, n.data) := by
  obtain ⟨nodes, hinv, hclean⟩ := run_clean hsize h₀ hclear h
  refine ⟨⟨_, _, destroyPool_clean hclean⟩, fun steps t ht => ?_⟩
  exact cleanups_unique (destroyPool_spec hinv ht).2.2 (cleanups_eq hclean.linked hclean.holds)

/-- In a pool of whole words only the memory of the nodes matters. -/
theorem along_clear (h8 : size % 8 = 0) (h : ∃ nodes, Inv size s nodes)
    (hk : Run.Along Pool.step Pool.KeepsNodes s ops) :
    Run.Along Pool.step Pool.Clear s ops := by
  induction ops generalizing s with
  | nil => trivial
  | cons op ops ih =>
    obtain ⟨nodes, hinv⟩ := h
    refine ⟨⟨hinv.evenFor h8 op, hk.1⟩, fun t ht => ih ?_ (hk.2 t ht)⟩
    obtain ⟨nodes', hinv', -⟩ := step_spec hinv (hinv.evenFor h8 op) ht
    exact ⟨nodes', hinv'⟩

/-- A node with eight bytes of data, its handler, and a byte of the data. -/
def oneNode : List Op := [.cleanupAdd 8 [], .setHandler 80 7, .write 104 5]

theorem destroyPool_runs_oneNode :
    ∃ s₀ s t, Pool.createPool 1024 16 (fun _ => 0) = some s₀ ∧ Run.run Pool.step s₀ oneNode = some s ∧
      s.destroyPool 1 = some t ∧
      t.ran = (s.added.filter fun n => n.handler ≠ 0).map (fun n => (n.handler, n.data)) ∧ t.ran = [(7, 104)] := by
  have heval : ((Pool.createPool 1024 16 fun _ => 0).bind fun s₀ =>
      (Run.run Pool.step s₀ oneNode).bind fun s => (s.destroyPool 1).map Pool.ran) = some [(7, 104)] := by
    decide +kernel
  obtain ⟨s₀, h₀, hrun⟩ := Option.bind_eq_some_iff.1 heval
  obtain ⟨s, hs, hdestroy⟩ := Option.bind_eq_some_iff.1 hrun
  obtain ⟨t, ht, hran⟩ := Option.map_eq_some_iff.1 hdestroy
  have hkeeps : Run.Along Pool.step Pool.KeepsNodes s₀ oneNode :=
    ⟨trivial, fun _ _ => ⟨trivial, fun _ _ => ⟨trivial, fun _ _ => trivial⟩⟩⟩
  have hclear := along_clear (by decide) ⟨_, (createPool_spec (by decide) h₀).1⟩ hkeeps
  exact ⟨s₀, s, t, h₀, hs, ht, (destroyPool_runs (by decide) h₀ hclear hs).2 1 t ht, hran⟩

/-- A reset, and the node's memory is handed out again, zeroed: its handler is
not run. -/
theorem handler_lost :
    ∃ s₀ s t, Pool.createPool 1024 16 (fun _ => 0) = some s₀ ∧
      Run.run Pool.step s₀ [.cleanupAdd 0 [], .setHandler 80 7, .reset, .pcalloc 24 []] = some s ∧
      s.destroyPool 1 = some t ∧ t.ran = [] ∧
      (s.added.filter fun n => n.handler ≠ 0).map (fun n => (n.handler, n.data)) = [(7, 0)] := by
  have heval : ((Pool.createPool 1024 16 fun _ => 0).bind fun s₀ =>
      (Run.run Pool.step s₀ [.cleanupAdd 0 [], .setHandler 80 7, .reset, .pcalloc 24 []]).bind fun s =>
        (s.destroyPool 1).map fun t =>
          (t.ran, (s.added.filter fun n => n.handler ≠ 0).map fun n => (n.handler, n.data))) =
      some ([], [(7, 0)]) := by decide +kernel
  obtain ⟨s₀, h₀, hrun⟩ := Option.bind_eq_some_iff.1 heval
  obtain ⟨s, hs, hdestroy⟩ := Option.bind_eq_some_iff.1 hrun
  obtain ⟨t, ht, hran⟩ := Option.map_eq_some_iff.1 hdestroy
  obtain ⟨hran, hadded⟩ := Prod.mk.inj hran
  exact ⟨s₀, s, t, h₀, hs, ht, hran, hadded⟩

/-! ## Large blocks -/

/-- Only `ngx_pool_cleanup_add` makes a cleanup node. -/
def Op.addsCleanup : Op → Bool
  | .cleanupAdd .. => true
  | _ => false

/-- Without cleanup nodes there is none whose memory could be taken back. -/
theorem step_added (h : Inv size s nodes) (heven : s.EvenFor op) (hadded : s.added = [])
    (hop : op.addsCleanup = false) (hs : s.step op = some s') : s'.added = [] := by
  have halloc : ∀ {bytes : ℕ} {align : Bool} {answers : List (Option ℕ)} {t : Pool} {r : Option ℕ},
      (align = true ∨ s.max < bytes → s.Even) →
      ({ s with answers } : Pool).pallocFor bytes align .user = some (t, r) → t.added = [] := by
    intro bytes align answers t r heven hp
    obtain ⟨-, -, hgrows, -, -⟩ := pallocFor_spec (h.answers answers) heven (fun he => by cases he) hp
    exact hgrows.added.trans hadded
  have hnone : ∀ c, ¬ s.Holds c := by
    intro c hc
    have hmem := hc.1
    rw [hadded] at hmem
    cases hmem
  cases op with
  | palloc bytes answers =>
    obtain ⟨⟨t, r⟩, hp, rfl⟩ := Option.map_eq_some_iff.1 hs
    exact halloc (fun _ => heven) hp
  | pnalloc bytes answers =>
    obtain ⟨⟨t, r⟩, hp, rfl⟩ := Option.map_eq_some_iff.1 hs
    exact halloc (fun ho => heven (ho.resolve_left fun he => by cases he)) hp
  | pcalloc bytes answers =>
    obtain ⟨⟨t, r⟩, hp, rfl⟩ := Option.map_eq_some_iff.1 hs
    unfold Pool.pcalloc at hp
    split at hp
    · cases hp
    · rename_i ha
      cases hp
      exact halloc (fun _ => heven) ha
    · rename_i t₁ p ha
      cases hp
      have hadded₁ : t₁.added = [] := halloc (fun _ => heven) ha
      exact hadded₁
  | cleanupAdd => cases hop
  | pfree p =>
    cases hs
    exact (pfree_spec h p).2.added.trans hadded
  | reset =>
    cases hs
    obtain ⟨heap, hfree, -⟩ := freeLarge_spec h
    unfold Pool.resetPool
    rw [hfree]
    exact hadded
  | write x v =>
    obtain ⟨-, hs⟩ := Option.ite_none_right_eq_some.1 hs
    cases hs
    exact hadded
  | setHandler c handler => exact absurd (Option.ite_none_right_eq_some.1 hs).1 (hnone c)
  | setData c data => exact absurd (Option.ite_none_right_eq_some.1 hs).1 (hnone c)

theorem along_keepsNodes (h8 : size % 8 = 0) (h : ∃ nodes, Inv size s nodes) (hadded : s.added = [])
    (hops : ∀ op ∈ ops, op.addsCleanup = false) : Run.Along Pool.step Pool.KeepsNodes s ops := by
  induction ops generalizing s with
  | nil => trivial
  | cons op ops ih =>
    obtain ⟨nodes, hinv⟩ := h
    have heven := hinv.evenFor h8 op
    refine ⟨?_, fun t ht => ?_⟩
    · cases op with
      | pfree p =>
        show p ∉ s.added.map Node.addr
        rw [hadded]
        exact List.not_mem_nil
      | reset => exact hadded
      | _ => trivial
    · obtain ⟨nodes', hinv', -⟩ := step_spec hinv heven ht
      refine ih ⟨nodes', hinv'⟩ (step_added hinv heven hadded (hops op List.mem_cons_self) ht) fun o ho => ?_
      exact hops o (List.mem_cons_of_mem op ho)

/-- **Large blocks.** Whatever the user does with a pool of whole words: what
malloc has given and not got back is the chain and the large blocks, each of
these is recorded by one node of the list, nothing else was ever freed, and the
destruction frees all of it, once. It does come to its end if no memory of a
cleanup node is taken back before, as none is where there are no cleanup nodes. -/
theorem chunks_freed_once (hsize : POOL ≤ size) (h8 : size % 8 = 0) (h₀ : Pool.createPool size base word = some s₀)
    (h : Run.run Pool.step s₀ ops = some s) :
    ((∃ nodes, Linked s.word s.large nodes ∧ nodes.Nodup ∧ nodes.length = s.nlarge ∧
      ∀ c ∈ s.chunks, ∃! n, n ∈ nodes ∧ s.word (n + 8) = c.start) ∧
    s.heap.Perm (s.blocks.map Block.extent ++ s.chunks.map Piece.extent) ∧ (s.heap.map Extent.start).Nodup ∧
    s.badFree = false) ∧
    (∀ steps t, s.destroyPool steps = some t → t.heap = [] ∧ t.badFree = false) ∧
    (Run.Along Pool.step Pool.KeepsNodes s₀ ops → ∃ steps t, s.destroyPool steps = some t) ∧
    ((∀ op ∈ ops, op.addsCleanup = false) → Run.Along Pool.step Pool.KeepsNodes s₀ ops) := by
  obtain ⟨nodes, hinv⟩ := run_inv hsize h8 h₀ h
  refine ⟨⟨⟨nodes, hinv.large.linked, hinv.large.nodup, hinv.large.length, fun c hc => hinv.recorded_once hc⟩, ?_, ?_,
    hinv.base.badFree⟩, fun steps t ht => ?_, fun hkeeps => ?_, fun hops => ?_⟩
  · have hperm := hinv.base.heap
    rwa [List.append_nil] at hperm
  · exact hinv.base.separate.nodup_start fun e he => (hinv.base.bounds e he).2.2
  · obtain ⟨hheap, hbad, -⟩ := destroyPool_spec hinv ht
    exact ⟨hheap, hbad⟩
  · have hclear := along_clear h8 ⟨_, (createPool_spec hsize h₀).1⟩ hkeeps
    obtain ⟨-, -, hclean⟩ := run_clean hsize h₀ hclear h
    exact ⟨_, _, destroyPool_clean hclean⟩
  · refine along_keepsNodes h8 ⟨_, (createPool_spec hsize h₀).1⟩ ?_ hops
    rw [(createPool_eq h₀).2]

/-- Two large blocks, one given back, and the destruction. -/
theorem chunks_freed_once_two :
    ∃ s₀ s t, Pool.createPool 1024 16 (fun _ => 0) = some s₀ ∧
      Run.run Pool.step s₀ [.palloc 5000 [some 2048], .pnalloc 6000 [some 8192], .pfree 2048] = some s ∧
      s.heap.length = 2 ∧ s.badFree = false ∧ s.destroyPool 0 = some t ∧ t.heap = [] ∧ t.badFree = false := by
  have heval : ((Pool.createPool 1024 16 fun _ => 0).bind fun s₀ =>
      (Run.run Pool.step s₀ [.palloc 5000 [some 2048], .pnalloc 6000 [some 8192], .pfree 2048]).bind fun s =>
        (s.destroyPool 0).map fun _ => s.heap.length) = some 2 := by decide +kernel
  obtain ⟨s₀, h₀, hrun⟩ := Option.bind_eq_some_iff.1 heval
  obtain ⟨s, hs, hdestroy⟩ := Option.bind_eq_some_iff.1 hrun
  obtain ⟨t, ht, hlen⟩ := Option.map_eq_some_iff.1 hdestroy
  obtain ⟨⟨-, -, -, hbad⟩, hdestroyed, -⟩ := chunks_freed_once (by decide) (by decide) h₀ hs
  obtain ⟨hheap, hbad'⟩ := hdestroyed 0 t ht
  exact ⟨s₀, s, t, h₀, hs, hlen, hbad, ht, hheap, hbad'⟩

end Learncc.Ngx
