/-
What gives memory back in `ngx_mempool`, and its list of cleanup nodes
(src/memory_pool/ngx_mempool.cc). `Clean` says that the list is linked through
the nodes that were added, that they are still handed out, and that their words
are what the user set; an allocation keeps it (`Clean.grows`), whatever the
memory that is handed out is used for.
-/
import Learncc.MemoryPool.NgxLists

namespace Learncc.Ngx

open Extent

variable {size bytes header c : ℕ} {b : Block} {s s' : Pool} {nodes : List ℕ}

/-! ## Reset and destroy -/

/-- The loop frees the large blocks, and only the chain is left. -/
theorem freeLarge_spec (h : Inv size s nodes) :
    ∃ heap, s.freeLarge = { s with heap } ∧ heap.Perm (s.blocks.map Block.extent) := by
  have hheap : s.heap.Perm (s.chunks.map Piece.extent ++ s.blocks.map Block.extent) := by
    refine h.base.heap.trans ?_
    rw [List.append_nil]
    exact List.perm_append_comm
  have hps : ((Pool.allocs s.word s.nlarge s.large).filter (· ≠ 0)).Perm
      ((s.chunks.map Piece.extent).map Extent.start) := by
    rw [← h.large.length, allocs_eq h.large.linked, List.map_map]
    exact h.large.recorded
  exact foldl_free hheap h.base.separate h.base.bounds hps

theorem resetBlock_ok (h : b.Ok size header) : (Pool.resetBlock header b).Ok size header := by
  have hlow := h.low
  have hhigh := h.high
  exact { h with
    low := Nat.le_refl _
    high := Nat.le_trans hlow hhigh
    given := fun g hg => by cases hg
    aligned := fun g hg => by cases hg
    apart := .nil }

/-- The blocks after a reset. -/
theorem resetPool_blocks (s : Pool) (hchain : Chain size s.blocks) :
    Chain size s.resetPool.blocks ∧ s.resetPool.blocks.map Block.extent = s.blocks.map Block.extent ∧
      s.resetPool.blocks.flatMap Block.given = [] := by
  cases hb : s.blocks with
  | nil =>
    rw [hb] at hchain
    exact hchain.elim
  | cons b rest =>
    rw [hb] at hchain
    have hblocks : s.resetPool.blocks = Pool.resetBlock POOL b :: rest.map (Pool.resetBlock DATA) := by
      unfold Pool.resetPool
      rw [hb]
    rw [hblocks]
    refine ⟨⟨resetBlock_ok hchain.1, fun c hc => ?_⟩, ?_, ?_⟩
    · obtain ⟨d, hd, rfl⟩ := List.mem_map.1 hc
      exact resetBlock_ok (hchain.2 d hd)
    · rw [List.map_cons, List.map_cons, List.map_map]
      rfl
    · rw [List.flatMap_cons, List.flatMap_map]
      exact List.flatMap_eq_nil_iff.2 fun _ _ => rfl

/-- `ngx_reset_pool`: the chain is as new, and the list is empty. -/
theorem resetPool_spec (h : Inv size s nodes) : Inv size s.resetPool [] := by
  obtain ⟨hchain, hextents, hgiven⟩ := resetPool_blocks s h.base.chain
  obtain ⟨heap, hfree, hperm⟩ := freeLarge_spec h
  have hheap : s.resetPool.heap = heap := by
    unfold Pool.resetPool
    rw [hfree]
  have hmax : s.resetPool.max = s.max := by
    unfold Pool.resetPool
    rw [hfree]
  have hbad : s.resetPool.badFree = s.badFree := by
    unfold Pool.resetPool
    rw [hfree]
  have hsub : ∀ e ∈ heap, e ∈ s.heap := fun e he =>
    h.base.heap.mem_iff.2 (List.mem_append_left _ (hperm.mem_iff.1 he))
  have hempty : Large s.resetPool [] :=
    ⟨rfl, rfl, List.nodup_nil, fun n hn => (List.not_mem_nil hn).elim, .nil, fun c hc => (List.not_mem_nil hc).elim⟩
  refine ⟨⟨hchain, ?_, ?_, ?_, ?_, ?_, ?_⟩, hempty⟩
  · show 0 < s.resetPool.blocks.length
    cases hb : s.resetPool.blocks with
    | nil =>
      rw [hb] at hchain
      exact hchain.elim
    | cons b rest => exact Nat.succ_pos _
  · rw [hmax]
    exact h.base.max
  · rw [hheap, hextents]
    show heap.Perm (s.blocks.map Block.extent ++ [])
    rw [List.append_nil]
    exact hperm
  · rw [hheap]
    exact (h.base.regions.left).perm hperm.symm
  · rw [hheap]
    exact fun e he => h.base.bounds e (hsub e he)
  · rw [hbad]
    exact h.base.badFree

/-- `ngx_destroy_pool`: all that malloc gave is freed, and the handlers are run
as the list has them. -/
theorem destroyPool_spec {steps : ℕ} {t : Pool} (h : Inv size s nodes) (ht : s.destroyPool steps = some t) :
    t.heap = [] ∧ t.badFree = false ∧ Pool.cleanups s.word steps s.cleanup = some t.ran := by
  obtain ⟨ran, hran, ht⟩ := Option.map_eq_some_iff.1 ht
  have hinv : Inv size { s with ran } nodes :=
    ⟨h.base.congr rfl rfl rfl rfl rfl rfl, h.large.keep (fun _ _ => rfl) (fun _ _ => rfl) h.large.owned rfl rfl rfl⟩
  obtain ⟨heap, hfree, hperm⟩ := freeLarge_spec hinv
  have hstarts : ((s.blocks.map Block.base).filter (· ≠ 0)).Perm ((s.blocks.map Block.extent).map Extent.start) := by
    have hall : (s.blocks.map Block.base).filter (· ≠ 0) = s.blocks.map Block.base := by
      refine List.filter_eq_self.2 fun p hp => ?_
      obtain ⟨b, hb, rfl⟩ := List.mem_map.1 hp
      obtain ⟨header, -, hok⟩ := h.base.chain.ok hb
      exact decide_eq_true (Nat.pos_iff_ne_zero.1 hok.pos)
    rw [hall, List.map_map]
    exact .refl _
  have hsub : ∀ e ∈ heap, e ∈ s.heap := fun e he =>
    h.base.heap.mem_iff.2 (List.mem_append_left _ (hperm.mem_iff.1 he))
  have hrest : heap.Perm (s.blocks.map Block.extent ++ []) := by
    rw [List.append_nil]
    exact hperm
  obtain ⟨heap', hfree', hnil⟩ := foldl_free (s := { s with ran, heap }) hrest
    ((h.base.regions.left).perm hperm.symm) (fun e he => h.base.bounds e (hsub e he)) hstarts
  rw [hfree, hfree'] at ht
  subst ht
  exact ⟨List.perm_nil.1 hnil, h.base.badFree, hran⟩

/-! ## The cleanup nodes -/

/-- The piece that is a cleanup node. -/
def cleanupPiece (c : ℕ) : Piece := ⟨c, CLEANUP, true, .cleanupNode⟩

theorem cleanupPiece_handler (c : ℕ) : (cleanupPiece c).Has c :=
  ⟨Nat.le_refl _, Nat.add_le_add_left (show 8 ≤ CLEANUP by decide) c⟩

theorem cleanupPiece_data (c : ℕ) : (cleanupPiece c).Has (c + 8) :=
  ⟨Nat.le_add_right _ _, Nat.add_le_add_left (show 16 ≤ CLEANUP by decide) c⟩

theorem cleanupPiece_next (c : ℕ) : (cleanupPiece c).Has (c + 16) := ⟨Nat.le_add_right _ _, Nat.le_refl _⟩

/-- The list is the nodes that were added, and they hold what was set in them. -/
structure Clean (s : Pool) : Prop where
  linked : Linked (fun c => s.word (c + 16)) s.cleanup (s.added.map Node.addr)
  owned : ∀ n ∈ s.added, cleanupPiece n.addr ∈ s.live
  nodup : (s.added.map Node.addr).Nodup
  holds : ∀ n ∈ s.added, s.word n.addr = n.handler ∧ s.word (n.addr + 8) = n.data

/-- The loop comes to the same end after however many nodes. -/
theorem cleanups_unique {word : ℕ → ℕ} {head m n : ℕ} {ran ran' : List (ℕ × ℕ)}
    (h : Pool.cleanups word m head = some ran) (h' : Pool.cleanups word n head = some ran') : ran = ran' := by
  induction m generalizing head n ran ran' with
  | zero =>
    obtain ⟨rfl, hran⟩ := Option.ite_none_right_eq_some.1 h
    cases hran
    cases n with
    | zero | succ n => cases h'; rfl
  | succ m ih =>
    by_cases hz : head = 0
    · subst hz
      cases h
      cases n with
      | zero | succ n => cases h'; rfl
    · rw [Pool.cleanups, if_neg hz] at h
      obtain ⟨rest, hrest, rfl⟩ := Option.map_eq_some_iff.1 h
      cases n with
      | zero =>
        rw [Pool.cleanups, if_neg hz] at h'
        cases h'
      | succ n =>
        rw [Pool.cleanups, if_neg hz] at h'
        obtain ⟨rest', hrest', rfl⟩ := Option.map_eq_some_iff.1 h'
        rw [ih hrest hrest']

/-- Through the nodes that were added it ends. -/
theorem cleanups_eq {word : ℕ → ℕ} {head : ℕ} {added : List Node}
    (hlinked : Linked (fun c => word (c + 16)) head (added.map Node.addr))
    (hholds : ∀ n ∈ added, word n.addr = n.handler ∧ word (n.addr + 8) = n.data) :
    Pool.cleanups word added.length head =
      some ((added.filter fun n => n.handler ≠ 0).map fun n => (n.handler, n.data)) := by
  induction added generalizing head with
  | nil => exact if_pos hlinked
  | cons n added ih =>
    obtain ⟨rfl, hn, hrest⟩ := hlinked
    obtain ⟨hhandler, hdata⟩ := hholds n List.mem_cons_self
    rw [List.length_cons, Pool.cleanups, if_neg hn, ih hrest fun m hm => hholds m (List.mem_cons_of_mem n hm), hhandler,
      hdata, Option.map_some]
    by_cases hz : n.handler = 0
    · rw [if_neg (not_not.2 hz), List.filter_cons_of_neg (by simpa using hz)]
      rfl
    · rw [if_pos hz, List.filter_cons_of_pos (by simpa using hz)]
      rfl

/-- The list is kept where its nodes and their words are. -/
theorem Clean.keep (h : Clean s) (hlive : ∀ n ∈ s.added, cleanupPiece n.addr ∈ s'.live)
    (hword : ∀ n ∈ s.added, ∀ a, (cleanupPiece n.addr).Has a → s'.word a = s.word a)
    (hcleanup : s'.cleanup = s.cleanup) (hadded : s'.added = s.added) : Clean s' := by
  refine ⟨?_, ?_, ?_, fun n hn => ?_⟩
  · rw [hcleanup, hadded]
    refine h.linked.congr fun c hc => ?_
    obtain ⟨n, hn, rfl⟩ := List.mem_map.1 hc
    exact hword n hn _ (cleanupPiece_next n.addr)
  · rw [hadded]
    exact hlive
  · rw [hadded]
    exact h.nodup
  · rw [hadded] at hn
    rw [hword n hn _ (cleanupPiece_handler n.addr), hword n hn _ (cleanupPiece_data n.addr)]
    exact h.holds n hn

theorem Clean.grows (h : Clean s) (hg : Grows s s') : Clean s' := by
  refine h.keep (fun n hn => hg.live _ (h.owned n hn)) (fun n hn a ha => ?_) hg.cleanup hg.added
  exact hg.word _ (h.owned n hn) rfl a ha

/-- `ngx_pfree` keeps it, unless what is freed is a node of the list. -/
theorem Clean.spares {p : ℕ} (h : Clean s) (hs : Spares p s s') (hp : p ∉ s.added.map Node.addr) : Clean s' := by
  refine h.keep (fun n hn => hs.live _ (h.owned n hn) fun he => ?_) (fun n hn a ha => ?_) hs.cleanup hs.added
  · exact hp (he ▸ List.mem_map_of_mem hn)
  · exact hs.word _ (h.owned n hn) rfl a ha

/-- With no node there is nothing to keep. -/
theorem Clean.none (hcleanup : s.cleanup = 0) (hadded : s.added = []) : Clean s := by
  refine ⟨?_, ?_, ?_, ?_⟩ <;> rw [hadded]
  · exact hcleanup
  · exact fun n hn => by cases hn
  · exact .nil
  · exact fun n hn => by cases hn

/-! ## A new cleanup node -/

/-- A cleanup node is put in front. -/
structure Adds (n : Node) (s s' : Pool) : Prop where
  live : ∀ g ∈ s.live, g ∈ s'.live
  word : ∀ g ∈ s.live, g.owner = .cleanupNode → ∀ a, g.Has a → s'.word a = s.word a
  new : cleanupPiece n.addr ∈ s'.live
  fresh : cleanupPiece n.addr ∉ s.live
  pos : n.addr ≠ 0
  next : s'.word (n.addr + 16) = s.cleanup
  holds : s'.word n.addr = n.handler ∧ s'.word (n.addr + 8) = n.data
  cleanup : s'.cleanup = n.addr
  added : s'.added = n :: s.added

theorem Clean.adds {n : Node} (h : Clean s) (hn : Adds n s s') : Clean s' := by
  have hword : ∀ m ∈ s.added, ∀ a, (cleanupPiece m.addr).Has a → s'.word a = s.word a := fun m hm a ha =>
    hn.word _ (h.owned m hm) rfl a ha
  have hnot : n.addr ∉ s.added.map Node.addr := by
    intro hm
    obtain ⟨m, hm, he⟩ := List.mem_map.1 hm
    exact hn.fresh (he ▸ h.owned m hm)
  refine ⟨?_, fun m hm => ?_, ?_, fun m hm => ?_⟩
  · rw [hn.cleanup, hn.added]
    refine ⟨rfl, hn.pos, ?_⟩
    show Linked (fun c => s'.word (c + 16)) (s'.word (n.addr + 16)) (s.added.map Node.addr)
    rw [hn.next]
    refine h.linked.congr fun c hc => ?_
    obtain ⟨m, hm, rfl⟩ := List.mem_map.1 hc
    exact hword m hm _ (cleanupPiece_next m.addr)
  · rw [hn.added] at hm
    rcases List.mem_cons.1 hm with rfl | hm
    · exact hn.new
    · exact hn.live _ (h.owned m hm)
  · rw [hn.added]
    exact List.nodup_cons.2 ⟨hnot, h.nodup⟩
  · rw [hn.added] at hm
    rcases List.mem_cons.1 hm with rfl | hm
    · exact hn.holds
    · rw [hword m hm _ (cleanupPiece_handler m.addr), hword m hm _ (cleanupPiece_data m.addr)]
      exact h.holds m hm

theorem store_elsewhere {g : Piece} {a : ℕ} (s : Pool) (v : ℕ) (ha : g.Has a) {a' : ℕ} (ha' : ¬ g.Has a') :
    (s.store a v).word a' = s.word a' := by
  refine Function.update_of_ne (fun he => ?_) _ _
  rw [he] at ha'
  exact ha' ha

/-- Words of a cleanup node are set. -/
theorem Inv.writeNode (h : Inv size s nodes) (hc : cleanupPiece c ∈ s.live) {word : ℕ → ℕ}
    (hword : ∀ a, ¬ (cleanupPiece c).Has a → word a = s.word a) :
    Inv size { s with word } nodes ∧
      ∀ g ∈ s.live, g ≠ cleanupPiece c → ∀ a, g.Has a → word a = s.word a := by
  have hother : ∀ g ∈ s.live, g ≠ cleanupPiece c → ∀ a, g.Has a → word a = s.word a := fun g hg hne a ha =>
    hword a fun hb => h.base.word_ne hg hc hne ha hb rfl
  refine ⟨h.writeElsewhere fun n hn => ?_, hother⟩
  exact hother _ (h.large.owned n hn) fun he => by cases congrArg Piece.owner he

/-- The rest of `ngx_pool_cleanup_add`, for a node that was not handed out when
the call began. -/
theorem listCleanup_spec {s₀ : Pool} (h : Inv size s nodes) (hg : Grows s₀ s) (hc : cleanupPiece c ∈ s.live)
    (hnot : cleanupPiece c ∉ s₀.live) (data : ℕ) :
    Inv size (s.listCleanup c data) nodes ∧ Adds ⟨c, 0, data⟩ s₀ (s.listCleanup c data) := by
  have hhas : ∀ a, ¬ (cleanupPiece c).Has a → (s.listCleanup c data).word a = s.word a := by
    intro a ha
    have h0 : a ≠ c := fun he => ha (he ▸ cleanupPiece_handler c)
    have h8 : a ≠ c + 8 := fun he => ha (he ▸ cleanupPiece_data c)
    have h16 : a ≠ c + 16 := fun he => ha (he ▸ cleanupPiece_next c)
    show Function.update (Function.update (Function.update s.word (c + 8) data) c 0) (c + 16) s.cleanup a = s.word a
    rw [Function.update_of_ne h16, Function.update_of_ne h0, Function.update_of_ne h8]
  obtain ⟨hinv, hother⟩ := h.writeNode hc hhas
  refine ⟨⟨hinv.base.congr rfl rfl rfl rfl rfl rfl, ?_⟩, ?_⟩
  · exact hinv.large.keep (fun _ _ => rfl) (fun _ _ => rfl) hinv.large.owned rfl rfl rfl
  · refine ⟨hg.live, fun g hm ho a ha => ?_, hc, hnot, Nat.pos_iff_ne_zero.1 (h.base.start hc).1, ?_, ⟨?_, ?_⟩, rfl, ?_⟩
    · rw [hother g (hg.live g hm) (fun he => hnot (he ▸ hm)) a ha]
      exact hg.word g hm ho a ha
    · show Function.update ((s.store (c + 8) data).store c 0).word (c + 16) s.cleanup (c + 16) = s₀.cleanup
      rw [Function.update_self]
      exact hg.cleanup
    · show Function.update (Function.update (s.store (c + 8) data).word c 0) (c + 16) s.cleanup c = 0
      rw [Function.update_of_ne (by omega), Function.update_self]
    · show Function.update (Function.update (Function.update s.word (c + 8) data) c 0) (c + 16) s.cleanup (c + 8) = data
      rw [Function.update_of_ne (by omega), Function.update_of_ne (by omega), Function.update_self]
    · show ⟨c, 0, data⟩ :: s.added = ⟨c, 0, data⟩ :: s₀.added
      rw [hg.added]

/-- `ngx_pool_cleanup_add`: it is refused, or the list has a new node. -/
theorem poolCleanupAdd_spec {r : Option ℕ} (h : Inv size s nodes) (heven : s.Even)
    (hp : s.poolCleanupAdd bytes = some (s', r)) :
    ∃ nodes', Inv size s' nodes' ∧ (Grows s s' ∨ ∃ n, Adds n s s') := by
  unfold Pool.poolCleanupAdd at hp
  cases hnode : s.pallocFor CLEANUP true .cleanupNode with
  | none =>
    rw [hnode] at hp
    cases hp
  | some q =>
    obtain ⟨s₁, r₁⟩ := q
    rw [hnode] at hp
    obtain ⟨nodes₁, hinv₁, hgrows₁, heven₁, hout⟩ := pallocFor_spec h (fun _ => heven) (fun he => by cases he) hnode
    rcases hout with rfl | ⟨c, more, aligned, rfl, haligned, hlive₁⟩
    · cases hp
      exact ⟨nodes₁, hinv₁, .inl hgrows₁⟩
    · cases haligned rfl
      have hc₁ : cleanupPiece c ∈ s₁.live := hlive₁.mem_iff.2 List.mem_cons_self
      have hnot : cleanupPiece c ∉ s.live := fun hm =>
        not_mem_of_new (show 0 < CLEANUP by decide) hinv₁.base hlive₁ (List.mem_append_right _ hm)
      dsimp only at hp
      split at hp
      · cases hdata : s₁.palloc bytes with
        | none =>
          rw [hdata] at hp
          cases hp
        | some q =>
          obtain ⟨s₂, r₂⟩ := q
          rw [hdata] at hp
          obtain ⟨nodes₂, hinv₂, hgrows₂, -, -⟩ :=
            pallocFor_spec hinv₁ (fun _ => heven₁ rfl (by decide)) (fun he => by cases he) hdata
          have hc₂ := hgrows₂.live _ hc₁
          have hgrows := hgrows₁.trans hgrows₂
          cases r₂ with
          | none =>
            -- The node stays out of the list.
            cases hp
            obtain ⟨hinv, hother⟩ := hinv₂.writeNode hc₂ fun a ha => store_elsewhere s₂ 0 (cleanupPiece_data c) ha
            refine ⟨nodes₂, hinv, .inl ⟨hgrows.live, fun g hg ho a ha => ?_, hgrows.cleanup, hgrows.added⟩⟩
            rw [← hgrows.word g hg ho a ha]
            exact hother g (hgrows.live g hg) (fun he => hnot (he ▸ hg)) a ha
          | some data =>
            cases hp
            obtain ⟨hinv, hadds⟩ := listCleanup_spec hinv₂ hgrows hc₂ hnot data
            exact ⟨nodes₂, hinv, .inr ⟨_, hadds⟩⟩
      · cases hp
        obtain ⟨hinv, hadds⟩ := listCleanup_spec hinv₁ hgrows₁ hc₁ hnot 0
        exact ⟨nodes₁, hinv, .inr ⟨_, hadds⟩⟩

/-! ## The members of a node -/

theorem setNode_addr {f : Node → Node} (hf : ∀ n, (f n).addr = n.addr) (c : ℕ) (l : List Node) :
    (Pool.setNode c f l).map Node.addr = l.map Node.addr := by
  induction l with
  | nil => rfl
  | cons n l ih =>
    unfold Pool.setNode
    split
    · rw [List.map_cons, List.map_cons, hf]
    · rw [List.map_cons, List.map_cons, ih]

theorem mem_setNode {f : Node → Node} {l : List Node} (h : (l.map Node.addr).Nodup) {n : Node}
    (hn : n ∈ Pool.setNode c f l) : n ∈ l ∧ n.addr ≠ c ∨ ∃ m ∈ l, m.addr = c ∧ n = f m := by
  induction l with
  | nil => cases hn
  | cons m l ih =>
    rw [List.map_cons, List.nodup_cons] at h
    unfold Pool.setNode at hn
    split at hn
    · rename_i hm
      rcases List.mem_cons.1 hn with rfl | hn
      · exact .inr ⟨m, List.mem_cons_self, hm, rfl⟩
      · exact .inl ⟨List.mem_cons_of_mem m hn, fun he => h.1 (hm ▸ he ▸ List.mem_map_of_mem hn)⟩
    · rename_i hm
      rcases List.mem_cons.1 hn with rfl | hn
      · exact .inl ⟨List.mem_cons_self, hm⟩
      · rcases ih h.2 hn with ⟨hl, hne⟩ | ⟨k, hk, hc, rfl⟩
        · exact .inl ⟨List.mem_cons_of_mem m hl, hne⟩
        · exact .inr ⟨k, List.mem_cons_of_mem m hk, hc, rfl⟩

/-- The user sets a member of a node it has: the pool is as good as before. -/
theorem setMember_inv {a v : ℕ} {added : List Node} (h : Inv size s nodes) (hc : s.Holds c)
    (ha : (cleanupPiece c).Has a) : Inv size { s.store a v with added } nodes := by
  obtain ⟨hinv, -⟩ := h.writeNode hc.2 fun a' ha' => store_elsewhere s v ha ha'
  exact ⟨hinv.base.congr rfl rfl rfl rfl rfl rfl,
    hinv.large.keep (fun _ _ => rfl) (fun _ _ => rfl) hinv.large.owned rfl rfl rfl⟩

/-- And the list has the member. -/
theorem setMember_clean {a v : ℕ} {f : Node → Node} (hinv : Inv size s nodes) (h : Clean s) (hc : s.Holds c)
    (ha : a = c ∨ a = c + 8) (haddr : ∀ n, (f n).addr = n.addr)
    (hf : ∀ n ∈ s.added, n.addr = c →
      (s.store a v).word c = (f n).handler ∧ (s.store a v).word (c + 8) = (f n).data) :
    Clean { s.store a v with added := Pool.setNode c f s.added } := by
  have hhas : (cleanupPiece c).Has a := by
    rcases ha with rfl | rfl
    · exact cleanupPiece_handler a
    · exact cleanupPiece_data c
  obtain ⟨-, hother⟩ := hinv.writeNode hc.2 fun a' ha' => store_elsewhere s v hhas ha'
  have hne : ∀ n : Node, n.addr ≠ c → cleanupPiece n.addr ≠ cleanupPiece c := fun n hn he =>
    hn (congrArg Piece.start he)
  refine ⟨?_, fun n hn => ?_, ?_, fun n hn => ?_⟩
  · show Linked (fun c' => (s.store a v).word (c' + 16)) s.cleanup ((Pool.setNode c f s.added).map Node.addr)
    rw [setNode_addr haddr]
    refine h.linked.congr fun p hp => ?_
    obtain ⟨n, hn, rfl⟩ := List.mem_map.1 hp
    by_cases hnc : n.addr = c
    · exact Function.update_of_ne (by omega) _ _
    · exact hother _ (h.owned n hn) (hne n hnc) _ (cleanupPiece_next n.addr)
  · rcases mem_setNode h.nodup hn with ⟨hn, -⟩ | ⟨m, hm, -, rfl⟩
    · exact h.owned n hn
    · rw [haddr]
      exact h.owned m hm
  · show ((Pool.setNode c f s.added).map Node.addr).Nodup
    rw [setNode_addr haddr]
    exact h.nodup
  · show (s.store a v).word n.addr = n.handler ∧ (s.store a v).word (n.addr + 8) = n.data
    rcases mem_setNode h.nodup hn with ⟨hn, hnc⟩ | ⟨m, hm, hmc, rfl⟩
    · rw [hother _ (h.owned n hn) (hne n hnc) _ (cleanupPiece_handler n.addr),
        hother _ (h.owned n hn) (hne n hnc) _ (cleanupPiece_data n.addr)]
      exact h.holds n hn
    · rw [haddr, hmc]
      exact hf m hm hmc

end Learncc.Ngx
