/-
The list of large blocks of `ngx_mempool` (src/memory_pool/ngx_mempool.cc),
whose nodes are pieces of the pool: `Large` says that it is linked through its
nodes and records each large block once. A word that is written in one piece is
no word of another (`Base.word_ne`), so the list is kept by all that is written
elsewhere; `Grows` is what an allocation keeps for everyone.
-/
import Learncc.MemoryPool.NgxBlocks

namespace Learncc.Ngx

open Extent

variable {size bytes : ℕ} {X : List Extent} {s s' : Pool} {align : Bool} {owner : Owner} {nodes : List ℕ}

/-! ## `free` -/

theorem eraseP_key {α : Type} [DecidableEq α] {f : α → ℕ} {l : List α} (h : (l.map f).Nodup) {e : α} (he : e ∈ l) :
    l.eraseP (fun a => f a = f e) = l.erase e := by
  induction l with
  | nil => cases he
  | cons a l ih =>
    rw [List.map_cons, List.nodup_cons] at h
    rcases List.mem_cons.1 he with rfl | he
    · simp
    · have hne : f a ≠ f e := fun hs => h.1 (hs ▸ List.mem_map_of_mem he)
      have hae : a ≠ e := fun hs => hne (hs ▸ rfl)
      rw [List.eraseP_cons_of_neg (by simpa using hne), ih h.2 he, List.erase_cons_tail (by simpa using hae)]

/-- `free` of a block of malloc's. -/
theorem free_eq {e : Extent} {rest : List Extent} (hheap : s.heap.Perm (e :: rest)) (hsep : Separate s.heap)
    (hbounds : ∀ a ∈ s.heap, 0 < a.start ∧ a.start % 16 = 0 ∧ 0 < a.size) :
    ∃ heap, s.free e.start = { s with heap } ∧ heap.Perm rest := by
  have he : e ∈ s.heap := hheap.mem_iff.2 List.mem_cons_self
  have hpos := (hbounds e he).1
  have hany : s.heap.any (fun a => a.start = e.start) = true := List.any_eq_true.2 ⟨e, he, by simp⟩
  refine ⟨s.heap.erase e, ?_, ?_⟩
  · unfold Pool.free
    rw [if_neg (by omega), if_pos hany, eraseP_key (hsep.nodup_start fun a ha => (hbounds a ha).2.2) he]
  · exact ((List.perm_cons_erase he).symm.trans hheap).cons_inv

/-- The loop that frees the blocks `E`, null pointers among them. -/
theorem foldl_free {ps : List ℕ} {E rest : List Extent} (hheap : s.heap.Perm (E ++ rest)) (hsep : Separate s.heap)
    (hbounds : ∀ a ∈ s.heap, 0 < a.start ∧ a.start % 16 = 0 ∧ 0 < a.size)
    (hps : (ps.filter (· ≠ 0)).Perm (E.map Extent.start)) :
    ∃ heap, ps.foldl Pool.free s = { s with heap } ∧ heap.Perm rest := by
  induction ps generalizing s E with
  | nil =>
    have hnil : E = [] := List.map_eq_nil_iff.1 hps.nil_eq.symm
    subst hnil
    exact ⟨s.heap, rfl, hheap⟩
  | cons p ps ih =>
    rw [List.foldl_cons]
    by_cases hp : p = 0
    · subst hp
      have hfree : s.free 0 = s := rfl
      rw [hfree]
      exact ih hheap hsep hbounds (by simpa using hps)
    · rw [List.filter_cons_of_pos (by simpa using hp)] at hps
      obtain ⟨e, heE, hstart⟩ := List.mem_map.1 (hps.mem_iff.1 List.mem_cons_self)
      subst hstart
      have hE : E.Perm (e :: E.erase e) := List.perm_cons_erase heE
      obtain ⟨heap, hfree, hrest⟩ := free_eq (hheap.trans (hE.append_right rest)) hsep hbounds
      have hsub : ∀ a ∈ heap, a ∈ s.heap := by
        intro a ha
        refine hheap.mem_iff.2 ?_
        rcases List.mem_append.1 (hrest.mem_iff.1 ha) with ha | ha
        · exact List.mem_append_left _ (List.mem_of_mem_erase ha)
        · exact List.mem_append_right _ ha
      have hsep' : Separate heap :=
        (((hsep.perm (hheap.trans (hE.append_right rest))).tail).perm hrest.symm)
      rw [hfree]
      obtain ⟨heap', heq, hperm⟩ := ih (s := { s with heap }) hrest hsep' (fun a ha => hbounds a (hsub a ha))
        ((hps.trans (hE.map _)).cons_inv)
      exact ⟨heap', heq, hperm⟩

/-! ## Walks -/

theorem allocs_eq {word : ℕ → ℕ} {head : ℕ} {nodes : List ℕ} (h : Linked word head nodes) :
    Pool.allocs word nodes.length head = nodes.map fun n => word (n + 8) := by
  induction nodes generalizing head with
  | nil => rfl
  | cons n nodes ih =>
    obtain ⟨rfl, hn, hrest⟩ := h
    rw [List.length_cons, Pool.allocs, if_neg hn, ih hrest, List.map_cons]

theorem findFree_mem {word : ℕ → ℕ} {k head l : ℕ} {nodes : List ℕ} (h : Linked word head nodes)
    (hf : Pool.findFree word k head = some l) : l ∈ nodes ∧ word (l + 8) = 0 := by
  induction k generalizing head nodes with
  | zero => cases hf
  | succ k ih =>
    unfold Pool.findFree at hf
    split at hf
    · cases hf
    · rename_i hne
      obtain ⟨m, rfl, hm⟩ := h.uncons hne
      split at hf
      · rename_i hzero
        cases hf
        exact ⟨List.mem_cons_self, hzero⟩
      · obtain ⟨hl, hzero⟩ := ih hm hf
        exact ⟨List.mem_cons_of_mem _ hl, hzero⟩

theorem findAlloc_mem {word : ℕ → ℕ} {p k head l : ℕ} {nodes : List ℕ} (h : Linked word head nodes)
    (hf : Pool.findAlloc word p k head = some l) : l ∈ nodes ∧ word (l + 8) = p := by
  induction k generalizing head nodes with
  | zero => cases hf
  | succ k ih =>
    unfold Pool.findAlloc at hf
    split at hf
    · cases hf
    · rename_i hne
      obtain ⟨m, rfl, hm⟩ := h.uncons hne
      split at hf
      · rename_i hp
        cases hf
        exact ⟨List.mem_cons_self, hp⟩
      · obtain ⟨hl, hp⟩ := ih hm hf
        exact ⟨List.mem_cons_of_mem _ hl, hp⟩

/-! ## The list -/

/-- The piece that is a node of the large list. -/
def nodePiece (n : ℕ) : Piece := ⟨n, LARGE, true, .largeNode⟩

structure Large (s : Pool) (nodes : List ℕ) : Prop where
  linked : Linked s.word s.large nodes
  length : nodes.length = s.nlarge
  nodup : nodes.Nodup
  owned : ∀ n ∈ nodes, nodePiece n ∈ s.live
  recorded : ((nodes.map fun n => s.word (n + 8)).filter (· ≠ 0)).Perm (s.chunks.map Piece.start)
  owner : ∀ c ∈ s.chunks, c.owner ≠ .largeNode

structure Inv (size : ℕ) (s : Pool) (nodes : List ℕ) : Prop where
  base : Base size [] s
  large : Large s nodes

/-- A word of the piece. -/
def Piece.Has (g : Piece) (a : ℕ) : Prop := g.start ≤ a ∧ a + 8 ≤ g.start + g.size

theorem nodePiece_next (n : ℕ) : (nodePiece n).Has n :=
  ⟨Nat.le_refl _, Nat.add_le_add_left (show 8 ≤ LARGE by decide) n⟩

theorem nodePiece_alloc (n : ℕ) : (nodePiece n).Has (n + 8) := ⟨Nat.le_add_right _ _, Nat.le_refl _⟩

/-- The words of two pieces are different. -/
theorem Base.word_ne (h : Base size X s) {g g' : Piece} (hg : g ∈ s.live) (hg' : g' ∈ s.live) (hne : g ≠ g') {a a' : ℕ}
    (ha : g.Has a) (ha' : g'.Has a') : a ≠ a' := by
  have hap := h.apart hg hg' hne
  have h1 : g.extent.start = g.start := rfl
  have h2 : g.extent.size = g.size := rfl
  have h3 : g'.extent.start = g'.start := rfl
  have h4 : g'.extent.size = g'.size := rfl
  unfold Apart at hap
  unfold Piece.Has at ha ha'
  omega

/-- The list is kept where its words are. -/
theorem Large.keep (h : Large s nodes) (hnext : ∀ n ∈ nodes, s'.word n = s.word n)
    (halloc : ∀ n ∈ nodes, s'.word (n + 8) = s.word (n + 8)) (hlive : ∀ n ∈ nodes, nodePiece n ∈ s'.live)
    (hlarge : s'.large = s.large) (hnlarge : s'.nlarge = s.nlarge) (hchunks : s'.chunks = s.chunks) :
    Large s' nodes := by
  refine ⟨?_, ?_, h.nodup, hlive, ?_, hchunks ▸ h.owner⟩
  · rw [hlarge]
    exact h.linked.congr hnext
  · rw [hnlarge]
    exact h.length
  · rw [hchunks, List.map_congr_left halloc]
    exact h.recorded

/-- What an allocation keeps: the pieces handed out, and the words of the cleanup
nodes. -/
structure Grows (s s' : Pool) : Prop where
  live : ∀ g ∈ s.live, g ∈ s'.live
  word : ∀ g ∈ s.live, g.owner = .cleanupNode → ∀ a, g.Has a → s'.word a = s.word a
  cleanup : s'.cleanup = s.cleanup
  added : s'.added = s.added

theorem Grows.trans {s₁ s₂ s₃ : Pool} (h : Grows s₁ s₂) (h' : Grows s₂ s₃) : Grows s₁ s₃ := by
  refine ⟨fun g hg => h'.live g (h.live g hg), fun g hg ho a ha => ?_, h'.cleanup.trans h.cleanup,
    h'.added.trans h.added⟩
  exact (h'.word g (h.live g hg) ho a ha).trans (h.word g hg ho a ha)

theorem SameLists.grows (h : SameLists s s') (hlive : ∀ g ∈ s.live, g ∈ s'.live) : Grows s s' :=
  ⟨hlive, fun _ _ _ a _ => congrFun h.word a, h.cleanup, h.added⟩

theorem SameLists.keeps (h : SameLists s s') (hl : Large s nodes) (hlive : ∀ g ∈ s.live, g ∈ s'.live) :
    Large s' nodes :=
  hl.keep (fun n _ => congrFun h.word n) (fun n _ => congrFun h.word (n + 8)) (fun n hn => hlive _ (hl.owned n hn))
    h.large h.nlarge h.chunks

/-! ## A new record -/

/-- One of the nodes gets a value where it had none. -/
theorem recorded_update {f f' : ℕ → ℕ} {l p : ℕ} (hnodup : nodes.Nodup) (hl : l ∈ nodes) (hold : f l = 0) (hp : p ≠ 0)
    (hnew : f' l = p) (hsame : ∀ n ∈ nodes, n ≠ l → f' n = f n) :
    ((nodes.map f').filter (· ≠ 0)).Perm (p :: (nodes.map f).filter (· ≠ 0)) := by
  have hperm : nodes.Perm (l :: nodes.erase l) := List.perm_cons_erase hl
  have hrest : (nodes.erase l).map f' = (nodes.erase l).map f :=
    List.map_congr_left fun n hn => hsame n (List.mem_of_mem_erase hn) (hnodup.mem_erase_iff.1 hn).1
  have h' : ((nodes.map f').filter (· ≠ 0)).Perm (((l :: nodes.erase l).map f').filter (· ≠ 0)) :=
    (hperm.map f').filter _
  have h : ((nodes.map f).filter (· ≠ 0)).Perm (((l :: nodes.erase l).map f).filter (· ≠ 0)) :=
    (hperm.map f).filter _
  rw [List.map_cons, hnew, hrest, List.filter_cons_of_pos (by simpa using hp)] at h'
  rw [List.map_cons, hold, List.filter_cons_of_neg (by simp)] at h
  exact h'.trans (h.symm.cons p)

/-- A block from malloc, in hand. -/
theorem Base.hand {p : ℕ} (answers : List (Option ℕ)) (h : Base size X s) (hf : Fresh s.heap ⟨p, bytes⟩)
    (hb : 0 < bytes) : Base size (⟨p, bytes⟩ :: X) { s with heap := ⟨p, bytes⟩ :: s.heap, answers } := by
  refine { h with heap := ?_, separate := h.separate.add hf.2.2.2, bounds := fun e he => ?_ }
  · show (⟨p, bytes⟩ :: s.heap).Perm (s.blocks.map Block.extent ++ (s.chunks.map Piece.extent ++ ⟨p, bytes⟩ :: X))
    refine (h.heap.cons _).trans ?_
    refine List.perm_middle.symm.trans (List.Perm.append_left _ ?_)
    exact List.perm_middle.symm
  · rcases List.mem_cons.1 he with rfl | he
    · exact ⟨hf.1, hf.2.1, hb⟩
    · exact h.bounds e he

/-- It becomes a large block. -/
theorem Base.record {p : ℕ} (h : Base size (⟨p, bytes⟩ :: X) s) (owner : Owner) :
    Base size X { s with chunks := ⟨p, bytes, true, owner⟩ :: s.chunks } := by
  refine { h with heap := h.heap.trans (List.Perm.append_left _ ?_) }
  exact List.perm_middle

/-- Or it is given back. -/
theorem Base.giveBack {p : ℕ} (h : Base size (⟨p, bytes⟩ :: X) s) :
    ∃ heap, s.free p = { s with heap } ∧ Base size X { s with heap } := by
  have hfront : s.heap.Perm (⟨p, bytes⟩ :: (s.blocks.map Block.extent ++ (s.chunks.map Piece.extent ++ X))) := by
    refine h.heap.trans ?_
    refine (List.Perm.append_left _ List.perm_middle).trans ?_
    exact List.perm_middle
  obtain ⟨heap, heq, hperm⟩ := free_eq hfront h.separate h.bounds
  have hsub : ∀ e ∈ heap, e ∈ s.heap := fun e he =>
    hfront.mem_iff.2 (List.mem_cons_of_mem _ (hperm.mem_iff.1 he))
  refine ⟨heap, heq, { h with heap := hperm, separate := ?_, bounds := fun e he => h.bounds e (hsub e he) }⟩
  exact ((h.separate.perm hfront).tail).perm hperm.symm

theorem Base.store (h : Base size X s) (a v : ℕ) : Base size X (s.store a v) := h.congr rfl rfl rfl rfl rfl rfl

/-! ## A large request -/

/-- The request uses a node that has no block. -/
theorem reuse_spec {p l : ℕ} (h : Base size [⟨p, bytes⟩] s) (hl : Large s nodes) (ho : owner ≠ .largeNode) (hp : 0 < p)
    (hmem : l ∈ nodes)
    (hzero : s.word (l + 8) = 0) :
    Inv size { s.store (l + 8) p with chunks := ⟨p, bytes, true, owner⟩ :: s.chunks } nodes ∧
      Grows s { s.store (l + 8) p with chunks := ⟨p, bytes, true, owner⟩ :: s.chunks } := by
  have hlive : ∀ g ∈ s.live, g ∈ s.blocks.flatMap Block.given ++ ⟨p, bytes, true, owner⟩ :: s.chunks := by
    intro g hg
    rcases List.mem_append.1 hg with hg | hg
    · exact List.mem_append_left _ hg
    · exact List.mem_append_right _ (List.mem_cons_of_mem _ hg)
  -- No other word of a node, and no word of another piece, is the one that is set.
  have hother : ∀ n ∈ nodes, n ≠ l → ∀ a, (nodePiece n).Has a → a ≠ l + 8 := by
    intro n hn hne a ha
    refine h.word_ne (hl.owned n hn) (hl.owned l hmem) (fun he => hne ?_) ha (nodePiece_alloc l)
    exact congrArg Piece.start he
  have hnext : ∀ n ∈ nodes, n ≠ l + 8 := by
    intro n hn
    by_cases hne : n = l
    · omega
    · exact hother n hn hne n (nodePiece_next n)
  refine ⟨⟨(h.store (l + 8) p).record owner, ?_⟩, hlive, fun g hg ho a ha => ?_, rfl, rfl⟩
  · refine ⟨?_, hl.length, hl.nodup, fun n hn => hlive _ (hl.owned n hn), ?_, List.forall_mem_cons.2 ⟨ho, hl.owner⟩⟩
    · exact hl.linked.congr fun n hn => Function.update_of_ne (hnext n hn) _ _
    · have hrecord : ((nodes.map fun n => Function.update s.word (l + 8) p (n + 8)).filter (· ≠ 0)).Perm
          (p :: (nodes.map fun n => s.word (n + 8)).filter (· ≠ 0)) := by
        refine recorded_update hl.nodup hmem hzero (by omega) (Function.update_self _ _ _) fun n hn hne => ?_
        exact Function.update_of_ne (hother n hn hne _ (nodePiece_alloc n)) _ _
      exact hrecord.trans (hl.recorded.cons p)
  · refine Function.update_of_ne ?_ _ _
    refine h.word_ne hg (hl.owned l hmem) (fun he => ?_) ha (nodePiece_alloc l)
    rw [he] at ho
    cases ho

/-- The request puts a new node in front. -/
theorem push_spec {p l : ℕ} (h : Base size [⟨p, bytes⟩] s) (hl : Large s nodes) (ho : owner ≠ .largeNode) (hp : 0 < p)
    (hnew : nodePiece l ∈ s.live) (hnot : l ∉ nodes) :
    Inv size { (s.store (l + 8) p).store l s.large with
        large := l, nlarge := s.nlarge + 1, chunks := ⟨p, bytes, true, owner⟩ :: s.chunks } (l :: nodes) ∧
      Grows s { (s.store (l + 8) p).store l s.large with
        large := l, nlarge := s.nlarge + 1, chunks := ⟨p, bytes, true, owner⟩ :: s.chunks } := by
  have hlive : ∀ g ∈ s.live, g ∈ s.blocks.flatMap Block.given ++ ⟨p, bytes, true, owner⟩ :: s.chunks := by
    intro g hg
    rcases List.mem_append.1 hg with hg | hg
    · exact List.mem_append_left _ hg
    · exact List.mem_append_right _ (List.mem_cons_of_mem _ hg)
  -- The words that are set are those of the new node.
  have hother : ∀ g ∈ s.live, g ≠ nodePiece l → ∀ a, g.Has a →
      Function.update (Function.update s.word (l + 8) p) l s.large a = s.word a := by
    intro g hg hne a ha
    rw [Function.update_of_ne (h.word_ne hg hnew hne ha (nodePiece_next l)),
      Function.update_of_ne (h.word_ne hg hnew hne ha (nodePiece_alloc l))]
  have hnode : ∀ n ∈ nodes, nodePiece n ≠ nodePiece l :=
    fun n hn he => hnot ((show n = l from congrArg Piece.start he) ▸ hn)
  refine ⟨⟨((h.store (l + 8) p).store l s.large).record owner |>.congr rfl rfl rfl rfl rfl rfl, ?_⟩, hlive,
    fun g hg ho a ha => hother g hg (fun he => ?_) a ha, rfl, rfl⟩
  rotate_left
  · rw [he] at ho
    cases ho
  refine ⟨⟨rfl, ?_, ?_⟩, ?_, List.nodup_cons.2 ⟨hnot, hl.nodup⟩, fun n hn => ?_, ?_,
    List.forall_mem_cons.2 ⟨ho, hl.owner⟩⟩
  · exact Nat.pos_iff_ne_zero.1 (h.start hnew).1
  · show Linked _ (Function.update (Function.update s.word (l + 8) p) l s.large l) nodes
    rw [Function.update_self]
    exact hl.linked.congr fun n hn => hother _ (hl.owned n hn) (hnode n hn) n (nodePiece_next n)
  · show nodes.length + 1 = s.nlarge + 1
    rw [hl.length]
  · rcases List.mem_cons.1 hn with rfl | hn
    · exact hlive _ hnew
    · exact hlive _ (hl.owned n hn)
  · show (((l :: nodes).map fun n => Function.update (Function.update s.word (l + 8) p) l s.large (n + 8)).filter
      (· ≠ 0)).Perm (p :: s.chunks.map Piece.start)
    have hself : Function.update (Function.update s.word (l + 8) p) l s.large (l + 8) = p := by
      rw [Function.update_of_ne (by omega), Function.update_self]
    rw [List.map_cons, hself, List.filter_cons_of_pos (by simp; omega), List.map_congr_left fun n hn =>
      hother _ (hl.owned n hn) (hnode n hn) (n + 8) (nodePiece_alloc n)]
    exact hl.recorded.cons p

/-- A new piece is none of the old. -/
theorem not_mem_of_new {g : Piece} {more : List Piece} (hg : 0 < g.size) (h : Base size X s')
    (hperm : s'.live.Perm (g :: more)) : g ∉ more := by
  intro hm
  have hsep : Separate ((g :: more).map Piece.extent) := h.live_separate.left.perm (hperm.map _)
  rw [List.map_cons] at hsep
  exact (Within.refl g.extent).not_apart hg (hsep.apart (List.mem_map_of_mem hm))

/-- A large request. -/
theorem pallocLarge_spec {r : Option ℕ} (h : Inv size s nodes) (heven : s.Even) (hb : 0 < bytes)
    (ho : owner ≠ .largeNode) (hp : s.pallocLarge bytes owner = some (s', r)) :
    ∃ nodes', Inv size s' nodes' ∧ Grows s s' ∧ s'.Even ∧
      (r = none ∨ ∃ p more, r = some p ∧ s'.live.Perm (⟨p, bytes, true, owner⟩ :: (more ++ s.live))) := by
  unfold Pool.pallocLarge at hp
  cases hm : s.malloc bytes with
  | none =>
    rw [hm] at hp
    cases hp
  | some q =>
    rw [hm] at hp
    obtain ⟨s₁, p⟩ := q
    rcases malloc_cases hm with ⟨answers, rfl, rfl⟩ | ⟨p, answers, rfl, hf, rfl⟩
    · cases hp
      refine ⟨nodes, ⟨h.base.congr rfl rfl rfl rfl rfl rfl, ?_⟩, ⟨fun _ hg => hg, fun _ _ _ _ _ => rfl, rfl, rfl⟩,
        heven, .inl rfl⟩
      exact h.large.keep (fun _ _ => rfl) (fun _ _ => rfl) h.large.owned rfl rfl rfl
    · have hbase := h.base.hand answers hf hb
      generalize hs₁ : ({ s with heap := ⟨p, bytes⟩ :: s.heap, answers } : Pool) = s₁ at hbase hp
      have hlive₁ : s₁.live = s.live := by rw [← hs₁]; rfl
      have heven₁ : s₁.Even := by
        rw [← hs₁]
        exact heven
      have hgrows₁ : Grows s s₁ := by
        rw [← hs₁]
        exact ⟨fun _ hg => hg, fun _ _ _ _ _ => rfl, rfl, rfl⟩
      have hlarge₁ : Large s₁ nodes := by
        rw [← hs₁]
        exact h.large.keep (fun _ _ => rfl) (fun _ _ => rfl) h.large.owned rfl rfl rfl
      dsimp only at hp
      split at hp
      · rename_i l hfree
        cases hp
        obtain ⟨hl, hzero⟩ := findFree_mem hlarge₁.linked hfree
        obtain ⟨hinv, hgrows⟩ := reuse_spec hbase hlarge₁ ho hf.1 hl hzero
        refine ⟨nodes, hinv, hgrows₁.trans hgrows, heven₁, .inr ⟨p, [], rfl, ?_⟩⟩
        rw [← hlive₁]
        exact List.perm_middle
      · cases hsmall : s₁.pallocSmall LARGE true .largeNode with
        | none =>
          rw [hsmall] at hp
          cases hp
        | some q =>
          obtain ⟨s₂, r₂⟩ := q
          rw [hsmall] at hp
          have hpool := h.base.chain.pos
          obtain ⟨hbase₂, hsame, heven₂, hout⟩ :=
            pallocSmall_spec hbase (fun _ => heven₁) (Nat.le_trans (by decide) hpool) hsmall
          have heven₂ : s₂.Even := heven₂ rfl (by decide)
          rcases hout with ⟨rfl, hlive₂⟩ | ⟨l, rfl, hlive₂, -⟩
          · cases hp
            obtain ⟨heap, heq, hback⟩ := hbase₂.giveBack
            have hsub : ∀ g ∈ s₁.live, g ∈ s₂.live := fun g hg => hlive₂ ▸ hg
            rw [heq]
            refine ⟨nodes, ⟨hback, ?_⟩, hgrows₁.trans ?_, heven₂, .inl rfl⟩
            · exact (hsame.keeps hlarge₁ hsub).keep (fun _ _ => rfl) (fun _ _ => rfl)
                (hsame.keeps hlarge₁ hsub).owned rfl rfl rfl
            · exact (hsame.grows hsub).trans ⟨fun _ hg => hg, fun _ _ _ _ _ => rfl, rfl, rfl⟩
          · cases hp
            have hsub : ∀ g ∈ s₁.live, g ∈ s₂.live := fun g hg => hlive₂.mem_iff.2 (List.mem_cons_of_mem _ hg)
            have hlarge₂ := hsame.keeps hlarge₁ hsub
            have hnot : l ∉ nodes := by
              intro hl
              exact not_mem_of_new (show 0 < LARGE by decide) hbase₂ hlive₂ (hlarge₁.owned l hl)
            obtain ⟨hinv, hgrows⟩ := push_spec hbase₂ hlarge₂ ho hf.1 (hlive₂.mem_iff.2 List.mem_cons_self) hnot
            refine ⟨l :: nodes, hinv, (hgrows₁.trans (hsame.grows hsub)).trans hgrows, heven₂,
              .inr ⟨p, [nodePiece l], rfl, ?_⟩⟩
            refine List.perm_middle.trans (List.Perm.cons _ ?_)
            rw [← hlive₁]
            exact hlive₂

/-- Any request: it is refused, or a new piece is handed out. -/
theorem pallocFor_spec {r : Option ℕ} (h : Inv size s nodes) (heven : align = true ∨ s.max < bytes → s.Even)
    (ho : owner ≠ .largeNode) (hp : s.pallocFor bytes align owner = some (s', r)) :
    ∃ nodes', Inv size s' nodes' ∧ Grows s s' ∧ (align = true → bytes % 8 = 0 → s'.Even) ∧
      (r = none ∨ ∃ p more aligned, r = some p ∧ (align = true → aligned = true) ∧
        s'.live.Perm (⟨p, bytes, aligned, owner⟩ :: (more ++ s.live))) := by
  unfold Pool.pallocFor at hp
  split at hp
  · rename_i hle
    have hpool := h.base.chain.pos
    have hmax := h.base.max
    have hdata : DATA = 32 := rfl
    have hhead : POOL = 64 := rfl
    obtain ⟨hbase, hsame, heven', hout⟩ := pallocSmall_spec h.base (fun ha => heven (.inl ha)) (by omega) hp
    rcases hout with ⟨rfl, hlive⟩ | ⟨m, rfl, hlive, -⟩
    · have hsub : ∀ g ∈ s.live, g ∈ s'.live := fun g hg => hlive ▸ hg
      exact ⟨nodes, ⟨hbase, hsame.keeps h.large hsub⟩, hsame.grows hsub, heven', .inl rfl⟩
    · have hsub : ∀ g ∈ s.live, g ∈ s'.live := fun g hg => hlive.mem_iff.2 (List.mem_cons_of_mem _ hg)
      exact ⟨nodes, ⟨hbase, hsame.keeps h.large hsub⟩, hsame.grows hsub, heven', .inr ⟨m, [], align, rfl, id, hlive⟩⟩
  · rename_i hgt
    obtain ⟨nodes', hinv, hgrows, heven', hout⟩ := pallocLarge_spec h (heven (.inr (by omega))) (by omega) ho hp
    refine ⟨nodes', hinv, hgrows, fun _ _ => heven', hout.imp_right fun hx => ?_⟩
    obtain ⟨p, more, hr, hlive⟩ := hx
    exact ⟨p, more, true, hr, fun _ => rfl, hlive⟩

/-! ## Writes -/

/-- Words change, and none of them is a word of a node of the list. -/
theorem Inv.writeElsewhere (h : Inv size s nodes) {word : ℕ → ℕ}
    (hword : ∀ n ∈ nodes, ∀ a, (nodePiece n).Has a → word a = s.word a) : Inv size { s with word } nodes := by
  refine ⟨h.base.congr rfl rfl rfl rfl rfl rfl, ?_⟩
  refine h.large.keep (fun n hn => ?_) (fun n hn => ?_) h.large.owned rfl rfl rfl
  · exact hword n hn n (nodePiece_next n)
  · exact hword n hn (n + 8) (nodePiece_alloc n)

/-- Words change, and none of them is a word of a node. -/
theorem Inv.write (h : Inv size s nodes) {word : ℕ → ℕ}
    (hword : ∀ g ∈ s.live, g.owner ≠ .user → ∀ a, g.Has a → word a = s.word a) :
    Inv size { s with word } nodes ∧ Grows s { s with word } := by
  refine ⟨h.writeElsewhere fun n hn => ?_, fun _ hg => hg, fun g hg ho a ha => ?_, rfl, rfl⟩
  · exact hword _ (h.large.owned n hn) fun he => by cases he
  · refine hword g hg (fun he => ?_) a ha
    cases ho.symm.trans he

/-- Zeroing a user's block. -/
theorem memzero_spec {g : Piece} (h : Inv size s nodes) (hg : g ∈ s.live) (ho : g.owner = .user) :
    Inv size (s.memzero g.start g.size) nodes ∧ Grows s (s.memzero g.start g.size) := by
  refine h.write fun g' hg' ho' a ha => if_pos ?_
  have hap := h.base.apart hg hg' fun he => ho' (he ▸ ho)
  have h1 : g.extent.start = g.start := rfl
  have h2 : g.extent.size = g.size := rfl
  have h3 : g'.extent.start = g'.start := rfl
  have h4 : g'.extent.size = g'.size := rfl
  unfold Apart at hap
  unfold Piece.Has at ha
  omega

/-- Writing a byte of one. -/
theorem writeByte_spec {x v : ℕ} (h : Inv size s nodes) (hx : s.Writable x) :
    Inv size (s.writeByte x v) nodes ∧ Grows s (s.writeByte x v) := by
  obtain ⟨g, hg, ho, hlow, hhigh⟩ := hx
  refine h.write fun g' hg' ho' a ha => Function.update_of_ne ?_ _ _
  have hap := h.base.apart hg hg' fun he => ho' (he ▸ ho)
  have h1 : g.extent.start = g.start := rfl
  have h2 : g.extent.size = g.size := rfl
  have h3 : g'.extent.start = g'.start := rfl
  have h4 : g'.extent.size = g'.size := rfl
  unfold Apart at hap
  unfold Piece.Has at ha
  omega

/-! ## The other operations -/

/-- The starts of the large blocks differ. -/
theorem Base.nodup_chunks (h : Base size X s) : (s.chunks.map Piece.start).Nodup := by
  have hpos : ∀ e ∈ s.chunks.map Piece.extent, 0 < e.size := fun e he =>
    (h.bounds e (h.heap.mem_iff.2 (List.mem_append_right _ (List.mem_append_left _ he)))).2.2
  have hnodup := h.regions.right.left.nodup_start hpos
  rwa [List.map_map] at hnodup

/-- A large block leaves. -/
theorem Base.leave {c : Piece} (h : Base size [] s) (hc : c ∈ s.chunks) :
    ∃ heap, s.free c.start = { s with heap } ∧
      Base size [] { s with heap, chunks := s.chunks.eraseP fun g => g.start = c.start } := by
  have hperm : (s.chunks.map Piece.extent).Perm (c.extent :: (s.chunks.erase c).map Piece.extent) :=
    (List.perm_cons_erase hc).map Piece.extent
  have hchunks : s.chunks.eraseP (fun g => g.start = c.start) = s.chunks.erase c := eraseP_key h.nodup_chunks hc
  have hfront : s.heap.Perm
      (c.extent :: (s.blocks.map Block.extent ++ ((s.chunks.erase c).map Piece.extent ++ []))) := by
    refine h.heap.trans ?_
    refine (List.Perm.append_left _ (hperm.append_right _)).trans ?_
    exact List.perm_middle
  obtain ⟨heap, heq, hheap⟩ := free_eq hfront h.separate h.bounds
  have hsub : ∀ e ∈ heap, e ∈ s.heap := fun e he =>
    hfront.mem_iff.2 (List.mem_cons_of_mem _ (hheap.mem_iff.1 he))
  rw [hchunks]
  refine ⟨heap, heq, { h with heap := hheap, separate := ?_, bounds := fun e he => h.bounds e (hsub e he) }⟩
  exact ((h.separate.perm hfront).tail).perm hheap.symm

/-- No large block is where a node is. -/
theorem Inv.start_ne_chunk (h : Inv size s nodes) {n : ℕ} {c : Piece} (hn : n ∈ nodes) (hc : c ∈ s.chunks) :
    n ≠ c.start := by
  intro hs
  have hlive : c ∈ s.live := List.mem_append_right _ hc
  have hne : nodePiece n ≠ c := fun he => h.large.owner c hc (he ▸ rfl)
  have hap := h.base.apart (h.large.owned n hn) hlive hne
  have hheap : c.extent ∈ s.heap :=
    h.base.heap.mem_iff.2 (List.mem_append_right _ (List.mem_append_left _ (List.mem_map_of_mem hc)))
  have hpos := (h.base.bounds _ hheap).2.2
  have h1 : (nodePiece n).extent.start = n := rfl
  have h2 : (nodePiece n).extent.size = 16 := rfl
  have h3 : c.extent.start = c.start := rfl
  unfold Apart at hap
  omega

/-- A large block is recorded by one node. -/
theorem Inv.recorded_once (h : Inv size s nodes) {c : Piece} (hc : c ∈ s.chunks) :
    ∃! n, n ∈ nodes ∧ s.word (n + 8) = c.start := by
  have hnodup : ((nodes.map fun n => s.word (n + 8)).filter (· ≠ 0)).Nodup :=
    h.large.recorded.nodup_iff.2 h.base.nodup_chunks
  rw [List.filter_map] at hnodup
  obtain ⟨hn, hne⟩ := List.mem_filter.1 (h.large.recorded.mem_iff.2 (List.mem_map_of_mem hc))
  obtain ⟨n, hn, hword⟩ := List.mem_map.1 hn
  refine ⟨n, ⟨hn, hword⟩, fun m hm => ?_⟩
  have hfilter : ∀ k ∈ nodes, s.word (k + 8) = c.start →
      k ∈ nodes.filter ((fun a => decide (a ≠ 0)) ∘ fun k => s.word (k + 8)) := by
    intro k hk hs
    refine List.mem_filter.2 ⟨hk, ?_⟩
    show decide (s.word (k + 8) ≠ 0) = true
    rw [hs]
    exact hne
  exact List.inj_on_of_nodup_map hnodup (hfilter m hm.1 hm.2) (hfilter n hn hword) (hm.2.trans hword.symm)

/-- What `ngx_pfree` does for others than the owner of the block. -/
structure Spares (p : ℕ) (s s' : Pool) : Prop where
  live : ∀ g ∈ s.live, g.start ≠ p → g ∈ s'.live
  word : ∀ g ∈ s.live, g.owner = .cleanupNode → ∀ a, g.Has a → s'.word a = s.word a
  cleanup : s'.cleanup = s.cleanup
  added : s'.added = s.added

/-- `ngx_pfree`: nothing, or the block goes back and its node has none. -/
theorem pfree_spec (h : Inv size s nodes) (p : ℕ) : Inv size (s.pfree p) nodes ∧ Spares p s (s.pfree p) := by
  unfold Pool.pfree
  cases hf : Pool.findAlloc s.word p s.nlarge s.large with
  | none => exact ⟨h, fun _ hg _ => hg, fun _ _ _ _ _ => rfl, rfl, rfl⟩
  | some l =>
    obtain ⟨hl, hword⟩ := findAlloc_mem h.large.linked hf
    have hnode := h.large.owned l hl
    -- The words of other nodes, and of other pieces, stay.
    have hother : ∀ n ∈ nodes, n ≠ l → ∀ a, (nodePiece n).Has a → a ≠ l + 8 := by
      intro n hn hne a ha
      refine h.base.word_ne (h.large.owned n hn) hnode (fun he => hne ?_) ha (nodePiece_alloc l)
      exact congrArg Piece.start he
    have hcleanup : ∀ g ∈ s.live, g.owner = .cleanupNode → ∀ a, g.Has a →
        Function.update s.word (l + 8) 0 a = s.word a := by
      intro g hg ho a ha
      refine Function.update_of_ne (h.base.word_ne hg hnode (fun he => ?_) ha (nodePiece_alloc l)) _ _
      rw [he] at ho
      cases ho
    have hlinked : Linked (Function.update s.word (l + 8) 0) s.large nodes := by
      refine h.large.linked.congr fun n hn => Function.update_of_ne ?_ _ _
      by_cases hne : n = l
      · omega
      · exact hother n hn hne n (nodePiece_next n)
    by_cases hp : p = 0
    · -- A node without a block was found, and `free` does nothing.
      subst hp
      have hsame : Function.update s.word (l + 8) 0 = s.word := by
        rw [← hword, Function.update_eq_self]
      have hchunks : s.chunks.eraseP (fun g => g.start = 0) = s.chunks := by
        refine List.eraseP_of_forall_not fun c hc => ?_
        have hpos := (h.base.start (List.mem_append_right _ hc)).1
        simp only [decide_eq_true_eq]
        omega
      dsimp only
      rw [hchunks]
      have hstay : ({ (s.free 0).store (l + 8) 0 with chunks := s.chunks } : Pool) = s := by
        show ({ s with word := Function.update s.word (l + 8) 0 } : Pool) = s
        rw [hsame]
      rw [hstay]
      exact ⟨h, fun _ hg _ => hg, fun _ _ _ _ _ => rfl, rfl, rfl⟩
    · have hmem : p ∈ (nodes.map fun n => s.word (n + 8)).filter (· ≠ 0) :=
        List.mem_filter.2 ⟨List.mem_map.2 ⟨l, hl, hword⟩, by simpa using hp⟩
      obtain ⟨c, hc, rfl⟩ := List.mem_map.1 (h.large.recorded.mem_iff.1 hmem)
      obtain ⟨heap, heq, hleave⟩ := h.base.leave hc
      have hlive : ∀ g ∈ s.live, g.start ≠ c.start →
          g ∈ s.blocks.flatMap Block.given ++ s.chunks.eraseP fun g => g.start = c.start := by
        intro g hg hne
        rcases List.mem_append.1 hg with hg | hg
        · exact List.mem_append_left _ hg
        · exact List.mem_append_right _ ((List.mem_eraseP_of_neg (by simpa using hne)).2 hg)
      have hchunks : (s.chunks.map Piece.start).Perm
          (c.start :: (s.chunks.eraseP fun g => g.start = c.start).map Piece.start) := by
        rw [eraseP_key h.base.nodup_chunks hc]
        exact (List.perm_cons_erase hc).map Piece.start
      have hrecord : ((nodes.map fun n => s.word (n + 8)).filter (· ≠ 0)).Perm
          (c.start :: (nodes.map fun n => Function.update s.word (l + 8) 0 (n + 8)).filter (· ≠ 0)) := by
        refine recorded_update h.large.nodup hl (Function.update_self _ _ _) hp hword fun n hn hne => ?_
        exact (Function.update_of_ne (hother n hn hne _ (nodePiece_alloc n)) _ _).symm
      dsimp only
      rw [heq]
      refine ⟨⟨(hleave.store (l + 8) 0).congr rfl rfl rfl rfl rfl rfl, ?_⟩, hlive, hcleanup, rfl, rfl⟩
      refine ⟨hlinked, h.large.length, h.large.nodup, fun n hn => ?_, ?_, fun g hg => ?_⟩
      · exact hlive _ (h.large.owned n hn) (h.start_ne_chunk hn hc)
      · exact (hrecord.symm.trans (h.large.recorded.trans hchunks)).cons_inv
      · exact h.large.owner g (List.mem_of_mem_eraseP hg)

end Learncc.Ngx
