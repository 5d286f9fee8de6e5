/-
Every move of a push or a pop on a `lock_free_queue` keeps the invariant of the
counts, if a push that finds a node without a value finds it last. In such runs
no call uses a node that is not there and no value is given out twice, and with
no call under way what was pushed and not popped is in the nodes from `head` to
`tail`.
-/
import Learncc.Public.LockFreeMoves

namespace Learncc.LockFreeQueue

variable {α : Type} {s s' : LockFreeQueue α} {calls : List (Call α)} {pre post l : List ℕ} {c : Call α} {i n : ℕ}
  {x : Node α} {value : α} {choice : Choice}

/-- Some chain. -/
def Ok (s : LockFreeQueue α) (calls : List (Call α)) : Prop := ∃ pre post, Inv s calls pre post

theorem onNode_some {π : Type} {u : π} {f : Node α → Option (π × LockFreeQueue α)} (h : s.heap n = some x) :
    s.onNode u n f = f x := by
  rw [onNode, h]

/-- A call that knows its new nodes only. -/
theorem Call.Knows.bare (hsound : c.isUndefined = false) (hnews : ∀ n ∈ c.news, n ≠ 0 ∧ s.heap n = some Node.new)
    (hlinks : c.links = none) (hloops : c.loops = none) (hfilled : c.filled = none) (hbeyond : c.beyond = none)
    (htakes : c.takes = none) : c.Knows s l where
  sound := hsound
  news := hnews
  links := fun n p hn => by rw [hlinks] at hn; cases hn
  loops := fun m n hn => by rw [hloops] at hn; cases hn
  filled := fun n hn => by rw [hfilled] at hn; cases hn
  beyond := fun n hn => by rw [hbeyond] at hn; cases hn
  takes := fun n hn => by rw [htakes] at hn; cases hn

/-- What a node is linked to, if it is linked. -/
theorem Inv.next_ne (h : Inv s calls pre post) (hx : s.heap n = some x) (hnext : x.next ≠ ⟨0, 0⟩) : x.next.ptr ≠ 0 := by
  rw [← nextOf_some hx] at hnext ⊢
  exact ((h.ptrs n).resolve_left hnext).2

/-- A new node of the mover is none that is held. -/
theorem Inv.new_ne (h : Inv s calls pre post) (hc : calls[i]? = some c) (hn : n ∈ c.news) :
    n ∉ chain s pre post ∧ c.holds ≠ some n := by
  obtain ⟨-, hnot, hzero, -⟩ := h.own hc (Call.news_owns hn)
  refine ⟨hnot, fun hheld => ?_⟩
  have hpos := (h.shared hc hheld).2.2
  omega

/-- A call's own nodes differ. -/
theorem Inv.owns_nodup (h : Inv s calls pre post) (hc : calls[i]? = some c) : c.owns.Nodup := by
  refine List.nodup_iff_count_le_one.2 fun n => ?_
  have hplace := h.place n
  have hle := present_le s.heap n
  have hone : c.places n ≤ _ := Calls.le_total (f := Call.places n) hc
  change c.places n ≤ 1
  omega

/-! ## release_ref and free_external_counter -/

/-- A call that gives `ptr` up, and what it is when it has. -/
structure Drops (ptr : ℕ) (mk : Drop → Call α) (last : Call α) : Prop where
  load : ∀ ch, (mk (.load ch)).holds = some ptr ∧ (mk (.load ch)).owns = last.owns
  cas : ∀ ch old, (mk (.cas ch old)).holds = some ptr ∧ (mk (.cas ch old)).owns = last.owns
  delete : (mk .delete).holds = none ∧ (mk .delete).owns = ptr :: last.owns ∧ (mk .delete).frees = none
  frees : ∀ ch old, (mk (.load ch)).frees = (mk (.cas ch old)).frees ∧
    (mk (.cas ch old)).frees = match ch with
      | .releaseRef => none
      | .freeExternal e => some ⟨e, ptr⟩
  rest : last.holds = none ∧ last.frees = none ∧ last.owns = last.news
  sound : ∀ c, c = last ∨ (∃ dr, c = mk dr) → c.isUndefined = false ∧ c.links = none ∧ c.loops = none ∧
    c.filled = none ∧ c.beyond = none
  alike : ∀ c, c = last ∨ (∃ dr, c = mk dr) → c.takes = none ∧ c.fills = none ∧ c.news = last.news ∧
    c.put = last.put ∧ ∀ heap heap', c.hand heap = last.hand heap'

theorem drops_push (value : α) (ptr : ℕ) (oldTail : CountedNodePtr) (after : Option ℕ) :
    Drops ptr (fun dr => .push value (.drop ptr dr oldTail after)) (.push value (.next oldTail after)) where
  load := fun _ => ⟨rfl, by cases after <;> rfl⟩
  cas := fun _ _ => ⟨rfl, by cases after <;> rfl⟩
  delete := ⟨rfl, by cases after <;> rfl, rfl⟩
  frees := fun ch _ => by cases ch <;> exact ⟨rfl, rfl⟩
  rest := by cases after <;> exact ⟨rfl, rfl, rfl⟩
  sound := by
    rintro c (rfl | ⟨dr, rfl⟩)
    · cases after <;> exact ⟨rfl, rfl, rfl, rfl, rfl⟩
    · exact ⟨rfl, rfl, rfl, rfl, rfl⟩
  alike := by
    rintro c (rfl | ⟨dr, rfl⟩)
    · cases after <;> exact ⟨rfl, rfl, rfl, rfl, fun _ _ => rfl⟩
    · cases after <;> exact ⟨rfl, rfl, rfl, rfl, fun _ _ => rfl⟩

theorem drops_pop (ptr : ℕ) (after : PopAfter α) :
    Drops ptr (fun dr => .pop (.drop ptr dr after)) (.pop (.next after)) where
  load := fun _ => ⟨rfl, by cases after <;> rfl⟩
  cas := fun _ _ => ⟨rfl, by cases after <;> rfl⟩
  delete := ⟨rfl, by cases after <;> rfl, rfl⟩
  frees := fun ch _ => by cases ch <;> exact ⟨rfl, rfl⟩
  rest := by cases after <;> exact ⟨rfl, rfl, rfl⟩
  sound := by
    rintro c (rfl | ⟨dr, rfl⟩)
    · cases after <;> exact ⟨rfl, rfl, rfl, rfl, rfl⟩
    · exact ⟨rfl, rfl, rfl, rfl, rfl⟩
  alike := by
    rintro c (rfl | ⟨dr, rfl⟩)
    · cases after <;> exact ⟨rfl, rfl, rfl, rfl, fun _ _ => rfl⟩
    · cases after <;> exact ⟨rfl, rfl, rfl, rfl, fun _ _ => rfl⟩

theorem drop_inv {π : Type} {undefined done pc' : π} {pc : Drop → π} {ptr : ℕ} {dr : Drop} {f : π → Call α}
    (hd : Drops ptr (fun dr => f (pc dr)) (f done)) (h : Inv s calls pre post)
    (hc : calls[i]? = some (f (pc dr))) (hm : s.drop undefined ptr pc done dr = some (pc', s')) :
    Inv s' (calls.set i (f pc')) pre post := by
  have hk := h.knows _ (List.mem_of_getElem? hc)
  obtain ⟨htakes, hfills, hnews, hput, hhand⟩ := hd.alike _ (.inr ⟨dr, rfl⟩)
  -- Only the new nodes are left to know about.
  have hbare : ∀ (u : LockFreeQueue α) (c : Call α), c = f done ∨ (∃ dr, c = f (pc dr)) →
      (∀ n ∈ (f (pc dr)).news, u.heap n = s.heap n) → c.Knows u (chain s pre post) := by
    intro u c hkind hu
    obtain ⟨hsound, hlinks, hloops, hfilled, hbeyond⟩ := hd.sound c hkind
    obtain ⟨htakes', -, hnews', -, -⟩ := hd.alike c hkind
    refine Call.Knows.bare hsound (fun n hn => ?_) hlinks hloops hfilled hbeyond htakes'
    rw [hnews', ← hnews] at hn
    rw [hu n hn]
    exact hk.news n hn
  cases dr with
  | load ch =>
    obtain ⟨hholds, howns⟩ := hd.load ch
    obtain ⟨⟨x, hx⟩, -, -⟩ := h.shared hc hholds
    simp only [drop, onNode_some hx] at hm
    cases hm
    obtain ⟨hholds', howns'⟩ := hd.cas ch x.count
    obtain ⟨htakes', hfills', -, hput', hhand'⟩ := hd.alike _ (.inr ⟨.cas ch x.count, rfl⟩)
    exact h.quiet hc (hholds'.trans hholds.symm) (howns'.trans howns.symm) (hd.frees ch x.count).1.symm
      (htakes'.trans htakes.symm) (.inl (hfills'.trans hfills.symm)) (hbare s _ (.inr ⟨_, rfl⟩) fun _ _ => rfl)
      (hput'.trans hput.symm) ((hhand' _ s.heap).trans (hhand _ _).symm)
  | cas ch old =>
    obtain ⟨hholds, howns⟩ := hd.cas ch old
    obtain ⟨⟨x, hx⟩, -, -⟩ := h.shared hc hholds
    simp only [drop, onNode_some hx] at hm
    split at hm
    · rename_i hsame
      subst hsame
      cases hm
      have hheap : ∀ n ∈ (f (pc (.cas ch x.count))).news,
          (s.write ptr { x with count := ch.apply x.count }).heap n = s.heap n := by
        intro n hn
        refine write_heap_ne fun he => (h.new_ne hc hn).2 ?_
        rw [he]
        exact hholds
      split
      · rename_i hzero
        obtain ⟨hholds', howns', hfrees'⟩ := hd.delete
        obtain ⟨htakes', hfills', -, hput', hhand'⟩ := hd.alike _ (.inr ⟨.delete, rfl⟩)
        exact h.recount hc hx ch hholds hholds' (hd.frees ch x.count).2 hfrees'
          (by rw [if_pos hzero, howns', howns]; rfl) htakes' (.inl (hfills'.trans hfills.symm))
          (hbare _ _ (.inr ⟨_, rfl⟩) hheap) (hput'.trans hput.symm) ((hhand' _ s.heap).trans (hhand _ _).symm)
      · rename_i hzero
        obtain ⟨hholds', hfrees', -⟩ := hd.rest
        obtain ⟨htakes', hfills', -, hput', hhand'⟩ := hd.alike _ (.inl rfl)
        exact h.recount hc hx ch hholds hholds' (hd.frees ch x.count).2 hfrees'
          (by rw [if_neg hzero, howns]; rfl) htakes' (.inl (hfills'.trans hfills.symm))
          (hbare _ _ (.inl rfl) hheap) (hput'.trans hput.symm) ((hhand' _ s.heap).trans (hhand _ _).symm)
    · cases hm
      obtain ⟨hholds', howns'⟩ := hd.cas ch x.count
      obtain ⟨htakes', hfills', -, hput', hhand'⟩ := hd.alike _ (.inr ⟨.cas ch x.count, rfl⟩)
      exact h.quiet hc (hholds'.trans hholds.symm) (howns'.trans howns.symm)
        ((hd.frees ch x.count).1.symm.trans (hd.frees ch old).1) (htakes'.trans htakes.symm)
        (.inl (hfills'.trans hfills.symm)) (hbare s _ (.inr ⟨_, rfl⟩) fun _ _ => rfl) (hput'.trans hput.symm)
        ((hhand' _ s.heap).trans (hhand _ _).symm)
  | delete =>
    obtain ⟨hholds, howns, hfrees⟩ := hd.delete
    obtain ⟨⟨x, hx⟩, -, -, -⟩ := h.own (n := ptr) hc (by rw [howns]; exact List.mem_cons_self)
    simp only [drop, onNode_some hx] at hm
    cases hm
    obtain ⟨hholds', hfrees', hown'⟩ := hd.rest
    obtain ⟨htakes', hfills', -, hput', hhand'⟩ := hd.alike _ (.inl rfl)
    have hnodup := h.owns_nodup hc
    rw [howns, hown'] at hnodup
    have hheap : ∀ n ∈ (f (pc .delete)).news, (s.free ptr).heap n = s.heap n := by
      intro n hn
      rw [hnews] at hn
      exact free_heap_ne fun he => (List.nodup_cons.1 hnodup).1 (by rw [← he]; exact hn)
    exact h.discard hc (hholds'.trans hholds.symm) howns (hfrees'.trans hfrees.symm) (htakes'.trans htakes.symm)
      (.inl (hfills'.trans hfills.symm)) (hbare _ _ (.inl rfl) hheap) (hput'.trans hput.symm)
      ((hhand' _ s.heap).trans (hhand _ _).symm)

/-! ## push -/

theorem push_casData {oldTail : CountedNodePtr} {pc' : PushPc} (h : Inv s calls pre post)
    (hc : calls[i]? = some (.push value (.casData n oldTail)))
    (hlast : ∀ x, s.heap oldTail.ptr = some x → x.data = none → oldTail.ptr = s.tail.ptr)
    (hm : s.push value choice (.casData n oldTail) = some (pc', s')) : Ok s' (calls.set i (.push value pc')) := by
  have hk := h.knows _ (List.mem_of_getElem? hc)
  obtain ⟨⟨x, hx⟩, -, -⟩ := h.shared (n := oldTail.ptr) hc rfl
  obtain ⟨hnot, -⟩ := h.new_ne (n := n) hc List.mem_cons_self
  simp only [push, onNode_some hx] at hm
  cases hdata : x.data with
  | none =>
    simp only [hdata] at hm
    cases hm
    have htail := hlast x hx hdata
    rw [htail] at hx ⊢
    have hne : n ≠ s.tail.ptr := fun he => hnot (by rw [he]; exact tail_mem)
    refine ⟨pre, post, h.fill hc hx hdata (congrArg some htail) rfl rfl rfl rfl (congrArg some htail)
      ⟨rfl, fun m hm => ?_, fun _ _ he => (by cases he), fun _ _ he => (by cases he), fun m hm _ => ?_,
        fun _ he => (by cases he), fun _ he => (by cases he)⟩ (zero_add _).symm rfl rfl⟩
    · rw [List.mem_singleton.1 hm]
      exact ⟨(hk.news n List.mem_cons_self).1, (write_heap_ne hne).trans (hk.news n List.mem_cons_self).2⟩
    · have he : m = s.tail.ptr := (Option.some.inj hm).symm.trans htail
      rw [he, valueOf_some write_heap_self]
      exact Option.some_ne_none _
  | some v =>
    simp only [hdata] at hm
    cases hm
    refine ⟨pre, post, h.quiet hc rfl rfl rfl rfl (.inl rfl)
      ⟨rfl, hk.news, fun _ _ he => (by cases he), fun _ _ he => (by cases he), fun m hm _ => ?_,
        fun _ he => (by cases he), fun _ he => (by cases he)⟩ rfl rfl⟩
    rw [← Option.some.inj hm, valueOf_some hx, hdata]
    exact Option.some_ne_none _

/-- The exchange on `next` that succeeds, of a push for itself or for another. -/
theorem push_link {oldTail : CountedNodePtr} {pc pc' : PushPc} (h : Inv s calls pre post)
    (hc : calls[i]? = some (.push value pc)) (hx : s.heap oldTail.ptr = some x) (hnext : x.next = ⟨0, 0⟩)
    (hpc : pc = .casNext n oldTail ∧ pc' = .setTail ⟨1, n⟩ oldTail oldTail.ptr none ∨
      pc = .helpNext n oldTail ∧ pc' = .allocNew ⟨1, n⟩ oldTail) :
    Ok (s.write oldTail.ptr { x with next := ⟨1, n⟩ }) (calls.set i (.push value pc')) := by
  have hholds : (Call.push value pc).holds = some oldTail.ptr := by rcases hpc with ⟨rfl, -⟩ | ⟨rfl, -⟩ <;> rfl
  obtain ⟨htail, rfl⟩ := h.last_of_next hc hholds hx (by rw [hnext])
  have hk := h.knows _ (List.mem_of_getElem? hc)
  have hfilled : valueOf s.heap s.tail.ptr ≠ none := by
    rw [← htail]
    exact hk.filled _ (by rcases hpc with ⟨rfl, -⟩ | ⟨rfl, -⟩ <;> rfl) htail
  have hnew := hk.news n (by rcases hpc with ⟨rfl, -⟩ | ⟨rfl, -⟩ <;> exact List.mem_cons_self)
  rw [htail] at hx ⊢
  have hlinked : ∀ c' : Call α, c'.isUndefined = false → c'.news = [] → c'.links = some (oldTail.ptr, ⟨1, n⟩) →
      (∀ a b, c'.loops = some (a, b) → a = b) → c'.filled = some oldTail.ptr → c'.beyond = none → c'.takes = none →
      c'.Knows (s.write s.tail.ptr { x with next := ⟨1, n⟩ }) (chain s pre [n]) := by
    intro c' hsound hnews hlinks hloops hf hbeyond htakes
    refine ⟨hsound, fun m hm => ?_, fun m p hp => ?_, hloops, fun m hm _ => ?_, fun m hm => ?_, fun m hm => ?_⟩
    · rw [hnews] at hm
      cases hm
    · rw [hlinks] at hp
      cases hp
      rw [htail, nextOf_some write_heap_self]
      exact ⟨rfl, hnew.1⟩
    · rw [hf] at hm
      rw [← Option.some.inj hm, htail, valueOf_some write_heap_self, ← valueOf_some hx]
      exact hfilled
    · rw [hbeyond] at hm
      cases hm
    · rw [htakes] at hm
      cases hm
  rcases hpc with ⟨rfl, rfl⟩ | ⟨rfl, rfl⟩
  · refine ⟨pre, [n], h.link hc hx hnext hfilled (congrArg some htail) rfl rfl hnew rfl rfl rfl (.inl rfl)
      (hlinked _ rfl rfl rfl (fun a b he => ?_) rfl rfl rfl) rfl rfl⟩
    cases he
    rfl
  · exact ⟨pre, [n], h.link hc hx hnext hfilled (congrArg some htail) rfl rfl hnew rfl rfl rfl (.inl rfl)
      (hlinked _ rfl rfl rfl (fun _ _ he => (by cases he)) rfl rfl rfl) rfl rfl⟩

theorem push_setTail {newTail oldTail : CountedNodePtr} {current : ℕ} {after : Option ℕ} {pc' : PushPc}
    (h : Inv s calls pre post) (hc : calls[i]? = some (.push value (.setTail newTail oldTail current after)))
    (hm : s.push value choice (.setTail newTail oldTail current after) = some (pc', s')) :
    Ok s' (calls.set i (.push value pc')) := by
  have hk := h.knows _ (List.mem_of_getElem? hc)
  obtain rfl : oldTail.ptr = current := hk.loops _ _ rfl
  obtain ⟨hnext, hne⟩ := hk.links _ _ rfl
  simp only [push] at hm
  split at hm
  · rename_i hsame
    obtain ⟨rfl, -⟩ := hsame
    cases hm
    rw [PushPc.settled, if_pos rfl]
    exact h.advance_tail hc rfl hnext hne (hk.filled _ rfl rfl) rfl rfl rfl rfl rfl
      (Call.Knows.bare rfl hk.news rfl rfl rfl rfl rfl) (by cases after <;> rfl) rfl
  · cases hm
    split
    · rename_i hptr
      refine ⟨pre, post, h.quiet hc rfl rfl rfl rfl (.inl (by cases after <;> rfl))
        ⟨rfl, hk.news, fun m p hp => hk.links m p hp, fun a b he => ?_, fun m hm => hk.filled m hm,
          fun _ he => (by cases he), fun _ he => (by cases he)⟩ (by cases after <;> rfl) rfl⟩
      cases he
      exact hptr
    · rename_i hptr
      rw [PushPc.settled, if_neg hptr]
      refine ⟨pre, post, h.quiet hc rfl rfl rfl rfl (.inr ?_) (Call.Knows.bare rfl hk.news rfl rfl rfl rfl rfl)
        (by cases after <;> rfl) rfl⟩
      cases after with
      | none => exact fun he => hptr (Option.some.inj he).symm
      | some m => exact fun he => by cases he

theorem push_inv {pc pc' : PushPc} (h : Inv s calls pre post) (hc : calls[i]? = some (.push value pc))
    (hlast : ∀ n oldTail x, pc = .casData n oldTail → s.heap oldTail.ptr = some x → x.data = none →
      oldTail.ptr = s.tail.ptr)
    (hm : s.push value choice pc = some (pc', s')) : Ok s' (calls.set i (.push value pc')) := by
  have hk := h.knows _ (List.mem_of_getElem? hc)
  cases pc with
  | alloc =>
    simp only [push, alloc] at hm
    split at hm
    · rename_i hfree
      cases hm
      refine ⟨pre, post, h.allocate hc hfree.2 rfl rfl rfl rfl (.inl rfl)
        (Call.Knows.bare rfl (fun n hn => ?_) rfl rfl rfl rfl rfl) rfl rfl⟩
      rw [List.mem_singleton.1 hn]
      exact ⟨hfree.1, write_heap_self⟩
    · cases hm
  | loadTail n =>
    cases hm
    exact ⟨pre, post, h.quiet hc rfl rfl rfl rfl (.inl rfl) (Call.Knows.bare rfl hk.news rfl rfl rfl rfl rfl) rfl rfl⟩
  | increase n oldTail =>
    simp only [push] at hm
    split at hm
    · rename_i hsame
      subst hsame
      cases hm
      refine ⟨pre, post, h.count_in hc (.inr rfl) rfl rfl rfl ?_ (fun m hm => ⟨?_, rfl⟩) rfl rfl rfl rfl rfl
        (.inl rfl) (Call.Knows.bare rfl hk.news rfl rfl rfl rfl rfl) rfl rfl⟩
      · have hmore : part { s.tail with externalCount := s.tail.externalCount + 1 } s.tail.ptr =
            part s.tail s.tail.ptr + 1 := part_count_self
        show part { s.tail with externalCount := s.tail.externalCount + 1 } s.tail.ptr + part s.head s.tail.ptr = _
        omega
      · exact part_count_ne (Ne.symm hm)
    · cases hm
      exact ⟨pre, post, h.quiet hc rfl rfl rfl rfl (.inl rfl) (Call.Knows.bare rfl hk.news rfl rfl rfl rfl rfl) rfl rfl⟩
  | casData n oldTail => exact push_casData h hc (fun x hx hnone => hlast n oldTail x rfl hx hnone) hm
  | loadNext n oldTail =>
    obtain ⟨⟨x, hx⟩, -, -⟩ := h.shared (n := oldTail.ptr) hc rfl
    simp only [push, onNode_some hx] at hm
    cases hm
    exact ⟨pre, post, h.quiet hc rfl rfl rfl rfl (.inl rfl)
      ⟨rfl, hk.news, fun _ _ he => (by cases he), fun _ _ he => (by cases he), hk.filled,
        fun _ he => (by cases he), fun _ he => (by cases he)⟩ rfl rfl⟩
  | casNext n oldTail =>
    obtain ⟨⟨x, hx⟩, -, -⟩ := h.shared (n := oldTail.ptr) hc rfl
    simp only [push, onNode_some hx] at hm
    split at hm
    · rename_i hnext
      cases hm
      exact push_link h hc hx hnext (.inl ⟨rfl, rfl⟩)
    · rename_i hnext
      cases hm
      refine ⟨pre, post, h.quiet hc rfl rfl rfl rfl (.inl rfl)
        ⟨rfl, hk.news, fun m p hp => ?_, fun _ _ he => (by cases he), hk.filled,
          fun _ he => (by cases he), fun _ he => (by cases he)⟩ rfl rfl⟩
      cases hp
      exact ⟨nextOf_some hx, h.next_ne hx hnext⟩
  | deleteNew n newNext oldTail =>
    obtain ⟨⟨x, hx⟩, -, -, -⟩ := h.own (n := n) hc List.mem_cons_self
    have hne : oldTail.ptr ≠ n := by
      intro he
      exact (h.new_ne hc List.mem_cons_self).2 (congrArg some he)
    simp only [push, onNode_some hx] at hm
    cases hm
    refine ⟨pre, post, h.discard hc rfl rfl rfl rfl (.inl rfl)
      ⟨rfl, fun _ hm => (List.not_mem_nil hm).elim, fun m p hp => ?_, fun a b he => ?_, fun m hm htail => ?_,
        fun _ he => (by cases he), fun _ he => (by cases he)⟩ rfl rfl⟩
    · cases hp
      rw [nextOf_congr (free_heap_ne hne)]
      exact hk.links _ _ rfl
    · cases he
      rfl
    · cases hm
      rw [valueOf_congr (free_heap_ne hne)]
      exact hk.filled _ rfl htail
  | helpNext n oldTail =>
    obtain ⟨⟨x, hx⟩, -, -⟩ := h.shared (n := oldTail.ptr) hc rfl
    simp only [push, onNode_some hx] at hm
    split at hm
    · rename_i hnext
      cases hm
      exact push_link h hc hx hnext (.inr ⟨rfl, rfl⟩)
    · rename_i hnext
      cases hm
      refine ⟨pre, post, h.quiet hc rfl rfl rfl rfl (.inl rfl)
        ⟨rfl, hk.news, fun m p hp => ?_, fun a b he => ?_, hk.filled,
          fun _ he => (by cases he), fun _ he => (by cases he)⟩ rfl rfl⟩
      · cases hp
        exact ⟨nextOf_some hx, h.next_ne hx hnext⟩
      · cases he
        rfl
  | allocNew oldNext oldTail =>
    simp only [push, alloc] at hm
    split at hm
    · rename_i hfree
      cases hm
      obtain ⟨⟨x, hx⟩, -, -⟩ := h.shared (n := oldTail.ptr) hc rfl
      have hne : oldTail.ptr ≠ choice.address := by
        intro he
        rw [he, hfree.2] at hx
        cases hx
      refine ⟨pre, post, h.allocate hc hfree.2 rfl rfl rfl rfl (.inl rfl)
        ⟨rfl, fun m hm => ?_, fun m p hp => ?_, fun a b he => ?_, fun m hm htail => ?_,
          fun _ he => (by cases he), fun _ he => (by cases he)⟩ rfl rfl⟩
      · rw [List.mem_singleton.1 hm]
        exact ⟨hfree.1, write_heap_self⟩
      · cases hp
        rw [nextOf_congr (write_heap_ne hne)]
        exact hk.links _ _ rfl
      · cases he
        rfl
      · cases hm
        rw [valueOf_congr (write_heap_ne hne)]
        exact hk.filled _ rfl htail
    · cases hm
  | setTail newTail oldTail current after => exact push_setTail h hc hm
  | drop ptr dr oldTail after =>
    exact ⟨pre, post, drop_inv (f := Call.push value) (drops_push value ptr oldTail after) h hc hm⟩
  | returned => cases hm
  | undefined => cases hm

/-! ## pop -/

theorem pop_inv {pc pc' : PopPc α} (h : Inv s calls pre post) (hc : calls[i]? = some (.pop pc))
    (hm : s.pop pc = some (pc', s')) : Ok s' (calls.set i (.pop pc')) := by
  have hk := h.knows _ (List.mem_of_getElem? hc)
  have hnone : ∀ n ∈ ([] : List ℕ), n ≠ 0 ∧ s.heap n = some Node.new := fun _ hm => (List.not_mem_nil hm).elim
  cases pc with
  | loadHead =>
    cases hm
    exact ⟨pre, post, h.quiet hc rfl rfl rfl rfl (.inl rfl) (Call.Knows.bare rfl hnone rfl rfl rfl rfl rfl) rfl rfl⟩
  | increase oldHead =>
    simp only [pop] at hm
    split at hm
    · rename_i hsame
      subst hsame
      cases hm
      have hfirst : s.head.ptr ∈ pre ∨ s.head.ptr = s.tail.ptr := by
        have hlinked := h.linked
        cases pre with
        | nil => exact .inr hlinked.1
        | cons a pre =>
          rw [hlinked.1]
          exact .inl List.mem_cons_self
      refine ⟨pre, post, h.count_in hc hfirst rfl rfl rfl ?_ (fun m hm => ⟨rfl, ?_⟩) rfl rfl rfl rfl rfl
        (.inl rfl) (Call.Knows.bare rfl (fun _ hm => (List.not_mem_nil hm).elim) rfl rfl rfl rfl rfl) rfl rfl⟩
      · have hmore : part { s.head with externalCount := s.head.externalCount + 1 } s.head.ptr =
            part s.head s.head.ptr + 1 := part_count_self
        show part s.tail s.head.ptr + part { s.head with externalCount := s.head.externalCount + 1 } s.head.ptr = _
        omega
      · exact part_count_ne (Ne.symm hm)
    · cases hm
      exact ⟨pre, post, h.quiet hc rfl rfl rfl rfl (.inl rfl) (Call.Knows.bare rfl hnone rfl rfl rfl rfl rfl) rfl rfl⟩
  | readTail oldHead =>
    cases hm
    split
    · exact ⟨pre, post, h.quiet hc rfl rfl rfl rfl (.inl rfl) (Call.Knows.bare rfl hnone rfl rfl rfl rfl rfl) rfl rfl⟩
    · rename_i hne
      refine ⟨pre, post, h.quiet hc rfl rfl rfl rfl (.inl rfl)
        ⟨rfl, hnone, fun _ _ he => (by cases he), fun _ _ he => (by cases he), fun _ he => (by cases he),
          fun n hn => ?_, fun _ he => (by cases he)⟩ rfl rfl⟩
      cases hn
      exact hne
  | loadNext oldHead =>
    obtain ⟨⟨x, hx⟩, -, -⟩ := h.shared (n := oldHead.ptr) hc rfl
    simp only [pop, onNode_some hx] at hm
    cases hm
    refine ⟨pre, post, h.quiet hc rfl rfl rfl rfl (.inl rfl)
      ⟨rfl, hnone, fun n p hp => ?_, fun _ _ he => (by cases he), fun _ he => (by cases he),
        hk.beyond, fun _ he => (by cases he)⟩ rfl rfl⟩
    cases hp
    exact ⟨nextOf_some hx, fun hzero => hk.beyond _ rfl (h.last_of_next hc rfl hx hzero).1⟩
  | casHead oldHead next =>
    obtain ⟨hnext, hne⟩ := hk.links _ _ rfl
    simp only [pop] at hm
    split at hm
    · rename_i hsame
      subst hsame
      cases hm
      exact h.advance_head hc rfl hnext hne (hk.beyond _ rfl) rfl rfl rfl rfl rfl rfl (fun hnot hvalue =>
        ⟨rfl, hnone, fun _ _ he => (by cases he), fun _ _ he => (by cases he), fun _ he => (by cases he),
          fun _ he => (by cases he), fun n hn => by cases hn; exact ⟨hnot, hvalue⟩⟩) rfl rfl rfl
    · cases hm
      exact ⟨pre, post, h.quiet hc rfl rfl rfl rfl (.inl rfl) (Call.Knows.bare rfl hnone rfl rfl rfl rfl rfl) rfl rfl⟩
  | exchange oldHead =>
    obtain ⟨⟨x, hx⟩, -, -⟩ := h.shared (n := oldHead.ptr) hc rfl
    simp only [pop, onNode_some hx] at hm
    cases hm
    refine ⟨pre, post, h.exchange hc hx rfl rfl rfl rfl rfl rfl
      (Call.Knows.bare rfl (fun _ hm => (List.not_mem_nil hm).elim) rfl rfl rfl rfl rfl) rfl ?_⟩
    show _ = ((valueOf s.heap oldHead.ptr).toList : Multiset α)
    rw [valueOf_some hx]
    rfl
  | drop ptr dr after => exact ⟨pre, post, drop_inv (f := Call.pop) (drops_pop ptr after) h hc hm⟩
  | returned res => cases hm
  | undefined => cases hm

/-! ## Runs -/

theorem run_ok {events : List (Event α)} {t : System α}
    (hfills : Run.Along program.step (fun s e => FillsTail s e = true) start events)
    (h : Run.run program.step start events = some t) : Ok t.shared t.calls := by
  refine Calls.run_along_invariant (p := program) Ok (fun s calls op hok => ?_)
    (fun s calls i c choice c' s' hok hc hf hm => ?_) ⟨[], [], inv_start⟩ hfills h
  · obtain ⟨pre, post, hinv⟩ := hok
    have hnone : ∀ n ∈ ([] : List ℕ), n ≠ 0 ∧ s.heap n = some Node.new := fun _ hm => (List.not_mem_nil hm).elim
    cases op with
    | push value =>
      exact ⟨pre, post, hinv.enter rfl rfl rfl rfl (Call.Knows.bare rfl hnone rfl rfl rfl rfl rfl) rfl rfl⟩
    | pop => exact ⟨pre, post, hinv.enter rfl rfl rfl rfl (Call.Knows.bare rfl hnone rfl rfl rfl rfl rfl) rfl rfl⟩
  · obtain ⟨pre, post, hinv⟩ := hok
    cases c with
    | push value pc =>
      obtain ⟨⟨pc', r⟩, hp, he⟩ := Option.map_eq_some_iff.1 hm
      cases he
      refine push_inv hinv hc (fun n oldTail x hpc hx hnone => ?_) hp
      subst hpc
      simp only [FillsTail, hc, hx, hnone, Option.isSome_none, Bool.false_or, beq_iff_eq] at hf
      exact hf
    | pop pc =>
      obtain ⟨⟨pc', r⟩, hp, he⟩ := Option.map_eq_some_iff.1 hm
      cases he
      exact pop_inv hinv hc hp

theorem got_le_hand (heap : ℕ → Option (Node α)) (c : Call α) : c.got ≤ c.hand heap := by
  cases c with
  | push value pc => exact le_refl _
  | pop pc =>
    cases pc with
    | returned res => exact le_refl _
    | _ => exact Multiset.zero_le _

/-- A call that has ended fills no node, and has given out what it had in hand. -/
theorem done_bare (heap : ℕ → Option (Node α)) (h : c.done = true) : c.fills = none ∧ c.got = c.hand heap := by
  cases c with
  | push value pc =>
    cases pc with
    | returned => exact ⟨rfl, rfl⟩
    | _ => cases h
  | pop pc =>
    cases pc with
    | returned res => exact ⟨rfl, rfl⟩
    | _ => cases h

/-- With no call under way `tail` is the last node, and has no value. -/
theorem Inv.tail_of_done (h : Inv s calls pre post) (hdone : ∀ c ∈ calls, c.done = true) :
    valueOf s.heap s.tail.ptr = none ∧ post = [] := by
  have hnone : valueOf s.heap s.tail.ptr = none := by
    by_contra hvalue
    obtain ⟨c, hc, hfills⟩ := h.busy hvalue
    rw [(done_bare s.heap (hdone c hc)).1] at hfills
    cases hfills
  refine ⟨hnone, ?_⟩
  by_contra hpost
  exact h.waits hpost hnone

/-- **The queue without locks.** If a push that finds a node without a value
finds it last, no call uses a node that is not there and no value is given out
more often than it was pushed; with no call under way the values pushed are those
popped and those of the nodes from `head` to `tail`. -/
theorem linked_conserved {events : List (Event α)} {t : System α}
    (hfills : Run.Along program.step (fun s e => FillsTail s e = true) start events)
    (h : Run.run program.step start events = some t) :
    (∀ c ∈ t.calls, c.isUndefined = false) ∧ Calls.total Call.got t.calls ≤ Calls.total Call.put t.calls ∧
    ((∀ c ∈ t.calls, c.done = true) →
      ∃ l, Linked (fun n => (nextOf t.shared.heap n).ptr) t.shared.head.ptr (l ++ [t.shared.tail.ptr]) ∧
        (∀ n ∈ l, valueOf t.shared.heap n ≠ none) ∧
        Calls.total Call.put t.calls = Calls.total Call.got t.calls + values t.shared.heap l) := by
  obtain ⟨pre, post, hinv⟩ := run_ok hfills h
  refine ⟨fun c hc => (hinv.knows c hc).sound, ?_, fun hdone => ?_⟩
  · rw [hinv.conserved]
    exact (Calls.total_le_total fun c _ => got_le_hand t.shared.heap c).trans (Multiset.le_add_right _ _)
  · obtain ⟨hnone, rfl⟩ := hinv.tail_of_done hdone
    refine ⟨pre, hinv.linked, hinv.full, ?_⟩
    have htail : values t.shared.heap (chain t.shared pre []) = values t.shared.heap pre := by
      rw [chain, values_append, values_cons, hnone]
      exact add_zero _
    rw [hinv.conserved, htail, Calls.total_congr fun c hc => (done_bare t.shared.heap (hdone c hc)).2]

/-- A call moves `n` times. -/
def moves (i n : ℕ) : List (Event ℕ) := List.replicate n (.move i {})

/-- The second push finds the value of the first in the last node, links its own
new node for it, and goes on with another; the first finds that done. -/
def helped : List (Event ℕ) :=
  [.call (.push 5), .move 0 { address := 2 }] ++ moves 0 3 ++
    [.call (.push 6), .move 1 { address := 3 }] ++ moves 1 4 ++
    [.move 1 { address := 4 }, .move 1 { spurious := true }] ++ moves 1 11 ++ moves 0 6 ++ [.call .pop] ++ moves 2 9

theorem linked_conserved_helped :
    ∃ t, Run.run program.step start helped = some t ∧ (∀ c ∈ t.calls, c.done = true) ∧
      ∃ l, Linked (fun n => (nextOf t.shared.heap n).ptr) t.shared.head.ptr (l ++ [t.shared.tail.ptr]) ∧
        (∀ n ∈ l, valueOf t.shared.heap n ≠ none) ∧ ({5, 6} : Multiset ℕ) = {5} + values t.shared.heap l := by
  have heval : (Run.run program.step start helped).map (fun t => t.calls) =
      some [.push 5 .returned, .push 6 .returned, .pop (.returned (some 5))] := by decide +kernel
  obtain ⟨t, ht, hcalls⟩ := Option.map_eq_some_iff.1 heval
  have hdone : ∀ c ∈ t.calls, c.done = true := by
    rw [hcalls]
    decide
  have hput : Calls.total Call.put t.calls = {5, 6} := by
    rw [hcalls]
    rfl
  have hgot : Calls.total Call.got t.calls = {5} := by
    rw [hcalls]
    rfl
  obtain ⟨-, -, hrest⟩ := linked_conserved (by decide +kernel) ht
  rw [← hput, ← hgot]
  exact ⟨t, ht, hdone, hrest hdone⟩

/-- A push has taken its reference to the last node; before it puts its value in,
another push ends and a pop takes that one's value out. -/
def emptied : List (Event ℕ) :=
  [.call (.push 1), .move 0 { address := 2 }] ++ moves 0 2 ++
    [.call (.push 2), .move 1 { address := 3 }] ++ moves 1 8 ++ [.call .pop] ++ moves 2 8 ++ moves 0 8

/-- Its value is in a node that is not in the chain, and is deleted. -/
theorem value_lost :
    ∃ t, Run.run program.step start emptied = some t ∧ (∀ c ∈ t.calls, c.done = true) ∧
      ¬ ∃ l, Linked (fun n => (nextOf t.shared.heap n).ptr) t.shared.head.ptr (l ++ [t.shared.tail.ptr]) ∧
        Calls.total Call.put t.calls = Calls.total Call.got t.calls + values t.shared.heap l := by
  have heval : (Run.run program.step start emptied).map
      (fun t => (t.calls, t.shared.head.ptr, t.shared.tail.ptr)) =
      some ([.push 1 .returned, .push 2 .returned, .pop (.returned (some 2))], 3, 3) := by decide +kernel
  obtain ⟨t, ht, heq⟩ := Option.map_eq_some_iff.1 heval
  obtain ⟨hcalls, hptrs⟩ := Prod.mk.inj heq
  obtain ⟨hhead, htail⟩ := Prod.mk.inj hptrs
  refine ⟨t, ht, ?_, ?_⟩
  · rw [hcalls]
    decide
  · rintro ⟨l, hlinked, hput⟩
    cases l with
    | nil =>
      rw [hcalls] at hput
      have hput : ({1, 2} : Multiset ℕ) = {2} + 0 := hput
      exact absurd hput (by decide)
    | cons a l =>
      have hnodup := hlinked.nodup
      obtain ⟨rfl, -⟩ := hlinked
      refine (List.nodup_cons.1 hnodup).1 (List.mem_append_right _ ?_)
      rw [hhead, htail]
      exact List.mem_cons_self

end Learncc.LockFreeQueue
