/-
Every move of a call on a `threadsafe_list` keeps the locks and the chain, if a
push_back that locks a node locks the last one. In such runs no call uses a node
that is not there, and with no call under way the pointer to the last node is
right and the list has what was pushed and not removed.
-/
import Learncc.Public.TsListLocks

namespace Learncc.ThreadsafeList

variable {α : Type} {s s' : ThreadsafeList α} {calls : List (Call α)} {link link' : ℕ → ℕ} {l l' : List ℕ}
  {c c' d : Call α} {i j n m : ℕ} {x y : ListNode α} {value : α} {address : ℕ}

/-! ## Reads and writes -/

@[simp] theorem write_heap_self : (s.write n x).heap n = some x := Function.update_self ..

theorem write_heap_ne (h : m ≠ n) : (s.write n x).heap m = s.heap m := Function.update_of_ne h _ _

@[simp] theorem free_heap_self : (s.free n).heap n = none := Function.update_self ..

theorem free_heap_ne (h : m ≠ n) : (s.free n).heap m = s.heap m := Function.update_of_ne h _ _

theorem onNode_some {π : Type} {u : π} {f : ListNode α → Option (π × ThreadsafeList α)} (h : s.heap n = some x) :
    s.onNode u n f = f x := by
  rw [onNode, h]

theorem lockNode_eq {π : Type} {u pc pc' : π} (h : s.heap n = some x) (hm : s.lockNode u n pc = some (pc', s')) :
    x.mtx = false ∧ pc' = pc ∧ s' = s.write n { x with mtx := true } := by
  rw [lockNode, onNode_some h] at hm
  split at hm
  · cases hm
  · rename_i hfree
    cases hm
    exact ⟨Bool.eq_false_iff.2 hfree, rfl, rfl⟩

theorem unlockNode_eq {π : Type} {u pc pc' : π} (h : s.heap n = some x) (hm : s.unlockNode u n pc = some (pc', s')) :
    pc' = pc ∧ s' = s.write n { x with mtx := false } := by
  rw [unlockNode, onNode_some h] at hm
  cases hm
  exact ⟨rfl, rfl⟩

theorem lockLast_eq {π : Type} {pc pc' : π} (hm : s.lockLast pc = some (pc', s')) :
    s.lastPtrMtx = false ∧ pc' = pc ∧ s' = { s with lastPtrMtx := true } := by
  rw [lockLast] at hm
  split at hm
  · cases hm
  · rename_i hfree
    cases hm
    exact ⟨Bool.eq_false_iff.2 hfree, rfl, rfl⟩

theorem alloc_eq {π : Type} {pc pc' : π} (hm : s.alloc address value pc = some (pc', s')) :
    address ≠ 0 ∧ s.heap address = none ∧ pc' = pc ∧ s' = s.write address ⟨false, some value, 0⟩ := by
  rw [alloc] at hm
  split at hm
  · rename_i hfree
    cases hm
    exact ⟨hfree.1, hfree.2, rfl, rfl⟩
  · cases hm

/-! ## Kinds of moves -/

/-- The chain, all nodes and the holder's locks stay as they are. -/
theorem Inv.quiet (h : Inv s calls link l) (hc : calls[i]? = some c) (hheap : s'.heap = s.heap)
    (hholds : c'.holds = c.holds) (howns : c'.owns = c.owns) (hopens : c.opens = none)
    (hlastLock : c'.lastLocks + s.lastPtrMtx.toNat = c.lastLocks + s'.lastPtrMtx.toNat)
    (hlastPtr : s'.lastNodePtr = s.lastNodePtr ∨ s.lastNodePtr ∈ c.holds)
    (hknows : c'.Knows s' link l fun n => Calls.total (Call.locks n) calls)
    (hpending : c.Pending link → c'.Pending link ∨ Last s' link l)
    (hlast : Last s link l → c'.Pending link ∨ Last s' link l) (hchosen : c'.Chosen) (hadded : c'.added = c.added)
    (hremoved : c'.removed = c.removed) : Inv s' (calls.set i c') link l := by
  have hlocks : ∀ n, c'.locks n = c.locks n := fun n => by rw [Call.locks, Call.locks, hholds]
  refine h.touch hc []
    { frame := fun n _ => ⟨by rw [hheap], rfl, rfl⟩
      calm := fun n _ => ⟨hlocks n, ?_, fun ho => ?_⟩
      mine := fun n hn => (List.not_mem_nil hn).elim
      place := fun n hn => (List.not_mem_nil hn).elim
      lock := fun n hn => (List.not_mem_nil hn).elim
      node := fun n hn => (List.not_mem_nil hn).elim
      linked := h.linked
      lastLock := hlastLock
      lastPtr := hlastPtr
      knows := ?_
      pending := hpending
      last := hlast
      chosen := hchosen
      values := ?_ }
  · rw [Call.places, Call.places, howns]
  · rw [hopens] at ho
    cases ho
  · rw [funext fun n => Calls.total_set_same (f := Call.locks n) hc (hlocks n)]
    exact hknows
  · rw [hadded, hremoved, hheap]

/-- Nobody has locked a free node of the chain. -/
theorem Inv.unlocked (h : Inv s calls link l) (hx : s.heap n = some x) (hfree : x.mtx = false) :
    Calls.total (Call.locks n) calls = 0 := by
  rw [h.lock n, locked_some hx, hfree]
  rfl

/-- The mover locks a node of the chain that nobody guards. -/
theorem Inv.acquire (h : Inv s calls link l) (hc : calls[i]? = some c) (hn : n ∈ l) (hx : s.heap n = some x)
    (hfree : x.mtx = false) (hguards : ∀ d ∈ calls, d.guards ≠ some n) (hholds : c'.holds.Perm (n :: c.holds))
    (howns : c'.owns = c.owns) (hopens : c.opens = none)
    (hlastLock : c'.lastLocks = c.lastLocks)
    (hknows : c'.Knows (s.write n { x with mtx := true }) link l
      fun n => Calls.total (Call.locks n) (calls.set i c'))
    (hpending : ¬ c.Pending link) (hchosen : c'.Chosen) (hadded : c'.added = c.added)
    (hremoved : c'.removed = c.removed) : Inv (s.write n { x with mtx := true }) (calls.set i c') link l := by
  have hlocks : ∀ m, c'.locks m = c.locks m + if m = n then 1 else 0 := by
    intro m
    rw [Call.locks, Call.locks, hholds.count_eq, List.count_cons]
    simp only [beq_iff_eq, eq_comm (a := n)]
  have hplaces : ∀ m, c'.places m = c.places m := fun m => by rw [Call.places, Call.places, howns]
  have hvalue : ∀ m, valueOf (s.write n { x with mtx := true }).heap m = valueOf s.heap m := by
    intro m
    by_cases hm : m = n
    · rw [hm, valueOf_some write_heap_self, valueOf_some hx]
    · exact valueOf_congr (write_heap_ne hm)
  refine h.touch hc [n]
    { frame := fun m hm => ⟨write_heap_ne (by simpa using hm), rfl, rfl⟩
      calm := fun m hm => ⟨?_, hplaces m, fun ho => ?_⟩
      mine := fun m hm => ?_
      place := fun m hm => ?_
      lock := fun m hm => ?_
      node := fun m hm hml => ⟨?_, fun _ => ?_⟩
      linked := h.linked
      lastLock := by rw [hlastLock]; rfl
      lastPtr := .inl rfl
      knows := hknows
      pending := fun hp => absurd hp hpending
      last := .inr
      chosen := hchosen
      values := ?_ }
  · rw [hlocks m, if_neg (by simpa using hm)]
    rfl
  · rw [hopens] at ho
    cases ho
  · rw [List.mem_singleton.1 hm]
    exact .inr (.inr (.inr ⟨hn, h.unlocked hx hfree, hguards⟩))
  · rw [List.mem_singleton.1 hm, hplaces, present_some hx, present_some write_heap_self]
  · rw [List.mem_singleton.1 hm, hlocks, if_pos rfl, locked_some hx, locked_some write_heap_self, hfree]
    rfl
  · rw [hvalue]
    exact h.value m hml
  · rw [List.mem_singleton.1 hm] at hml ⊢
    rw [nextOf_some write_heap_self, ← h.next n hn fun d hd ho => ?_, nextOf_some hx]
    obtain ⟨j, hj⟩ := List.mem_iff_getElem?.1 hd
    have hone := Calls.le_total (f := Call.locks n) hj
    have hpos := Call.locks_pos (Call.opens_held ho)
    have hzero := h.unlocked hx hfree
    omega
  · rw [hadded, hremoved, values_congr fun m _ => hvalue m]

/-- The mover gives a lock back. -/
theorem Inv.release (h : Inv s calls link l) (hc : calls[i]? = some c) (hx : s.heap n = some x)
    (hholds : c.holds.Perm (n :: c'.holds)) (howns : c'.owns = c.owns) (hopens : c.opens = none)
    (hlastLock : c'.lastLocks = c.lastLocks)
    (hknows : c'.Knows (s.write n { x with mtx := false }) link l
      fun n => Calls.total (Call.locks n) (calls.set i c'))
    (hpending : ¬ c.Pending link) (hchosen : c'.Chosen) (hadded : c'.added = c.added)
    (hremoved : c'.removed = c.removed) : Inv (s.write n { x with mtx := false }) (calls.set i c') link l := by
  have hn : n ∈ c.holds := hholds.mem_iff.2 List.mem_cons_self
  have hlocks : ∀ m, c.locks m = c'.locks m + if m = n then 1 else 0 := by
    intro m
    rw [Call.locks, Call.locks, hholds.count_eq, List.count_cons]
    simp only [beq_iff_eq, eq_comm (a := n)]
  have hplaces : ∀ m, c'.places m = c.places m := fun m => by rw [Call.places, Call.places, howns]
  obtain ⟨⟨y, hy, hlocked⟩, -, -⟩ := h.held hc hn
  rw [hx] at hy
  cases hy
  have hvalue : ∀ m, valueOf (s.write n { x with mtx := false }).heap m = valueOf s.heap m := by
    intro m
    by_cases hm : m = n
    · rw [hm, valueOf_some write_heap_self, valueOf_some hx]
    · exact valueOf_congr (write_heap_ne hm)
  refine h.touch hc [n]
    { frame := fun m hm => ⟨write_heap_ne (by simpa using hm), rfl, rfl⟩
      calm := fun m hm => ⟨?_, hplaces m, fun ho => ?_⟩
      mine := fun m hm => ?_
      place := fun m hm => ?_
      lock := fun m hm => ?_
      node := fun m hm hml => ⟨?_, fun _ => ?_⟩
      linked := h.linked
      lastLock := by rw [hlastLock]; rfl
      lastPtr := .inl rfl
      knows := hknows
      pending := fun hp => absurd hp hpending
      last := .inr
      chosen := hchosen
      values := ?_ }
  · rw [hlocks m, if_neg (by simpa using hm)]
    rfl
  · rw [hopens] at ho
    cases ho
  · rw [List.mem_singleton.1 hm]
    exact .inl hn
  · rw [List.mem_singleton.1 hm, hplaces, present_some hx, present_some write_heap_self]
  · rw [List.mem_singleton.1 hm, hlocks, if_pos rfl, locked_some hx, locked_some write_heap_self, hlocked]
    rfl
  · rw [hvalue]
    exact h.value m hml
  · rw [List.mem_singleton.1 hm] at hml ⊢
    rw [nextOf_some write_heap_self, ← h.next_held hc hn hml (by rw [hopens]; simp), nextOf_some hx]
  · rw [hadded, hremoved, values_congr fun m _ => hvalue m]

/-- Nobody guards the first node, nor what the mover's own node is linked to. -/
theorem Inv.unguarded_head (h : Inv s calls link l) : ∀ d ∈ calls, d.guards ≠ some head := by
  intro d hd hg
  obtain ⟨-, -, -, a, -, ha, hlink⟩ := (h.knows d hd).guarded h.linked hg
  exact h.linked.next_ne_head ha hlink

theorem Inv.unguarded_next (h : Inv s calls link l) (hc : calls[i]? = some c) (hn : n ∈ c.holds) (hl : n ∈ l)
    (hg : c.guards = none) : ∀ d ∈ calls, d.guards ≠ some (link n) := by
  intro d hd hg'
  obtain ⟨-, -, -, a, hheld, ha, hlink⟩ := (h.knows d hd).guarded h.linked hg'
  obtain rfl := h.linked.next_inj ha hl hlink
  obtain ⟨j, hj⟩ := List.mem_iff_getElem?.1 hd
  by_cases hji : j = i
  · rw [hji, hc] at hj
    cases hj
    rw [hg] at hg'
    cases hg'
  · exact (h.held hc hn).2.2 j d hji hj hheld

/-- If nobody has locked the node the pointer points to, the pointer is right,
and nobody guards that node. -/
theorem Inv.unguarded_last (h : Inv s calls link l) (hx : s.heap s.lastNodePtr = some x) (hfree : x.mtx = false) :
    Last s link l ∧ ∀ d ∈ calls, d.guards ≠ some s.lastNodePtr := by
  have hnot : ∀ d ∈ calls, s.lastNodePtr ∉ d.holds := by
    intro d hd hheld
    obtain ⟨j, hj⟩ := List.mem_iff_getElem?.1 hd
    have hone := Calls.le_total (f := Call.locks s.lastNodePtr) hj
    have hpos := Call.locks_pos hheld
    have hzero := h.unlocked hx hfree
    omega
  have hlast : Last s link l := by
    rcases h.last with ⟨d, hd, hp⟩ | hlast
    · exact absurd (hp.spot (h.knows d hd) h.linked).1 (hnot d hd)
    · exact hlast
  refine ⟨hlast, fun d hd hg => ?_⟩
  obtain ⟨-, -, hend, -⟩ := (h.knows d hd).guarded h.linked hg
  exact hnot d hd (hend hlast.2)

/-- The node the pointer to the last points to is there. -/
theorem Inv.last_present (h : Inv s calls link l) : ∃ x, s.heap s.lastNodePtr = some x := by
  rcases h.last with ⟨d, hd, hp⟩ | hlast
  · obtain ⟨j, hj⟩ := List.mem_iff_getElem?.1 hd
    obtain ⟨⟨x, hx, -⟩, -⟩ := h.held hj (hp.spot (h.knows d hd) h.linked).1
    exact ⟨x, hx⟩
  · exact (h.mem_present hlast.1).1

/-! ## push_front and push_back -/

/-- A call gets a new node. -/
theorem Inv.allocate (h : Inv s calls link l) (hc : calls[i]? = some c) (hfree : s.heap n = none)
    (hholds : c.holds = []) (hholds' : c'.holds = []) (howns : c.owns = none) (howns' : c'.owns = some n)
    (hopens : c.opens = none) (hlastLock : c'.lastLocks = c.lastLocks)
    (hknows : ∀ lk, c'.Knows (s.write n ⟨false, some value, 0⟩) link l lk) (hpending : ¬ c.Pending link)
    (hchosen : c'.Chosen) (hadded : c'.added = c.added) (hremoved : c'.removed = c.removed) :
    Inv (s.write n ⟨false, some value, 0⟩) (calls.set i c') link l := by
  have hnot : n ∉ l := by
    intro hn
    obtain ⟨⟨y, hy⟩, -⟩ := h.mem_present hn
    rw [hfree] at hy
    cases hy
  have hlocks : ∀ m, c'.locks m = c.locks m := fun m => by rw [Call.locks, Call.locks, hholds, hholds']
  have hplaces : ∀ m, c.places m = 0 := fun m => by rw [Call.places, howns]; rfl
  refine h.touch hc [n]
    { frame := fun m hm => ⟨write_heap_ne (by simpa using hm), rfl, rfl⟩
      calm := fun m hm => ⟨hlocks m, ?_, fun ho => ?_⟩
      mine := fun m hm => ?_
      place := fun m hm => ?_
      lock := fun m hm => ?_
      node := fun m hm hml => ?_
      linked := h.linked
      lastLock := by rw [hlastLock]; rfl
      lastPtr := .inl rfl
      knows := hknows _
      pending := fun hp => absurd hp hpending
      last := .inr
      chosen := hchosen
      values := ?_ }
  · rw [hplaces, Call.places, howns', if_neg]
    exact fun he => hm (by rw [Option.some.inj he]; exact List.mem_cons_self)
  · rw [hopens] at ho
    cases ho
  · rw [List.mem_singleton.1 hm]
    exact .inr (.inr (.inl hfree))
  · rw [List.mem_singleton.1 hm, hplaces, Call.places_self howns', present_none hfree, present_some write_heap_self]
  · rw [List.mem_singleton.1 hm, hlocks, locked_none hfree, locked_some write_heap_self]
    rfl
  · rw [List.mem_singleton.1 hm] at hml
    exact absurd hml hnot
  · rw [hadded, hremoved, values_congr fun m hm => valueOf_congr (write_heap_ne (ne_of_mem_of_not_mem hm hnot))]

/-- `head_.next_` is moved into the new node. -/
theorem pushFront_moveNext (h : Inv s calls link l) (hc : calls[i]? = some (.pushFront value (.moveNext n)))
    (hx : s.heap n = some x) (hy : s.heap head = some y) :
    Inv ((s.write n { x with next := y.next }).write head { y with next := 0 })
      (calls.set i (.pushFront value (.linkNew n))) link l := by
  obtain ⟨-, hnot, -⟩ := h.own_present (n := n) hc rfl
  have hne : n ≠ head := fun he => hnot (by rw [he]; exact h.head_mem)
  have hhead : head ∈ (Call.pushFront value (.moveNext n)).holds := List.mem_cons_self
  obtain ⟨hn, hnode⟩ := h.knows _ (List.mem_of_getElem? hc)
  rw [hx] at hnode
  cases hnode
  obtain ⟨⟨z, hz, hlocked⟩, -, -⟩ := h.held hc hhead
  rw [hy] at hz
  cases hz
  have hnext := h.next_held hc hhead h.head_mem (fun ho => by cases ho)
  rw [nextOf_some hy] at hnext
  have hself : ((s.write n ⟨false, some value, y.next⟩).write head { y with next := 0 }).heap n =
      some ⟨false, some value, y.next⟩ := (write_heap_ne hne).trans write_heap_self
  have hvalue : ∀ m ∈ l, valueOf ((s.write n ⟨false, some value, y.next⟩).write head { y with next := 0 }).heap m =
      valueOf s.heap m := by
    intro m hm
    by_cases hmh : m = head
    · rw [hmh, valueOf_some write_heap_self, valueOf_some hy]
    · exact valueOf_congr ((write_heap_ne hmh).trans (write_heap_ne (ne_of_mem_of_not_mem hm hnot)))
  refine h.touch hc [n, head]
    { frame := fun m hm => ?_
      calm := fun m hm => ⟨rfl, rfl, fun ho => (by cases ho)⟩
      mine := fun m hm => ?_
      place := fun m hm => ?_
      lock := fun m hm => ?_
      node := fun m hm hml => ?_
      linked := h.linked
      lastLock := rfl
      lastPtr := .inl rfl
      knows := ⟨hn, by rw [← hnext]; exact hself, nextOf_some write_heap_self⟩
      pending := fun hp => hp.elim
      last := .inr
      chosen := trivial
      values := ?_ }
  · simp only [List.mem_cons, List.not_mem_nil, or_false, not_or] at hm
    exact ⟨(write_heap_ne hm.2).trans (write_heap_ne hm.1), rfl, rfl⟩
  · simp only [List.mem_cons, List.not_mem_nil, or_false] at hm
    rcases hm with rfl | rfl
    · exact .inr (.inl rfl)
    · exact .inl hhead
  · simp only [List.mem_cons, List.not_mem_nil, or_false] at hm
    rcases hm with rfl | rfl
    · rw [present_some hx, present_some hself]
      rfl
    · rw [present_some hy, present_some write_heap_self]
      rfl
  · simp only [List.mem_cons, List.not_mem_nil, or_false] at hm
    rcases hm with rfl | rfl
    · rw [locked_some hx, locked_some hself]
      rfl
    · rw [locked_some hy, locked_some write_heap_self]
      rfl
  · simp only [List.mem_cons, List.not_mem_nil, or_false] at hm
    rcases hm with rfl | rfl
    · exact absurd hml hnot
    · refine ⟨?_, fun ho => absurd rfl ho⟩
      rw [hvalue _ hml]
      exact h.value _ hml
  · rw [values_congr hvalue]
    rfl

theorem values_cons {heap : ℕ → Option (ListNode α)} {v : α} (h : valueOf heap n = some v) :
    values heap (n :: l) = {v} + values heap l := by
  rw [values, values, List.filterMap_cons, h]
  rfl

/-- The mover that holds the end of the chain, and the node before it, has the
last one in hand. -/
theorem Inv.last_eq (h : Inv s calls link l) (hc : calls[i]? = some c) (hl : n ∈ l) (hend : link n = 0)
    (hn : n ∈ c.holds) (hprev : ∀ a ∈ l, link a = n → a ∈ c.holds) (hnot : ¬ c.Pending link) :
    s.lastNodePtr = n := by
  rcases h.last with ⟨d, hd, hp⟩ | hlast
  · obtain ⟨j, hj⟩ := List.mem_iff_getElem?.1 hd
    have hji : j ≠ i := by
      rintro rfl
      rw [hc] at hj
      cases hj
      exact hnot hp
    obtain ⟨-, a, hheld, ha, hspot⟩ := hp.spot (h.knows d hd) h.linked
    have hmine : a ∈ c.holds := by
      by_cases hz : link a = 0
      · rw [h.linked.next_inj ha hl (hz.trans hend.symm)]
        exact hn
      · have hnext := hspot.resolve_left hz
        exact hprev a ha (h.linked.next_inj (h.linked.next_mem ha hz) hl (hnext.trans hend.symm))
    exact absurd hheld ((h.held hc hmine).2.2 j d hji hj)
  · exact h.linked.next_inj hlast.1 hl (hlast.2.trans hend.symm)

/-- The mover links its own node after one that it holds. -/
theorem Inv.link_in (h : Inv s calls link l) (hc : calls[i]? = some c) (hm : m ∈ l) (hheld : m ∈ c.holds)
    (hown : c.owns = some n) (hne : n ≠ 0) (hx : s.heap n = some ⟨false, some value, link m⟩)
    (hy : s.heap m = some y) (hholds : c'.holds = c.holds) (howns : c'.owns = none)
    (hopens : ∀ k, c.opens = some k → k = m) (hlastLock : c'.lastLocks = c.lastLocks)
    (hknows : ∀ l' lk, m ∈ l' → lk n = 0 →
      c'.Knows (s.write m { y with next := n }) (Function.update (Function.update link m n) n (link m)) l' lk)
    (hpending : ¬ c.Pending link)
    (hlast : s.lastNodePtr = m → link m = 0 → c'.Pending (Function.update (Function.update link m n) n (link m)))
    (hchosen : c'.Chosen) (hadded : c'.added = {value} + c.added) (hremoved : c'.removed = c.removed) :
    ∃ link' l', Inv (s.write m { y with next := n }) (calls.set i c') link' l' := by
  obtain ⟨-, hnot, -⟩ := h.own_present hc hown
  have hmn : m ≠ n := ne_of_mem_of_not_mem hm hnot
  have hlocks : ∀ k, c'.locks k = c.locks k := fun k => by rw [Call.locks, Call.locks, hholds]
  obtain ⟨l', hlinked, hperm⟩ := h.linked.insert hm hne hnot
  have hmem : ∀ k, k ∈ l' ↔ k = n ∨ k ∈ l := fun k => by rw [hperm.mem_iff, List.mem_cons]
  have hlinkm : Function.update (Function.update link m n) n (link m) m = n := by
    rw [Function.update_of_ne hmn, Function.update_self]
  have hlinkn : Function.update (Function.update link m n) n (link m) n = link m := Function.update_self ..
  have hlinks : ∀ k, k ≠ m → k ≠ n → Function.update (Function.update link m n) n (link m) k = link k :=
    fun k hk hkn => by rw [Function.update_of_ne hkn, Function.update_of_ne hk]
  have hself : (s.write m { y with next := n }).heap n = some ⟨false, some value, link m⟩ :=
    (write_heap_ne hmn.symm).trans hx
  have hvalue : ∀ k, valueOf (s.write m { y with next := n }).heap k = valueOf s.heap k := by
    intro k
    by_cases hk : k = m
    · rw [hk, valueOf_some write_heap_self, valueOf_some hy]
    · exact valueOf_congr (write_heap_ne hk)
  have hzero : Calls.total (Call.locks n) (calls.set i c') = 0 := by
    rw [Calls.total_set_same hc (hlocks n)]
    exact h.unlocked hx rfl
  refine ⟨_, l', h.touch hc [m, n]
    { frame := fun k hk => ?_
      calm := fun k hk => ⟨hlocks k, ?_, fun ho => ?_⟩
      mine := fun k hk => ?_
      place := fun k hk => ?_
      lock := fun k hk => ?_
      node := fun k hk hkl => ?_
      linked := hlinked
      lastLock := by rw [hlastLock]; rfl
      lastPtr := .inl rfl
      knows := hknows l' _ ((hmem m).2 (.inr hm)) hzero
      pending := fun hp => absurd hp hpending
      last := fun hl => ?_
      chosen := hchosen
      values := ?_ }⟩
  · simp only [List.mem_cons, List.not_mem_nil, or_false, not_or] at hk
    refine ⟨write_heap_ne hk.1, hlinks k hk.1 hk.2, ?_⟩
    rw [hperm.count_eq, List.count_cons_of_ne (Ne.symm hk.2)]
  · rw [Call.places, Call.places, howns, hown, if_neg, if_neg]
    · exact fun he => hk (by rw [Option.some.inj he]; simp)
    · exact fun he => by cases he
  · exact absurd (hopens k ho) fun he => hk (by rw [he]; exact List.mem_cons_self)
  · simp only [List.mem_cons, List.not_mem_nil, or_false] at hk
    rcases hk with rfl | rfl
    · exact .inl hheld
    · exact .inr (.inl hown)
  · simp only [List.mem_cons, List.not_mem_nil, or_false] at hk
    rw [hperm.count_eq]
    rcases hk with rfl | rfl
    · rw [List.count_cons_of_ne hmn.symm, present_some hy, present_some write_heap_self, Call.places, Call.places,
        howns, hown, if_neg, if_neg]
      · exact fun he => hmn (Option.some.inj he).symm
      · exact fun he => by cases he
    · rw [List.count_cons_self, present_some hx, present_some hself, Call.places_self hown, Call.places, howns]
      rfl
  · simp only [List.mem_cons, List.not_mem_nil, or_false] at hk
    rw [hlocks]
    rcases hk with rfl | rfl
    · rw [locked_some hy, locked_some write_heap_self]
    · rw [locked_some hx, locked_some hself]
  · simp only [List.mem_cons, List.not_mem_nil, or_false] at hk
    rw [hvalue]
    rcases hk with rfl | rfl
    · exact ⟨h.value _ hm, fun _ => (nextOf_some write_heap_self).trans hlinkm.symm⟩
    · refine ⟨?_, fun _ => (nextOf_some hself).trans hlinkn.symm⟩
      rw [valueOf_some hx]
      refine ⟨fun he => (by cases he), fun he => absurd ?_ hnot⟩
      rw [he]
      exact h.head_mem
  · by_cases hlm : s.lastNodePtr = m
    · exact .inl (hlast hlm (by rw [← hlm]; exact hl.2))
    · refine .inr ⟨(hmem _).2 (.inr hl.1), ?_⟩
      exact (hlinks _ hlm (ne_of_mem_of_not_mem hl.1 hnot)).trans hl.2
  · rw [values_perm hperm, values_cons ((hvalue n).trans (valueOf_some hx)), values_congr fun k _ => hvalue k, hadded,
      hremoved]
    abel

/-- A push of `value`, its node linked. -/
theorem pushFront_linkNew (h : Inv s calls link l) (hc : calls[i]? = some (.pushFront value (.linkNew n)))
    (hy : s.heap head = some y) :
    ∃ link' l', Inv (s.write head { y with next := n }) (calls.set i (.pushFront value (.afterOld y.next n)))
      link' l' := by
  obtain ⟨hn, hx, hnext⟩ := h.knows _ (List.mem_of_getElem? hc)
  rw [nextOf_some hy] at hnext
  obtain ⟨-, hnot, -⟩ := h.own_present (n := n) hc rfl
  have hne : head ≠ n := ne_of_mem_of_not_mem h.head_mem hnot
  have hlink : Function.update (Function.update link head n) n (link head) head = n := by
    rw [Function.update_of_ne hne, Function.update_self]
  have hend : Function.update (Function.update link head n) n (link head) n = link head := Function.update_self ..
  rw [PushFrontPc.afterOld, if_pos hnext]
  refine h.link_in hc h.head_mem List.mem_cons_self rfl hn hx hy rfl rfl (fun k hk => (Option.some.inj hk).symm) rfl
    (fun l' lk _ hlk => ⟨hlink, hn, hlk, fun hz => ?_⟩) (fun hp => hp.elim) (fun _ hz => hend.trans hz) trivial rfl rfl
  refine h.last_eq hc h.head_mem (hend.symm.trans hz) List.mem_cons_self (fun a ha he => ?_) fun hp => hp.elim
  exact absurd he (h.linked.next_ne_head ha)

theorem pushBack_append (h : Inv s calls link l) (hc : calls[i]? = some (.pushBack value (.append n m)))
    (hy : s.heap s.lastNodePtr = some y) :
    ∃ link' l', Inv (s.write s.lastNodePtr { y with next := n })
      (calls.set i (.pushBack value (.afterOld y.next n m))) link' l' := by
  obtain ⟨hn, hx, hm, hptr, hzero⟩ := h.knows _ (List.mem_of_getElem? hc)
  rw [hptr] at hy ⊢
  have hheld : m ∈ (Call.pushBack value (.append n m)).holds := List.mem_cons_self
  have hnext := h.next_held hc hheld hm fun ho => by cases ho
  rw [nextOf_some hy, hzero] at hnext
  obtain ⟨-, hnot, -⟩ := h.own_present (n := n) hc rfl
  have hne : m ≠ n := ne_of_mem_of_not_mem hm hnot
  have hlink : Function.update (Function.update link m n) n (link m) m = n := by
    rw [Function.update_of_ne hne, Function.update_self]
  have hend : Function.update (Function.update link m n) n (link m) n = link m := Function.update_self ..
  rw [PushBackPc.afterOld, if_pos hnext]
  exact h.link_in hc hm hheld rfl hn (by rw [hx, hzero]) hy rfl rfl (fun k hk => by cases hk) rfl
    (fun l' lk hm' hlk => ⟨hlink, hn, hlk, hm', hptr, hend.trans hzero⟩) (fun hp => hp.elim) (fun _ _ => trivial)
    trivial rfl rfl

/-- Somewhere the invariant holds. -/
def Ok (s : ThreadsafeList α) (calls : List (Call α)) : Prop := ∃ link l, Inv s calls link l

theorem Inv.locked_last (h : Inv s calls link l) (hc : calls[i]? = some c) (hone : c.lastLocks = 1) :
    s.lastPtrMtx = true := by
  have hlast := h.lastLock
  have hle := Calls.le_total (f := Call.lastLocks) hc
  cases hm : s.lastPtrMtx with
  | true => rfl
  | false =>
    rw [hm] at hlast
    have hz : Calls.total Call.lastLocks calls = 0 := hlast
    omega

theorem pushFront_inv {pc pc' : PushFrontPc} (h : Inv s calls link l) (hc : calls[i]? = some (.pushFront value pc))
    (hm : s.pushFront value address pc = some (pc', s')) : Ok s' (calls.set i (.pushFront value pc')) := by
  have hk := h.knows _ (List.mem_of_getElem? hc)
  obtain ⟨⟨y, hy⟩, -⟩ := h.mem_present h.head_mem
  cases pc with
  | alloc =>
    obtain ⟨hne, hfree, rfl, rfl⟩ := alloc_eq hm
    exact ⟨link, l, h.allocate hc hfree rfl rfl rfl rfl rfl rfl (fun lk => ⟨hne, write_heap_self⟩) id trivial rfl rfl⟩
  | lockHead n =>
    obtain ⟨hfree, rfl, rfl⟩ := lockNode_eq hy hm
    obtain ⟨hn, hx⟩ := hk
    obtain ⟨-, hnot, -⟩ := h.own_present (n := n) hc rfl
    have hne : n ≠ head := fun he => hnot (by rw [he]; exact h.head_mem)
    exact ⟨link, l, h.acquire hc h.head_mem hy hfree h.unguarded_head (.refl _) rfl rfl rfl
      ⟨hn, (write_heap_ne hne).trans hx⟩ id trivial rfl rfl⟩
  | moveNext n =>
    obtain ⟨⟨x, hx⟩, -⟩ := h.own_present (n := n) hc rfl
    simp only [pushFront, onNode_some hx, onNode_some hy] at hm
    cases hm
    exact ⟨link, l, pushFront_moveNext h hc hx hy⟩
  | linkNew n =>
    simp only [pushFront, onNode_some hy] at hm
    cases hm
    exact pushFront_linkNew h hc hy
  | destroyOld p n => exact hk.elim
  | testNext n =>
    obtain ⟨hlink, hn, hlk, hend⟩ := hk
    have hmem : n ∈ l := by
      rw [← hlink]
      exact h.linked.next_mem h.head_mem (by rw [hlink]; exact hn)
    obtain ⟨⟨x, hx⟩, -⟩ := h.mem_present hmem
    have hhead := h.next_held hc (n := head) List.mem_cons_self h.head_mem fun ho => by cases ho
    rw [nextOf_some hy, hlink] at hhead
    have hnext : x.next = link n := by
      rw [← nextOf_some hx]
      refine h.next n hmem fun d hd ho => ?_
      obtain ⟨j, hj⟩ := List.mem_iff_getElem?.1 hd
      have hone := Calls.le_total (f := Call.locks n) hj
      have hpos := Call.locks_pos (Call.opens_held ho)
      have hzero : Calls.total (Call.locks n) calls = 0 := hlk
      omega
    simp only [pushFront, onNode_some hy, hhead, onNode_some hx, hnext] at hm
    cases hm
    split
    · rename_i hz
      exact ⟨link, l, h.quiet hc rfl rfl rfl rfl rfl (.inl rfl) ⟨hlink, hn, hlk, hend hz, hz⟩ (fun _ => .inl trivial)
        .inr trivial rfl rfl⟩
    · rename_i hz
      exact ⟨link, l, h.quiet hc rfl rfl rfl rfl rfl (.inl rfl) trivial (fun hp => absurd hp hz) .inr trivial rfl rfl⟩
  | lockLast n =>
    obtain ⟨hfree, rfl, rfl⟩ := lockLast_eq hm
    exact ⟨link, l, h.quiet hc rfl rfl rfl rfl (by rw [hfree]; rfl) (.inl rfl) hk (fun _ => .inl trivial) .inr trivial
      rfl rfl⟩
  | setLast n =>
    obtain ⟨hlink, hn, -, hptr, hend⟩ := hk
    have hhead := h.next_held hc (n := head) List.mem_cons_self h.head_mem fun ho => by cases ho
    rw [nextOf_some hy, hlink] at hhead
    simp only [pushFront, onNode_some hy, hhead] at hm
    cases hm
    have hmem : n ∈ l := by
      rw [← hlink]
      exact h.linked.next_mem h.head_mem (by rw [hlink]; exact hn)
    exact ⟨link, l, h.quiet hc rfl rfl rfl rfl rfl (.inr (by rw [hptr]; exact List.mem_cons_self)) trivial
      (fun _ => .inr ⟨hmem, hend⟩) (fun _ => .inr ⟨hmem, hend⟩) trivial rfl rfl⟩
  | unlockLast =>
    cases hm
    have hlocked := h.locked_last hc rfl
    exact ⟨link, l, h.quiet hc rfl rfl rfl rfl (by rw [hlocked]; rfl) (.inl rfl) trivial (fun hp => hp.elim) .inr
      trivial rfl rfl⟩
  | unlockHead =>
    obtain ⟨rfl, rfl⟩ := unlockNode_eq hy hm
    exact ⟨link, l, h.release hc hy (.refl _) rfl rfl rfl trivial id trivial rfl rfl⟩
  | returned => cases hm
  | undefined => cases hm

theorem pushBack_inv {pc pc' : PushBackPc} (h : Inv s calls link l) (hc : calls[i]? = some (.pushBack value pc))
    (hlocks : ∀ n m, pc = .lockNode n m → m = s.lastNodePtr) (hm : s.pushBack value address pc = some (pc', s')) :
    Ok s' (calls.set i (.pushBack value pc')) := by
  have hk := h.knows _ (List.mem_of_getElem? hc)
  obtain ⟨y, hy⟩ := h.last_present
  cases pc with
  | alloc =>
    obtain ⟨hne, hfree, rfl, rfl⟩ := alloc_eq hm
    exact ⟨link, l, h.allocate hc hfree rfl rfl rfl rfl rfl rfl (fun lk => ⟨hne, write_heap_self⟩) id trivial rfl rfl⟩
  | readLast n =>
    cases hm
    exact ⟨link, l, h.quiet hc rfl rfl rfl rfl rfl (.inl rfl) hk (fun hp => hp.elim) .inr trivial rfl rfl⟩
  | lockNode n m =>
    obtain rfl := hlocks n m rfl
    obtain ⟨hfree, rfl, rfl⟩ := lockNode_eq hy hm
    obtain ⟨hlast, hguards⟩ := h.unguarded_last hy hfree
    obtain ⟨hn, hx⟩ := hk
    obtain ⟨-, hnot, -⟩ := h.own_present (n := n) hc rfl
    have hne : n ≠ s.lastNodePtr := fun he => hnot (by rw [he]; exact hlast.1)
    exact ⟨link, l, h.acquire hc hlast.1 hy hfree hguards (.refl _) rfl rfl rfl
      ⟨hn, (write_heap_ne hne).trans hx, hlast.1, rfl, hlast.2⟩ id trivial rfl rfl⟩
  | lockLast n m =>
    obtain ⟨hfree, rfl, rfl⟩ := lockLast_eq hm
    exact ⟨link, l, h.quiet hc rfl rfl rfl rfl (by rw [hfree]; rfl) (.inl rfl) hk (fun hp => hp.elim) .inr trivial rfl
      rfl⟩
  | append n m =>
    simp only [pushBack, onNode_some hy] at hm
    cases hm
    exact pushBack_append h hc hy
  | destroyOld p n m => exact hk.elim
  | setLast n m =>
    obtain ⟨hlink, hn, -, hmem, hptr, hend⟩ := hk
    have hheld : m ∈ (Call.pushBack value (.setLast n m)).holds := List.mem_cons_self
    have hnext := h.next_held hc hheld hmem fun ho => by cases ho
    rw [hptr] at hy
    rw [nextOf_some hy, hlink] at hnext
    simp only [pushBack, hptr, onNode_some hy, hnext] at hm
    cases hm
    have hnl : n ∈ l := by
      rw [← hlink]
      exact h.linked.next_mem hmem (by rw [hlink]; exact hn)
    exact ⟨link, l, h.quiet hc rfl rfl rfl rfl rfl (.inr (by rw [hptr]; exact hheld)) hmem
      (fun _ => .inr ⟨hnl, hend⟩) (fun _ => .inr ⟨hnl, hend⟩) trivial rfl rfl⟩
  | unlockLast m =>
    cases hm
    have hlocked := h.locked_last hc rfl
    exact ⟨link, l, h.quiet hc rfl rfl rfl rfl (by rw [hlocked]; rfl) (.inl rfl) hk (fun hp => hp.elim) .inr trivial rfl
      rfl⟩
  | unlockNode m =>
    obtain ⟨⟨x, hx⟩, -⟩ := h.mem_present (n := m) hk
    obtain ⟨rfl, rfl⟩ := unlockNode_eq hx hm
    exact ⟨link, l, h.release hc hx (.refl _) rfl rfl rfl trivial id trivial rfl rfl⟩
  | returned => cases hm
  | undefined => cases hm

/-! ## remove_if and remove_first -/

/-- `cur->next_` is moved into `old`. -/
theorem remove_takeOld {once : Bool} {p : α → Bool} {removed : List α} {cur next : ℕ} (h : Inv s calls link l)
    (hc : calls[i]? = some (.remove once p removed (.takeOld cur next))) (hx : s.heap cur = some x) :
    Inv (s.write cur { x with next := 0 }) (calls.set i (.remove once p removed (.relink cur next x.next))) link l := by
  obtain ⟨hcur, hlink, hne, v, hv, hpv⟩ := h.knows _ (List.mem_of_getElem? hc)
  have hheld : cur ∈ (Call.remove once p removed (.takeOld cur next)).holds := List.mem_cons_self
  have hnext := h.next_held hc hheld hcur fun ho => by cases ho
  rw [nextOf_some hx, hlink] at hnext
  have hvalue : ∀ m, valueOf (s.write cur { x with next := 0 }).heap m = valueOf s.heap m := by
    intro m
    by_cases hm : m = cur
    · rw [hm, valueOf_some write_heap_self, valueOf_some hx]
    · exact valueOf_congr (write_heap_ne hm)
  have hchosen : ∀ data ∈ removed, p data = true := h.chosen _ (List.mem_of_getElem? hc)
  refine h.touch hc [cur]
    { frame := fun m hm => ⟨write_heap_ne (by simpa using hm), rfl, rfl⟩
      calm := fun m hm => ⟨rfl, rfl, fun ho => (by cases ho)⟩
      mine := fun m hm => ?_
      place := fun m hm => ?_
      lock := fun m hm => ?_
      node := fun m hm hml => ⟨?_, fun ho => ?_⟩
      linked := h.linked
      lastLock := rfl
      lastPtr := .inl rfl
      knows := ⟨hcur, hlink, hne, ⟨v, (hvalue next).trans hv, hpv⟩, hnext, nextOf_some write_heap_self⟩
      pending := fun hp => hp.elim
      last := .inr
      chosen := hchosen
      values := ?_ }
  · rw [List.mem_singleton.1 hm]
    exact .inl hheld
  · rw [List.mem_singleton.1 hm, present_some hx, present_some write_heap_self]
    rfl
  · rw [List.mem_singleton.1 hm, locked_some hx, locked_some write_heap_self]
    rfl
  · rw [hvalue]
    exact h.value m hml
  · exact absurd (by rw [List.mem_singleton.1 hm]; rfl) ho
  · rw [values_congr fun m _ => hvalue m]
    rfl

/-- `next` is taken out of the chain. -/
theorem remove_relink {once : Bool} {p : α → Bool} {removed : List α} {cur next old : ℕ} (h : Inv s calls link l)
    (hc : calls[i]? = some (.remove once p removed (.relink cur next old))) (hx : s.heap cur = some x)
    (hy : s.heap next = some y) :
    ∃ link' l', Inv ((s.write next { y with next := 0 }).write cur { x with next := y.next })
      (calls.set i (.remove once p (removed ++ (valueOf s.heap next).toList) (.afterNext x.next cur next old)))
      link' l' := by
  obtain ⟨hcur, rfl, hne, ⟨v, hv, hpv⟩, rfl, hzero⟩ := h.knows _ (List.mem_of_getElem? hc)
  have hnl : link cur ∈ l := h.linked.next_mem hcur hne
  have hheld : cur ∈ (Call.remove once p removed (.relink cur (link cur) (link cur))).holds := List.mem_cons_self
  have hheld' : link cur ∈ (Call.remove once p removed (.relink cur (link cur) (link cur))).holds :=
    List.mem_cons_of_mem _ List.mem_cons_self
  rw [nextOf_some hx] at hzero
  obtain ⟨l', hlinked, hperm⟩ := h.linked.remove hcur hne
  obtain ⟨hnot, -⟩ := List.nodup_cons.1 (hperm.nodup h.linked.nodup)
  have hcn : link cur ≠ cur := h.linked.next_ne hcur
  have hnext := h.next_held hc hheld' hnl fun ho => hcn (Option.some.inj ho).symm
  rw [nextOf_some hy] at hnext
  have hmem : ∀ m, m ≠ link cur → (m ∈ l' ↔ m ∈ l) := by
    intro m hm
    rw [hperm.mem_iff, List.mem_cons, or_iff_right hm]
  have hlink : Function.update link cur (link (link cur)) cur = link (link cur) := Function.update_self ..
  have hself : ((s.write (link cur) { y with next := 0 }).write cur { x with next := y.next }).heap (link cur) =
      some { y with next := 0 } := (write_heap_ne hcn).trans write_heap_self
  have hvalue : ∀ m, valueOf ((s.write (link cur) { y with next := 0 }).write cur { x with next := y.next }).heap m =
      valueOf s.heap m := by
    intro m
    by_cases hm : m = cur
    · rw [hm, valueOf_some write_heap_self, valueOf_some hx]
    · by_cases hm' : m = link cur
      · rw [hm', valueOf_some hself, valueOf_some hy]
      · exact valueOf_congr ((write_heap_ne hm).trans (write_heap_ne hm'))
  have hend : link (link cur) = 0 → s.lastNodePtr = link cur := fun hz =>
    h.last_eq hc hnl hz hheld' (fun a ha he => by rw [h.linked.next_inj ha hcur he]; exact hheld) fun hp => hp.elim
  have hchosen : ∀ data ∈ removed, p data = true := h.chosen _ (List.mem_of_getElem? hc)
  rw [RemovePc.afterNext, if_pos hzero]
  refine ⟨_, l', h.touch hc [link cur, cur]
    { frame := fun m hm => ?_
      calm := fun m hm => ⟨rfl, ?_, fun ho => ?_⟩
      mine := fun m hm => ?_
      place := fun m hm => ?_
      lock := fun m hm => ?_
      node := fun m hm hml => ?_
      linked := hlinked
      lastLock := rfl
      lastPtr := .inl rfl
      knows := ⟨(hmem cur hcn.symm).2 hcur, rfl, hne, nextOf_some hself, fun hz => hend (hlink.symm.trans hz)⟩
      pending := fun hp => hp.elim
      last := fun hl => ?_
      chosen := ?_
      values := ?_ }⟩
  · simp only [List.mem_cons, List.not_mem_nil, or_false, not_or] at hm
    refine ⟨(write_heap_ne hm.2).trans (write_heap_ne hm.1), Function.update_of_ne hm.2 _ _, ?_⟩
    rw [hperm.count_eq, List.count_cons_of_ne (Ne.symm hm.1)]
  · exact if_neg fun he => hm (by rw [Option.some.inj he]; exact List.mem_cons_self)
  · exact absurd (by rw [Option.some.inj ho]; simp) hm
  · simp only [List.mem_cons, List.not_mem_nil, or_false] at hm
    rcases hm with rfl | rfl
    · exact .inl hheld'
    · exact .inl hheld
  · simp only [List.mem_cons, List.not_mem_nil, or_false] at hm
    rw [hperm.count_eq]
    rcases hm with rfl | rfl
    · rw [List.count_cons_self, present_some hy, present_some hself, Call.places_self rfl]
      rfl
    · rw [List.count_cons_of_ne hcn, present_some hx, present_some write_heap_self, Call.places, if_neg]
      · rfl
      · exact fun he => hcn (Option.some.inj he)
  · simp only [List.mem_cons, List.not_mem_nil, or_false] at hm
    rcases hm with rfl | rfl
    · rw [locked_some hy, locked_some hself]
      rfl
    · rw [locked_some hx, locked_some write_heap_self]
      rfl
  · simp only [List.mem_cons, List.not_mem_nil, or_false] at hm
    rcases hm with rfl | rfl
    · exact absurd hml hnot
    · refine ⟨?_, fun _ => (nextOf_some write_heap_self).trans (hnext.trans hlink.symm)⟩
      rw [hvalue]
      exact h.value _ hcur
  · by_cases hz : s.lastNodePtr = link cur
    · exact .inl (hlink.trans (by rw [← hz]; exact hl.2))
    · refine .inr ⟨(hmem _ hz).2 hl.1, ?_⟩
      have hlc : s.lastNodePtr ≠ cur := fun he => hne (by rw [← he]; exact hl.2)
      exact (Function.update_of_ne hlc _ _).trans hl.2
  · intro data hdata
    rcases List.mem_append.1 hdata with hdata | hdata
    · exact hchosen data hdata
    · rw [hv] at hdata
      rw [List.mem_singleton.1 hdata]
      exact hpv
  · rw [values_perm hperm, values_cons hv, values_congr fun m _ => hvalue m, hv]
    show 0 + (removed : Multiset α) + ({v} + values s.heap l') =
      0 + ((removed ++ [v] : List α) : Multiset α) + values s.heap l'
    rw [← Multiset.coe_add, Multiset.coe_singleton]
    abel

/-- Nobody has locked what is a call's own, if the call itself has not. -/
theorem Inv.own_unlocked (h : Inv s calls link l) (hc : calls[i]? = some c) (hown : c.owns = some n)
    (hnot : n ∉ c.holds) : Calls.total (Call.locks n) calls = 0 := by
  obtain ⟨-, hnl, hother⟩ := h.own_present hc hown
  refine Calls.total_eq_zero fun d hd => List.count_eq_zero.2 fun hheld => ?_
  obtain ⟨j, hj⟩ := List.mem_iff_getElem?.1 hd
  by_cases hji : j = i
  · rw [hji, hc] at hj
    cases hj
    exact hnot hheld
  · rcases (h.held hj hheld).2.1 with hmem | ho
    · exact hnl hmem
    · exact hother j d hji hj ho

/-- The mover destroys its own node. -/
theorem Inv.discard (h : Inv s calls link l) (hc : calls[i]? = some c) (hown : c.owns = some n) (hnot : n ∉ c.holds)
    (hholds : c'.holds = c.holds) (howns : c'.owns = none) (hopens : c.opens = none)
    (hlastLock : c'.lastLocks = c.lastLocks) (hknows : ∀ lk, c'.Knows (s.free n) link l lk)
    (hpending : ¬ c.Pending link) (hchosen : c'.Chosen) (hadded : c'.added = c.added)
    (hremoved : c'.removed = c.removed) : Inv (s.free n) (calls.set i c') link l := by
  obtain ⟨⟨x, hx⟩, hnl, -⟩ := h.own_present hc hown
  have hlocks : ∀ m, c'.locks m = c.locks m := fun m => by rw [Call.locks, Call.locks, hholds]
  have hplaces : ∀ m, c'.places m = 0 := fun m => by rw [Call.places, howns]; rfl
  refine h.touch hc [n]
    { frame := fun m hm => ⟨free_heap_ne (by simpa using hm), rfl, rfl⟩
      calm := fun m hm => ⟨hlocks m, ?_, fun ho => ?_⟩
      mine := fun m hm => ?_
      place := fun m hm => ?_
      lock := fun m hm => ?_
      node := fun m hm hml => ?_
      linked := h.linked
      lastLock := by rw [hlastLock]; rfl
      lastPtr := .inl rfl
      knows := hknows _
      pending := fun hp => absurd hp hpending
      last := .inr
      chosen := hchosen
      values := ?_ }
  · rw [hplaces, Call.places, hown, if_neg]
    exact fun he => hm (by rw [Option.some.inj he]; exact List.mem_cons_self)
  · rw [hopens] at ho
    cases ho
  · rw [List.mem_singleton.1 hm]
    exact .inr (.inl hown)
  · rw [List.mem_singleton.1 hm, hplaces, Call.places_self hown, present_some hx, present_none free_heap_self]
  · rw [List.mem_singleton.1 hm, hlocks, ← h.lock, h.own_unlocked hc hown hnot, locked_none free_heap_self]
  · rw [List.mem_singleton.1 hm] at hml
    exact absurd hml hnl
  · rw [hadded, hremoved, values_congr fun m hm => valueOf_congr (free_heap_ne (ne_of_mem_of_not_mem hm hnl))]

theorem removeLoop_inv {once : Bool} {p : α → Bool} {removed : List α} {pc pc' : RemovePc} (h : Inv s calls link l)
    (hc : calls[i]? = some (.remove once p removed pc)) (hm : s.removeLoop once p pc = some (pc', s')) :
    Ok s' (calls.set i (.remove once p (removed ++ s.taken pc) pc')) := by
  have hk := h.knows _ (List.mem_of_getElem? hc)
  have hchosen : ∀ data ∈ removed, p data = true := h.chosen _ (List.mem_of_getElem? hc)
  have hswap : ∀ cur next : ℕ, [cur, next].Perm (next :: [cur]) := fun cur next => .swap next cur []
  by_cases hrelink : ∃ cur next old, pc = .relink cur next old
  · obtain ⟨cur, next, old, rfl⟩ := hrelink
    obtain ⟨hcur, rfl, hne, -⟩ := hk
    obtain ⟨⟨x, hx⟩, -⟩ := h.mem_present hcur
    obtain ⟨⟨y, hy⟩, -⟩ := h.mem_present (h.linked.next_mem hcur hne)
    simp only [removeLoop, onNode_some hx, onNode_some hy] at hm
    cases hm
    exact remove_relink h hc hx hy
  have hsame : s.taken pc = [] := by
    cases pc with
    | relink cur next old => exact absurd ⟨cur, next, old, rfl⟩ hrelink
    | _ => rfl
  rw [hsame, List.append_nil]
  cases pc with
  | lockHead =>
    obtain ⟨⟨y, hy⟩, -⟩ := h.mem_present h.head_mem
    obtain ⟨hfree, rfl, rfl⟩ := lockNode_eq hy hm
    exact ⟨link, l, h.acquire hc h.head_mem hy hfree h.unguarded_head (.refl _) rfl rfl rfl h.head_mem id hchosen rfl
      rfl⟩
  | readNext cur =>
    have hcur : cur ∈ l := hk
    obtain ⟨⟨x, hx⟩, -⟩ := h.mem_present hcur
    have hnext := h.next_held hc (n := cur) List.mem_cons_self hcur fun ho => by cases ho
    rw [nextOf_some hx] at hnext
    simp only [removeLoop, onNode_some hx, hnext] at hm
    cases hm
    split
    · exact ⟨link, l, h.quiet hc rfl rfl rfl rfl rfl (.inl rfl) hcur (fun hp => hp.elim) .inr hchosen rfl rfl⟩
    · rename_i hne
      exact ⟨link, l, h.quiet hc rfl rfl rfl rfl rfl (.inl rfl) ⟨hcur, rfl, hne⟩ (fun hp => hp.elim) .inr hchosen rfl
        rfl⟩
  | lockNext cur next =>
    obtain ⟨hcur, rfl, hne⟩ := hk
    have hnl := h.linked.next_mem hcur hne
    obtain ⟨⟨y, hy⟩, -⟩ := h.mem_present hnl
    obtain ⟨hfree, rfl, rfl⟩ := lockNode_eq hy hm
    exact ⟨link, l, h.acquire hc hnl hy hfree (h.unguarded_next hc List.mem_cons_self hcur rfl) (hswap _ _) rfl rfl rfl
      ⟨hcur, rfl, hne⟩ id hchosen rfl rfl⟩
  | test cur next =>
    obtain ⟨hcur, rfl, hne⟩ := hk
    have hnl := h.linked.next_mem hcur hne
    obtain ⟨⟨y, hy⟩, -⟩ := h.mem_present hnl
    obtain ⟨v, hv⟩ : ∃ v, y.data = some v := by
      refine Option.ne_none_iff_exists'.1 fun hnone => h.linked.next_ne_head hcur ((h.value _ hnl).1 ?_)
      rw [valueOf_some hy, hnone]
    simp only [removeLoop, onNode_some hy, hv] at hm
    cases hm
    split
    · rename_i hpv
      exact ⟨link, l, h.quiet hc rfl rfl rfl rfl rfl (.inl rfl) ⟨hcur, rfl, hne, v, by rw [valueOf_some hy, hv], hpv⟩
        (fun hp => hp.elim) .inr hchosen rfl rfl⟩
    · exact ⟨link, l, h.quiet hc rfl rfl rfl rfl rfl (.inl rfl) ⟨hcur, rfl, hne⟩ (fun hp => hp.elim) .inr hchosen rfl
        rfl⟩
  | takeOld cur next =>
    obtain ⟨⟨x, hx⟩, -⟩ := h.mem_present hk.1
    simp only [removeLoop, onNode_some hx] at hm
    cases hm
    exact ⟨link, l, remove_takeOld h hc hx⟩
  | relink cur next old => exact absurd ⟨cur, next, old, rfl⟩ hrelink
  | destroyNext q cur next old => exact hk.elim
  | testLast cur next old =>
    obtain ⟨hcur, he, hne, hzero, hend⟩ := hk
    obtain ⟨⟨x, hx⟩, -⟩ := h.mem_present hcur
    have hnext := h.next_held hc (n := cur) List.mem_cons_self hcur fun ho => by cases ho
    rw [nextOf_some hx] at hnext
    simp only [removeLoop, onNode_some hx, hnext] at hm
    cases hm
    split
    · rename_i hz
      exact ⟨link, l, h.quiet hc rfl rfl rfl rfl rfl (.inl rfl) ⟨hcur, he, hne, hzero, hend hz, hz⟩
        (fun _ => .inl trivial) .inr hchosen rfl rfl⟩
    · rename_i hz
      exact ⟨link, l, h.quiet hc rfl rfl rfl rfl rfl (.inl rfl) ⟨hcur, he, hne, hzero⟩ (fun hp => absurd hp hz) .inr
        hchosen rfl rfl⟩
  | lockLast cur next old =>
    obtain ⟨hfree, rfl, rfl⟩ := lockLast_eq hm
    exact ⟨link, l, h.quiet hc rfl rfl rfl rfl (by rw [hfree]; rfl) (.inl rfl) hk (fun _ => .inl trivial) .inr hchosen
      rfl rfl⟩
  | setLast cur next old =>
    obtain ⟨hcur, he, hne, hzero, hptr, hend⟩ := hk
    cases hm
    have hheld : next ∈ [cur, next] := List.mem_cons_of_mem _ List.mem_cons_self
    exact ⟨link, l, h.quiet hc rfl rfl rfl rfl rfl (.inr (by rw [hptr]; exact hheld)) ⟨hcur, he, hne, hzero⟩
      (fun _ => .inr ⟨hcur, hend⟩) (fun _ => .inr ⟨hcur, hend⟩) hchosen rfl rfl⟩
  | unlockLast cur next old =>
    cases hm
    have hlocked := h.locked_last hc rfl
    exact ⟨link, l, h.quiet hc rfl rfl rfl rfl (by rw [hlocked]; rfl) (.inl rfl) hk (fun hp => hp.elim) .inr hchosen rfl
      rfl⟩
  | unlockNext cur next old =>
    obtain ⟨hcur, rfl, hne, hzero⟩ := hk
    obtain ⟨⟨y, hy⟩, -⟩ := h.own_present (n := old) hc rfl
    rw [nextOf_some hy] at hzero
    obtain ⟨rfl, rfl⟩ := unlockNode_eq hy hm
    rw [RemovePc.afterOld, if_neg hne]
    exact ⟨link, l, h.release hc hy (hswap _ _) rfl rfl rfl ⟨hcur, (nextOf_some write_heap_self).trans hzero⟩ id hchosen
      rfl rfl⟩
  | destroyOld q cur =>
    obtain ⟨hcur, hzero⟩ := hk
    obtain ⟨⟨y, hy⟩, hnl, -⟩ := h.own_present (n := q) hc rfl
    have hnot : q ∉ (Call.remove once p removed (.destroyOld q cur)).holds := by
      intro hheld
      rw [List.mem_singleton.1 hheld] at hnl
      exact hnl hcur
    have hfree : y.mtx = false := by
      have hlock := h.lock q
      rw [h.own_unlocked hc rfl hnot, locked_some hy] at hlock
      cases hmtx : y.mtx with
      | false => rfl
      | true =>
        rw [hmtx] at hlock
        cases hlock
    rw [nextOf_some hy] at hzero
    simp only [removeLoop, destroyNode, onNode_some hy, hfree, hzero] at hm
    cases hm
    cases once with
    | true => exact ⟨link, l, h.discard hc rfl hnot rfl rfl rfl rfl (fun _ => hcur) id hchosen rfl rfl⟩
    | false => exact ⟨link, l, h.discard hc rfl hnot rfl rfl rfl rfl (fun _ => hcur) id hchosen rfl rfl⟩
  | unlockPrev cur next =>
    obtain ⟨hcur, rfl, hne⟩ := hk
    obtain ⟨⟨x, hx⟩, -⟩ := h.mem_present hcur
    obtain ⟨rfl, rfl⟩ := unlockNode_eq hx hm
    exact ⟨link, l, h.release hc hx (.refl _) rfl rfl rfl (h.linked.next_mem hcur hne) id hchosen rfl rfl⟩
  | unlockCur cur res =>
    obtain ⟨⟨x, hx⟩, -⟩ := h.mem_present (n := cur) hk
    obtain ⟨rfl, rfl⟩ := unlockNode_eq hx hm
    exact ⟨link, l, h.release hc hx (.refl _) rfl rfl rfl trivial id hchosen rfl rfl⟩
  | returned res => cases hm
  | undefined => cases hm

/-! ## Runs -/

theorem run_ok {events : List (Event α)} {t : System α}
    (hlocks : Run.Along program.step (fun s e => LocksLast s e = true) start events)
    (h : Run.run program.step start events = some t) : Ok t.shared t.calls := by
  refine Calls.run_along_invariant (p := program) Ok (fun s calls op hok => ?_)
    (fun s calls i c address c' s' hok hc hl hm => ?_) ⟨fun _ => 0, [head], inv_start⟩ hlocks h
  · obtain ⟨link, l, hinv⟩ := hok
    cases op with
    | pushFront value => exact ⟨link, l, hinv.enter rfl rfl rfl rfl (fun _ => trivial) rfl rfl trivial⟩
    | pushBack value => exact ⟨link, l, hinv.enter rfl rfl rfl rfl (fun _ => trivial) rfl rfl trivial⟩
    | removeIf p =>
      exact ⟨link, l, hinv.enter rfl rfl rfl rfl (fun _ => trivial) rfl rfl fun _ hd => (List.not_mem_nil hd).elim⟩
    | removeFirst p =>
      exact ⟨link, l, hinv.enter rfl rfl rfl rfl (fun _ => trivial) rfl rfl fun _ hd => (List.not_mem_nil hd).elim⟩
  · obtain ⟨link, l, hinv⟩ := hok
    cases c with
    | pushFront value pc =>
      obtain ⟨⟨pc', r⟩, hp, he⟩ := Option.map_eq_some_iff.1 hm
      cases he
      exact pushFront_inv hinv hc hp
    | pushBack value pc =>
      obtain ⟨⟨pc', r⟩, hp, he⟩ := Option.map_eq_some_iff.1 hm
      cases he
      refine pushBack_inv hinv hc (fun n m hpc => ?_) hp
      subst hpc
      simp only [LocksLast, hc, beq_iff_eq] at hl
      exact hl
    | remove once p removed pc =>
      obtain ⟨⟨pc', r⟩, hp, he⟩ := Option.map_eq_some_iff.1 hm
      cases he
      have hloop : s.removeLoop once p pc = some (pc', r) := by cases once <;> exact hp
      exact removeLoop_inv hinv hc hloop

/-- A call that has ended changes nothing any more. -/
theorem done_bare (link : ℕ → ℕ) (h : c.done = true) : c.opens = none ∧ (¬ c.Pending link) ∧ c.added = c.put := by
  cases c with
  | pushFront value pc =>
    cases pc with
    | returned => exact ⟨rfl, id, rfl⟩
    | _ => cases h
  | pushBack value pc =>
    cases pc with
    | returned => exact ⟨rfl, id, rfl⟩
    | _ => cases h
  | remove once p removed pc =>
    cases pc with
    | returned res => exact ⟨rfl, id, rfl⟩
    | _ => cases h

/-- With no call under way the `next_` of the nodes are the chain. -/
theorem Inv.chain_of_done (h : Inv s calls link l) (hdone : ∀ c ∈ calls, c.done = true) :
    ∃ m, Linked (nextOf s.heap) (nextOf s.heap head) m ∧ (head :: m).getLast? = some s.lastNodePtr ∧
      Calls.total Call.put calls = Calls.total (fun c => (c.removed : Multiset α)) calls + values s.heap m := by
  have hopens : ∀ c ∈ calls, ∀ n, c.opens ≠ some n := by
    intro c hc n
    rw [(done_bare link (hdone c hc)).1]
    exact Option.some_ne_none n |>.symm
  have hlinked : Linked (nextOf s.heap) head l := h.linked.congr fun n hn => h.next n hn fun c hc => hopens c hc n
  have hlast : Last s link l := by
    rcases h.last with ⟨c, hc, hp⟩ | hlast
    · exact absurd hp (done_bare link (hdone c hc)).2.1
    · exact hlast
  obtain ⟨m, rfl, hm⟩ := hlinked.uncons Nat.one_ne_zero
  refine ⟨m, hm, h.linked.getLast_eq hlast.1 hlast.2, ?_⟩
  have hhead : valueOf s.heap head = none := (h.value head List.mem_cons_self).2 rfl
  have hvalues : values s.heap (head :: m) = values s.heap m := by
    rw [values, values, List.filterMap_cons, hhead]
  rw [← hvalues, ← h.conserved]
  exact Calls.total_congr fun c hc => (done_bare link (hdone c hc)).2.2.symm

/-- **The locked list.** If a push_back that locks a node locks the last one, no
call uses a node that is not there, and none removes what its predicate is not
true of; with no call under way the pointer to the last node points to the end
of the chain, which has the values pushed and not removed. -/
theorem kept {events : List (Event α)} {t : System α}
    (hlocks : Run.Along program.step (fun s e => LocksLast s e = true) start events)
    (h : Run.run program.step start events = some t) :
    (∀ c ∈ t.calls, c.isUndefined = false ∧ c.Chosen) ∧
    ((∀ c ∈ t.calls, c.done = true) →
      ∃ l, Linked (nextOf t.shared.heap) (nextOf t.shared.heap head) l ∧
        (head :: l).getLast? = some t.shared.lastNodePtr ∧
        Calls.total Call.put t.calls =
          Calls.total (fun c => (c.removed : Multiset α)) t.calls + values t.shared.heap l) := by
  obtain ⟨link, l, hinv⟩ := run_ok hlocks h
  refine ⟨fun c hc => ⟨?_, hinv.chosen c hc⟩, hinv.chain_of_done⟩
  have hk := hinv.knows c hc
  cases c with
  | pushFront value pc =>
    cases pc with
    | undefined => exact hk.elim
    | _ => rfl
  | pushBack value pc =>
    cases pc with
    | undefined => exact hk.elim
    | _ => rfl
  | remove once p removed pc =>
    cases pc with
    | undefined => exact hk.elim
    | _ => rfl

/-- A call moves `n` times. -/
def moves (i n : ℕ) : List (Event ℕ) := List.replicate n (.move i 0)

/-- A push_back asks for the last node while a push_front still holds the lock of
the pointer to it; then the even values are removed, and the first 5. -/
def lastMoves : List (Event ℕ) :=
  [.call (.pushFront 5), .move 0 8] ++ moves 0 6 ++ [.call (.pushBack 6), .move 1 9] ++ moves 1 1 ++ moves 0 2 ++
    moves 1 6 ++ [.call (.removeIf fun v => v % 2 == 0)] ++ moves 2 18 ++ [.call (.removeFirst fun v => v == 5)] ++
    moves 3 13 ++ [.call (.pushBack 7), .move 4 9] ++ moves 4 7

theorem kept_lastMoves :
    ∃ t, Run.run program.step start lastMoves = some t ∧ (∀ c ∈ t.calls, c.done = true) ∧
      t.calls.map Call.removed = [[], [], [6], [5], []] ∧
      ∃ l, Linked (nextOf t.shared.heap) (nextOf t.shared.heap head) l ∧
        (head :: l).getLast? = some t.shared.lastNodePtr ∧
        Calls.total Call.put t.calls =
          Calls.total (fun c => (c.removed : Multiset ℕ)) t.calls + values t.shared.heap l := by
  have heval : (Run.run program.step start lastMoves).map (fun t => (t.calls.all Call.done, t.calls.map Call.removed)) =
      some (true, [[], [], [6], [5], []]) := by decide +kernel
  obtain ⟨t, ht, hcalls⟩ := Option.map_eq_some_iff.1 heval
  obtain ⟨hdone, hremoved⟩ := Prod.mk.inj hcalls
  have hdone : ∀ c ∈ t.calls, c.done = true := List.all_eq_true.1 hdone
  exact ⟨t, ht, hdone, hremoved, (kept (by decide +kernel) ht).2 hdone⟩

/-- A push_back asks for the last node, which is then removed and destroyed. -/
def staleLast : List (Event ℕ) :=
  [.call (.pushFront 5), .move 0 8] ++ moves 0 8 ++ [.call (.pushBack 6), .move 1 9] ++ moves 1 1 ++
    [.call (.removeFirst fun v => v == 5)] ++ moves 2 13 ++ moves 1 1

/-- It locks what is not there. -/
theorem destroyed_locked :
    ∃ t, Run.run program.step start staleLast = some t ∧ ∃ c ∈ t.calls, c.isUndefined = true := by
  have heval : (Run.run program.step start staleLast).map (fun t => t.calls.any Call.isUndefined) = some true := by
    decide +kernel
  obtain ⟨t, ht, hany⟩ := Option.map_eq_some_iff.1 heval
  exact ⟨t, ht, List.any_eq_true.1 hany⟩

end Learncc.ThreadsafeList
