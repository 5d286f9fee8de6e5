/-
What the counts of a `lock_free_queue` say. The chain of nodes from `head` is cut
at `tail`: the nodes before it have values, those behind it are new. To a node
that is not a call's own the references held are those given back, less, and
those taken through the pointers to it that are left, and through those whose
count is still to be added.

`Inv.touch` keeps the invariant over a move that concerns the nodes `ns`.
-/
import Learncc.Public.LockFreeQueue

namespace Learncc.LockFreeQueue

variable {α : Type}

def nextOf (heap : ℕ → Option (Node α)) (n : ℕ) : CountedNodePtr := ((heap n).map Node.next).getD ⟨0, 0⟩

def valueOf (heap : ℕ → Option (Node α)) (n : ℕ) : Option α := (heap n).bind Node.data

def present (heap : ℕ → Option (Node α)) (n : ℕ) : ℕ := if (heap n).isSome then 1 else 0

def values (heap : ℕ → Option (Node α)) (l : List ℕ) : Multiset α := (l.filterMap (valueOf heap) : Multiset α)

/-- The nodes from `head` on, those behind `tail` being `post`. -/
def chain (s : LockFreeQueue α) (pre post : List ℕ) : List ℕ := pre ++ s.tail.ptr :: post

/-- The references taken through a pointer to `n`. -/
def part (p : CountedNodePtr) (n : ℕ) : ℤ := if p.ptr = n then p.externalCount - 1 else 0

namespace Call

/-- The node to which the call holds a reference. -/
def holds : Call α → Option ℕ
  | .push _ pc =>
    match pc with
    | .casData _ oldTail | .loadNext _ oldTail | .casNext _ oldTail => some oldTail.ptr
    | .deleteNew _ _ oldTail | .helpNext _ oldTail | .allocNew _ oldTail => some oldTail.ptr
    | .setTail _ _ current _ => some current
    | .drop ptr (.load _) _ _ | .drop ptr (.cas ..) _ _ => some ptr
    | _ => none
  | .pop pc =>
    match pc with
    | .readTail oldHead | .loadNext oldHead | .casHead oldHead _ | .exchange oldHead => some oldHead.ptr
    | .drop ptr (.load _) _ | .drop ptr (.cas ..) _ => some ptr
    | _ => none

/-- The new nodes of the call. -/
def news : Call α → List ℕ
  | .push _ pc =>
    match pc with
    | .loadTail n | .increase n _ | .casData n _ | .loadNext n _ | .casNext n _ => [n]
    | .deleteNew n _ _ | .helpNext n _ => [n]
    | .setTail _ _ _ after | .drop _ _ _ after => after.toList
    | _ => []
  | _ => []

/-- The node the call deletes next. -/
def dead : Call α → List ℕ
  | .push _ (.drop ptr .delete _ _) | .pop (.drop ptr .delete _) => [ptr]
  | _ => []

/-- The nodes that are the call's own. -/
def owns (c : Call α) : List ℕ := c.dead ++ c.news

/-- The node from which the call has taken a pointer, and the count of that. -/
def frees : Call α → Option CountedNodePtr
  | .push _ (.drop ptr (.load (.freeExternal e)) _ _) => some ⟨e, ptr⟩
  | .push _ (.drop ptr (.cas (.freeExternal e) _) _ _) => some ⟨e, ptr⟩
  | .pop (.exchange oldHead) => some oldHead
  | .pop (.drop ptr (.load (.freeExternal e)) _) | .pop (.drop ptr (.cas (.freeExternal e) _) _) => some ⟨e, ptr⟩
  | _ => none

/-- The node from which the call takes the value next. -/
def takes : Call α → Option ℕ
  | .pop (.exchange oldHead) => some oldHead.ptr
  | _ => none

/-- A node and what the call knows it is linked to. -/
def links : Call α → Option (ℕ × CountedNodePtr)
  | .push _ pc =>
    match pc with
    | .deleteNew _ p oldTail | .allocNew p oldTail => some (oldTail.ptr, p)
    | .setTail p _ current _ => some (current, p)
    | _ => none
  | .pop (.casHead oldHead p) => some (oldHead.ptr, p)
  | _ => none

/-- `set_new_tail` goes on only while these two are the same. -/
def loops : Call α → Option (ℕ × ℕ)
  | .push _ (.setTail _ oldTail current _) => some (oldTail.ptr, current)
  | _ => none

/-- The node that had a value when the call looked. -/
def filled : Call α → Option ℕ
  | .push _ pc =>
    match pc with
    | .loadNext _ oldTail | .casNext _ oldTail | .deleteNew _ _ oldTail => some oldTail.ptr
    | .helpNext _ oldTail | .allocNew _ oldTail => some oldTail.ptr
    | .setTail _ _ current _ => some current
    | _ => none
  | _ => none

/-- The node the push has put its value into, until `tail` has moved on. -/
def fills : Call α → Option ℕ
  | .push _ pc =>
    match pc with
    | .loadNext _ oldTail | .casNext _ oldTail | .deleteNew _ _ oldTail => some oldTail.ptr
    | .setTail _ _ current none => some current
    | _ => none
  | _ => none

/-- The node that was not last when the call looked. -/
def beyond : Call α → Option ℕ
  | .pop (.loadNext oldHead) | .pop (.casHead oldHead _) => some oldHead.ptr
  | _ => none

/-- The value a pop has taken out. -/
def hand (heap : ℕ → Option (Node α)) : Call α → Multiset α
  | .pop pc =>
    match pc with
    | .exchange oldHead => ((valueOf heap oldHead.ptr).toList : Multiset α)
    | .drop _ _ (.leave res) | .returned res => (res.toList : Multiset α)
    | _ => 0
  | _ => 0

def refs (n : ℕ) (c : Call α) : ℕ := if c.holds = some n then 1 else 0

def places (n : ℕ) (c : Call α) : ℕ := c.owns.count n

def pend (n : ℕ) (c : Call α) : ℤ := (c.frees.map fun p => part p n).getD 0

def pends (n : ℕ) (c : Call α) : ℕ := if c.frees.map CountedNodePtr.ptr = some n then 1 else 0

def taken (n : ℕ) (c : Call α) : ℕ := if c.takes = some n then 1 else 0

structure Knows (s : LockFreeQueue α) (l : List ℕ) (c : Call α) : Prop where
  sound : c.isUndefined = false
  news : ∀ n ∈ c.news, n ≠ 0 ∧ s.heap n = some Node.new
  links : ∀ n p, c.links = some (n, p) → nextOf s.heap n = p ∧ p.ptr ≠ 0
  loops : ∀ m n, c.loops = some (m, n) → m = n
  filled : ∀ n, c.filled = some n → n = s.tail.ptr → valueOf s.heap n ≠ none
  beyond : ∀ n, c.beyond = some n → n ≠ s.tail.ptr
  takes : ∀ n, c.takes = some n → n ∉ l ∧ valueOf s.heap n ≠ none

end Call

/-- The counts of a node to which `r` references are held, with `p` through `q`
pointers whose count is still to be added. -/
structure Balanced (s : LockFreeQueue α) (pre post : List ℕ) (n : ℕ) (x : Node α) (r : ℕ) (p : ℤ) (q : ℕ) : Prop where
  internal : x.count.internalCount + p + part s.tail n + part s.head n = r
  external : x.count.externalCounters = (s.tail.ptr :: post).count n + (chain s pre post).count n + q

structure Inv (s : LockFreeQueue α) (calls : List (Call α)) (pre post : List ℕ) : Prop where
  linked : Linked (fun n => (nextOf s.heap n).ptr) s.head.ptr (chain s pre post)
  ptrs : ∀ n, nextOf s.heap n = ⟨0, 0⟩ ∨ (nextOf s.heap n).externalCount = 1 ∧ (nextOf s.heap n).ptr ≠ 0
  place : ∀ n, (chain s pre post).count n + Calls.total (Call.places n) calls ≤ present s.heap n
  held : ∀ n, 0 < Calls.total (Call.refs n) calls → present s.heap n = 1 ∧ Calls.total (Call.places n) calls = 0
  counts : ∀ n x, s.heap n = some x → Calls.total (Call.places n) calls = 0 →
    Balanced s pre post n x (Calls.total (Call.refs n) calls) (Calls.total (Call.pend n) calls)
      (Calls.total (Call.pends n) calls)
  past : ∀ n x, s.heap n = some x → Calls.total (Call.places n) calls = 0 → n ∉ s.tail.ptr :: post → x.next.ptr ≠ 0
  full : ∀ n ∈ pre, valueOf s.heap n ≠ none
  fresh : ∀ n ∈ post, valueOf s.heap n = none ∧ Calls.total (Call.refs n) calls = 0
  short : post.length ≤ 1
  waits : post ≠ [] → valueOf s.heap s.tail.ptr ≠ none
  busy : valueOf s.heap s.tail.ptr ≠ none → ∃ c ∈ calls, c.fills = some s.tail.ptr
  taken : ∀ n, Calls.total (Call.taken n) calls ≤ 1
  knows : ∀ c ∈ calls, c.Knows s (chain s pre post)
  conserved : Calls.total Call.put calls = Calls.total (Call.hand s.heap) calls + values s.heap (chain s pre post)

variable {s s' : LockFreeQueue α} {calls : List (Call α)} {pre post pre' post' l l' : List ℕ} {c c' d : Call α}
  {i j n m : ℕ} {heap heap' : ℕ → Option (Node α)} {x : Node α} {p : CountedNodePtr}

/-! ## One node -/

theorem nextOf_congr (h : heap' n = heap n) : nextOf heap' n = nextOf heap n := by rw [nextOf, h]; rfl

theorem valueOf_congr (h : heap' n = heap n) : valueOf heap' n = valueOf heap n := by rw [valueOf, h]; rfl

theorem nextOf_some (h : heap n = some x) : nextOf heap n = x.next := by rw [nextOf, h]; rfl

theorem valueOf_some (h : heap n = some x) : valueOf heap n = x.data := by rw [valueOf, h]; rfl

theorem present_some (h : heap n = some x) : present heap n = 1 := by rw [present, h]; rfl

theorem present_none (h : heap n = none) : present heap n = 0 := by rw [present, h]; rfl

theorem present_le (heap : ℕ → Option (Node α)) (n : ℕ) : present heap n ≤ 1 := by
  unfold present
  split <;> omega

theorem exists_of_present (h : present heap n ≠ 0) : ∃ x, heap n = some x := by
  cases hx : heap n with
  | none => exact absurd (present_none hx) h
  | some x => exact ⟨x, rfl⟩

theorem values_congr (h : ∀ n ∈ l, valueOf heap' n = valueOf heap n) : values heap' l = values heap l := by
  unfold values
  rw [List.filterMap_congr h]

theorem part_self : part p p.ptr = p.externalCount - 1 := if_pos rfl

theorem part_ne (h : p.ptr ≠ n) : part p n = 0 := if_neg h

theorem part_count_self : part { p with externalCount := p.externalCount + 1 } p.ptr = part p p.ptr + 1 := by
  have hnew : part { p with externalCount := p.externalCount + 1 } p.ptr = p.externalCount + 1 - 1 := if_pos rfl
  rw [hnew, part_self]
  omega

theorem part_count_ne (h : p.ptr ≠ n) : part { p with externalCount := p.externalCount + 1 } n = part p n :=
  (if_neg h).trans (part_ne h).symm

theorem init_heap_ne (h : n ≠ 1) : (init : LockFreeQueue α).heap n = none := by
  simp [init, Function.update_of_ne h]

theorem inv_start : Inv (init : LockFreeQueue α) [] [] [] where
  linked := ⟨rfl, Nat.one_ne_zero, rfl⟩
  ptrs := fun n => by
    by_cases hn : n = 1
    · subst hn
      exact .inl rfl
    · refine .inl ?_
      rw [nextOf, init_heap_ne hn]
      rfl
  place := fun n => by
    by_cases hn : n = 1
    · subst hn
      rfl
    · simp [chain, init, Ne.symm hn]
  held := fun n hn => by simp at hn
  counts := fun n x hx _ => by
    by_cases hn : n = 1
    · subst hn
      cases hx
      exact ⟨rfl, rfl⟩
    · rw [init_heap_ne hn] at hx
      cases hx
  past := fun n x hx _ hnot => by
    by_cases hn : n = 1
    · subst hn
      exact absurd List.mem_cons_self hnot
    · rw [init_heap_ne hn] at hx
      cases hx
  full := fun n hn => (List.not_mem_nil hn).elim
  fresh := fun n hn => (List.not_mem_nil hn).elim
  short := Nat.zero_le _
  waits := fun h => absurd rfl h
  busy := fun h => absurd rfl h
  taken := fun n => Nat.zero_le _
  knows := fun c hc => (List.not_mem_nil hc).elim
  conserved := rfl

/-! ## One call -/

namespace Call

theorem refs_self (h : c.holds = some n) : c.refs n = 1 := if_pos h

theorem refs_ne (h : c.holds ≠ some n) : c.refs n = 0 := if_neg h

theorem places_pos (h : n ∈ c.owns) : 0 < c.places n := List.count_pos_iff.2 h

theorem news_owns (h : n ∈ c.news) : n ∈ c.owns := List.mem_append_right _ h

theorem links_held (h : c.links = some (n, p)) : c.holds = some n := by
  cases c with
  | push value pc => cases pc <;> first | (cases h; rfl) | cases h
  | pop pc => cases pc <;> first | (cases h; rfl) | cases h

theorem filled_held (h : c.filled = some n) : c.holds = some n := by
  cases c with
  | push value pc => cases pc <;> first | exact h | cases h
  | pop pc => cases h

theorem beyond_held (h : c.beyond = some n) : c.holds = some n := by
  cases c with
  | push value pc => cases h
  | pop pc => cases pc <;> first | exact h | cases h

theorem takes_held (h : c.takes = some n) : c.holds = some n := by
  cases c with
  | push value pc => cases h
  | pop pc => cases pc <;> first | exact h | cases h

/-- A pointer that is given up is one to a node the call holds. -/
theorem frees_held (h : c.frees = some p) : c.holds = some p.ptr := by
  cases c with
  | push value pc =>
    cases pc with
    | drop ptr dr oldTail after =>
      cases dr with
      | load ch =>
        cases ch with
        | releaseRef => cases h
        | freeExternal e =>
          cases h
          rfl
      | cas ch old =>
        cases ch with
        | releaseRef => cases h
        | freeExternal e =>
          cases h
          rfl
      | delete => cases h
    | _ => cases h
  | pop pc =>
    cases pc with
    | exchange oldHead =>
      cases h
      rfl
    | drop ptr dr after =>
      cases dr with
      | load ch =>
        cases ch with
        | releaseRef => cases h
        | freeExternal e =>
          cases h
          rfl
      | cas ch old =>
        cases ch with
        | releaseRef => cases h
        | freeExternal e =>
          cases h
          rfl
      | delete => cases h
    | _ => cases h

/-- The value in hand is read only before it is taken. -/
theorem hand_congr (h : ∀ n, c.takes = some n → valueOf heap' n = valueOf heap n) : c.hand heap' = c.hand heap := by
  cases c with
  | push value pc => rfl
  | pop pc =>
    cases pc with
    | exchange oldHead => rw [hand, hand, h oldHead.ptr rfl]
    | drop ptr dr after => cases after <;> rfl
    | _ => rfl

end Call

/-! ## Over a move -/

/-- A move from `c` to `c'` that concerns the nodes `ns`. The totals are those
after it. -/
structure Touch (s s' : LockFreeQueue α) (calls : List (Call α)) (i : ℕ) (c c' : Call α)
    (pre pre' post post' ns : List ℕ) : Prop where
  frame : ∀ n, n ∉ ns → s'.heap n = s.heap n ∧ part s'.tail n = part s.tail n ∧ part s'.head n = part s.head n
  chains : ∀ n, n ∉ ns → (s'.tail.ptr :: post').count n = (s.tail.ptr :: post).count n ∧
    (chain s' pre' post').count n = (chain s pre post).count n
  calm : ∀ n, n ∉ ns → c'.refs n = c.refs n ∧ c'.places n = c.places n ∧ c'.pend n = c.pend n ∧ c'.pends n = c.pends n
  mine : ∀ n ∈ ns, n ∈ c.owns ∨ s.heap n = none ∨ Calls.total (Call.places n) calls = 0
  linked : Linked (fun n => (nextOf s'.heap n).ptr) s'.head.ptr (chain s' pre' post')
  ptrs : ∀ n ∈ ns, nextOf s'.heap n = ⟨0, 0⟩ ∨ (nextOf s'.heap n).externalCount = 1 ∧ (nextOf s'.heap n).ptr ≠ 0
  place : ∀ n ∈ ns, (chain s' pre' post').count n + Calls.total (Call.places n) (calls.set i c') ≤ present s'.heap n
  held : ∀ n ∈ ns, 0 < Calls.total (Call.refs n) (calls.set i c') →
    present s'.heap n = 1 ∧ Calls.total (Call.places n) (calls.set i c') = 0
  counts : ∀ n ∈ ns, ∀ x, s'.heap n = some x → Calls.total (Call.places n) (calls.set i c') = 0 →
    Balanced s' pre' post' n x (Calls.total (Call.refs n) (calls.set i c')) (Calls.total (Call.pend n) (calls.set i c'))
      (Calls.total (Call.pends n) (calls.set i c'))
  past : ∀ n ∈ ns, ∀ x, s'.heap n = some x → Calls.total (Call.places n) (calls.set i c') = 0 →
    n ∉ s'.tail.ptr :: post' → x.next.ptr ≠ 0
  full : ∀ n ∈ pre', valueOf s'.heap n ≠ none
  fresh : ∀ n ∈ post', valueOf s'.heap n = none ∧ Calls.total (Call.refs n) (calls.set i c') = 0
  short : post'.length ≤ 1
  waits : post' ≠ [] → valueOf s'.heap s'.tail.ptr ≠ none
  busy : valueOf s'.heap s'.tail.ptr ≠ none → c'.fills = some s'.tail.ptr ∨
    c.fills ≠ some s.tail.ptr ∧ s'.tail.ptr = s.tail.ptr ∧ valueOf s.heap s.tail.ptr ≠ none
  taken : ∀ n, Calls.total (Call.taken n) (calls.set i c') ≤ 1
  knows : c'.Knows s' (chain s' pre' post')
  grows : ∀ n ∈ chain s' pre' post', n ∈ chain s pre post ∨ n ∈ c.owns
  links : ∀ n ∈ ns, ∀ j d, j ≠ i → calls[j]? = some d → d.holds = some n → (nextOf s.heap n).ptr ≠ 0 →
    nextOf s'.heap n = nextOf s.heap n
  taker : ∀ n ∈ ns, ∀ j d, j ≠ i → calls[j]? = some d → d.takes = some n → valueOf s'.heap n = valueOf s.heap n
  last : ∀ j d, j ≠ i → calls[j]? = some d → d.holds = some s'.tail.ptr →
    s'.tail.ptr = s.tail.ptr ∧ (valueOf s.heap s.tail.ptr ≠ none → valueOf s'.heap s'.tail.ptr ≠ none)
  values : c'.put + c.hand s.heap + values s.heap (chain s pre post) =
    c.put + c'.hand s'.heap + values s'.heap (chain s' pre' post')

/-- What one call owns no other does, nor is it in the chain. -/
theorem Inv.own (h : Inv s calls pre post) (hc : calls[i]? = some c) (hn : n ∈ c.owns) :
    (∃ x, s.heap n = some x) ∧ n ∉ chain s pre post ∧ Calls.total (Call.refs n) calls = 0 ∧
      ∀ j d, j ≠ i → calls[j]? = some d → n ∉ d.owns := by
  have hplace := h.place n
  have hle := present_le s.heap n
  have hone := Calls.le_total (f := Call.places n) hc
  have hpos := Call.places_pos hn
  refine ⟨exists_of_present (by omega), fun hmem => ?_, ?_, fun j d hji hd hdn => ?_⟩
  · have hcount := List.count_pos_iff.2 hmem
    omega
  · by_contra hne
    have := (h.held n (by omega)).2
    omega
  · have htwo := Calls.add_le_total (f := Call.places n) hc hd hji.symm
    have hpos' := Call.places_pos hdn
    omega

/-- A node to which a reference is held is there, and no call's own. -/
theorem Inv.shared (h : Inv s calls pre post) (hc : calls[i]? = some c) (hn : c.holds = some n) :
    (∃ x, s.heap n = some x) ∧ Calls.total (Call.places n) calls = 0 ∧ 0 < Calls.total (Call.refs n) calls := by
  have hone := Calls.le_total (f := Call.refs n) hc
  rw [Call.refs_self hn] at hone
  obtain ⟨hpresent, hplace⟩ := h.held n (by omega)
  exact ⟨exists_of_present (by omega), hplace, by omega⟩

theorem Inv.chained (h : Inv s calls pre post) (hn : n ∈ chain s pre post) :
    (∃ x, s.heap n = some x) ∧ Calls.total (Call.places n) calls = 0 := by
  have hplace := h.place n
  have hle := present_le s.heap n
  have hcount := List.count_pos_iff.2 hn
  exact ⟨exists_of_present (by omega), by omega⟩

/-- What the others know stays true. -/
theorem Touch.others {ns : List ℕ} (t : Touch s s' calls i c c' pre pre' post post' ns) (h : Inv s calls pre post)
    (hc : calls[i]? = some c) (hji : j ≠ i) (hd : calls[j]? = some d) : d.Knows s' (chain s' pre' post') := by
  have hk := h.knows d (List.mem_of_getElem? hd)
  refine ⟨hk.sound, fun n hn => ⟨(hk.news n hn).1, ?_⟩, fun n p hn => ?_, hk.loops, fun n hn he => ?_,
    fun n hn he => ?_, fun n hn => ⟨fun hmem => ?_, ?_⟩⟩
  · have hnot : n ∉ ns := by
      intro hns
      obtain ⟨⟨x, hx⟩, -, -, hother⟩ := h.own hd (Call.news_owns hn)
      rcases t.mine n hns with hown | hnone | hzero
      · exact hother i c hji.symm hc hown
      · rw [hnone] at hx
        cases hx
      · have hone := Calls.le_total (f := Call.places n) hd
        have hpos := Call.places_pos (Call.news_owns hn)
        omega
    rw [(t.frame n hnot).1]
    exact (hk.news n hn).2
  · obtain ⟨hnext, hne⟩ := hk.links n p hn
    refine ⟨?_, hne⟩
    by_cases hns : n ∈ ns
    · rw [t.links n hns j d hji hd (Call.links_held hn) (by rw [hnext]; exact hne), hnext]
    · rw [nextOf_congr (t.frame n hns).1, hnext]
  · have hheld : d.holds = some s'.tail.ptr := by rw [← he]; exact Call.filled_held hn
    obtain ⟨hsame, hkeep⟩ := t.last j d hji hd hheld
    have hold := hk.filled n hn (he.trans hsame)
    rw [he]
    exact hkeep (by rw [← hsame, ← he]; exact hold)
  · have hheld : d.holds = some s'.tail.ptr := by rw [← he]; exact Call.beyond_held hn
    exact hk.beyond n hn (he.trans (t.last j d hji hd hheld).1)
  · rcases t.grows n hmem with hold | hown
    · exact (hk.takes n hn).1 hold
    · have hpos := (h.shared hd (Call.takes_held hn)).2.2
      have hzero := (h.own hc hown).2.2.1
      omega
  · by_cases hns : n ∈ ns
    · rw [t.taker n hns j d hji hd hn]
      exact (hk.takes n hn).2
    · rw [valueOf_congr (t.frame n hns).1]
      exact (hk.takes n hn).2

theorem Inv.touch (h : Inv s calls pre post) (hc : calls[i]? = some c) (ns : List ℕ)
    (t : Touch s s' calls i c c' pre pre' post post' ns) : Inv s' (calls.set i c') pre' post' := by
  obtain ⟨hlt, -⟩ := List.getElem?_eq_some_iff.1 hc
  have hself : (calls.set i c')[i]? = some c' := List.getElem?_set_self hlt
  have hplaces : ∀ n, n ∉ ns → Calls.total (Call.places n) (calls.set i c') = Calls.total (Call.places n) calls :=
    fun n hn => Calls.total_set_same hc (t.calm n hn).2.1
  have hrefs : ∀ n, n ∉ ns → Calls.total (Call.refs n) (calls.set i c') = Calls.total (Call.refs n) calls :=
    fun n hn => Calls.total_set_same hc (t.calm n hn).1
  have hpresent : ∀ n, n ∉ ns → present s'.heap n = present s.heap n :=
    fun n hn => by rw [present, (t.frame n hn).1]; rfl
  refine ⟨t.linked, fun n => ?_, fun n => ?_, fun n hn => ?_, fun n x hx hzero => ?_, fun n x hx hzero hnot => ?_,
    t.full, t.fresh, t.short, t.waits, fun hvalue => ?_, t.taken, fun d hd => ?_, ?_⟩
  · by_cases hns : n ∈ ns
    · exact t.ptrs n hns
    · rw [nextOf_congr (t.frame n hns).1]
      exact h.ptrs n
  · by_cases hns : n ∈ ns
    · exact t.place n hns
    · rw [(t.chains n hns).2, hplaces n hns, hpresent n hns]
      exact h.place n
  · by_cases hns : n ∈ ns
    · exact t.held n hns hn
    · rw [hrefs n hns] at hn
      rw [hpresent n hns, hplaces n hns]
      exact h.held n hn
  · by_cases hns : n ∈ ns
    · exact t.counts n hns x hx hzero
    · obtain ⟨hheap, htail, hhead⟩ := t.frame n hns
      obtain ⟨htails, hchain⟩ := t.chains n hns
      obtain ⟨-, -, hpend, hpends⟩ := t.calm n hns
      rw [hheap] at hx
      rw [hplaces n hns] at hzero
      obtain ⟨hint, hext⟩ := h.counts n x hx hzero
      rw [hrefs n hns, Calls.total_set_same hc hpend, Calls.total_set_same hc hpends]
      exact ⟨by rw [htail, hhead]; exact hint, by rw [htails, hchain]; exact hext⟩
  · by_cases hns : n ∈ ns
    · exact t.past n hns x hx hzero hnot
    · rw [(t.frame n hns).1] at hx
      rw [hplaces n hns] at hzero
      refine h.past n x hx hzero fun hmem => hnot ?_
      rw [← List.count_pos_iff, (t.chains n hns).1, List.count_pos_iff]
      exact hmem
  · rcases t.busy hvalue with hmine | ⟨hnot, hsame, hold⟩
    · exact ⟨c', List.mem_of_getElem? hself, hmine⟩
    · obtain ⟨d, hd, hfills⟩ := h.busy hold
      obtain ⟨j, hj⟩ := List.mem_iff_getElem?.1 hd
      have hji : j ≠ i := by
        rintro rfl
        rw [hc] at hj
        cases hj
        exact hnot hfills
      refine ⟨d, List.mem_of_getElem? (by rw [List.getElem?_set_ne hji.symm, hj]), ?_⟩
      rw [hsame]
      exact hfills
  · rcases Calls.mem_set hd with rfl | ⟨j, hji, hj⟩
    · exact t.knows
    · exact t.others h hc hji hj
  · refine Calls.conserved_move h.conserved (Calls.total_set hc)
      (Calls.total_set_congr hc fun j d hji hd => ?_) t.values
    refine Call.hand_congr fun n hn => ?_
    by_cases hns : n ∈ ns
    · exact t.taker n hns j d hji hd hn
    · exact valueOf_congr (t.frame n hns).1

/-- A call that has nothing yet. -/
theorem Inv.enter (h : Inv s calls pre post) (hholds : c.holds = none) (howns : c.owns = []) (hfrees : c.frees = none)
    (htakes : c.takes = none) (hknows : c.Knows s (chain s pre post)) (hput : c.put = 0) (hhand : c.hand s.heap = 0) :
    Inv s (calls ++ [c]) pre post := by
  have hrefs : ∀ n, Calls.total (Call.refs n) (calls ++ [c]) = Calls.total (Call.refs n) calls := by
    intro n
    rw [Calls.total_concat, Call.refs, hholds]
    rfl
  have hplaces : ∀ n, Calls.total (Call.places n) (calls ++ [c]) = Calls.total (Call.places n) calls := by
    intro n
    rw [Calls.total_concat, Call.places, howns]
    rfl
  refine ⟨h.linked, h.ptrs, fun n => ?_, fun n hn => ?_, fun n x hx hzero => ?_, fun n x hx hzero hnot => ?_, h.full,
    fun n hn => ⟨(h.fresh n hn).1, ?_⟩, h.short, h.waits, fun hvalue => ?_, fun n => ?_, fun d hd => ?_, ?_⟩
  · rw [hplaces]
    exact h.place n
  · rw [hrefs] at hn
    rw [hplaces]
    exact h.held n hn
  · rw [hplaces] at hzero
    rw [hrefs, Calls.total_concat, Calls.total_concat, Call.pend, Call.pends, hfrees]
    simpa using h.counts n x hx hzero
  · rw [hplaces] at hzero
    exact h.past n x hx hzero hnot
  · rw [hrefs]
    exact (h.fresh n hn).2
  · obtain ⟨d, hd, hfills⟩ := h.busy hvalue
    exact ⟨d, List.mem_append_left _ hd, hfills⟩
  · rw [Calls.total_concat, Call.taken, htakes]
    exact h.taken n
  · rcases List.mem_append.1 hd with hd | hd
    · exact h.knows d hd
    · rw [List.mem_singleton.1 hd]
      exact hknows
  · rw [Calls.total_concat, Calls.total_concat, h.conserved, hput, hhand, add_zero, add_zero]

end Learncc.LockFreeQueue
