/-
The kinds of moves on a `lock_free_queue`: a reference is taken or given back, a
value put in or taken out, a node linked, `tail` or `head` moved on, a node made
or deleted. Each keeps the invariant of the counts.
-/
import Learncc.Public.LockFreeCounts

namespace Learncc.LockFreeQueue

variable {α : Type} {s s' : LockFreeQueue α} {calls : List (Call α)} {pre post pre' post' l : List ℕ}
  {c c' d : Call α} {i j n m : ℕ} {x y : Node α} {p : CountedNodePtr} {value : α}

@[simp] theorem write_heap_self : (s.write n x).heap n = some x := Function.update_self ..

theorem write_heap_ne (h : m ≠ n) : (s.write n x).heap m = s.heap m := Function.update_of_ne h _ _

@[simp] theorem free_heap_self : (s.free n).heap n = none := Function.update_self ..

theorem free_heap_ne (h : m ≠ n) : (s.free n).heap m = s.heap m := Function.update_of_ne h _ _

/-! ## The chain as it is -/

/-- A move that leaves the chain, its links and its values as they are. -/
theorem Inv.settle (h : Inv s calls pre post) (hc : calls[i]? = some c) (ns : List ℕ) (htail : s'.tail = s.tail)
    (hhead : s'.head = s.head) (hframe : ∀ n, n ∉ ns → s'.heap n = s.heap n)
    (hcalm : ∀ n, n ∉ ns → c'.refs n = c.refs n ∧ c'.places n = c.places n ∧ c'.pend n = c.pend n ∧
      c'.pends n = c.pends n)
    (hmine : ∀ n ∈ ns, n ∈ c.owns ∨ s.heap n = none ∨ Calls.total (Call.places n) calls = 0)
    (hkeep : ∀ n ∈ ns, Calls.total (Call.places n) calls = 0 → s.heap n ≠ none →
      nextOf s'.heap n = nextOf s.heap n ∧ valueOf s'.heap n = valueOf s.heap n)
    (hptrs : ∀ n ∈ ns, nextOf s'.heap n = ⟨0, 0⟩ ∨ (nextOf s'.heap n).externalCount = 1 ∧ (nextOf s'.heap n).ptr ≠ 0)
    (hplace : ∀ n ∈ ns, (chain s pre post).count n + Calls.total (Call.places n) (calls.set i c') ≤ present s'.heap n)
    (hheld : ∀ n ∈ ns, 0 < Calls.total (Call.refs n) (calls.set i c') →
      present s'.heap n = 1 ∧ Calls.total (Call.places n) (calls.set i c') = 0)
    (hcounts : ∀ n ∈ ns, ∀ x, s'.heap n = some x → Calls.total (Call.places n) (calls.set i c') = 0 →
      Balanced s pre post n x (Calls.total (Call.refs n) (calls.set i c')) (Calls.total (Call.pend n) (calls.set i c'))
        (Calls.total (Call.pends n) (calls.set i c')))
    (hpast : ∀ n ∈ ns, ∀ x, s'.heap n = some x → Calls.total (Call.places n) (calls.set i c') = 0 →
      n ∉ s.tail.ptr :: post → x.next.ptr ≠ 0)
    (hrefs : ∀ n, c'.refs n ≤ c.refs n) (hfills : c'.fills = c.fills ∨ c.fills ≠ some s.tail.ptr)
    (htakes : ∀ n, c'.taken n ≤ c.taken n) (hknows : c'.Knows s' (chain s pre post))
    (hvalues : c'.put + c.hand s.heap = c.put + c'.hand s'.heap) : Inv s' (calls.set i c') pre post := by
  have hchain : ∀ pre post, chain s' pre post = chain s pre post := fun pre post => by rw [chain, chain, htail]
  -- What is no call's own keeps what it says.
  have hshared : ∀ n, Calls.total (Call.places n) calls = 0 → s.heap n ≠ none →
      nextOf s'.heap n = nextOf s.heap n ∧ valueOf s'.heap n = valueOf s.heap n := by
    intro n hzero hn
    by_cases hns : n ∈ ns
    · exact hkeep n hns hzero hn
    · exact ⟨nextOf_congr (hframe n hns), valueOf_congr (hframe n hns)⟩
  have hmem : ∀ n ∈ chain s pre post, nextOf s'.heap n = nextOf s.heap n ∧ valueOf s'.heap n = valueOf s.heap n := by
    intro n hn
    obtain ⟨⟨x, hx⟩, hzero⟩ := h.chained hn
    exact hshared n hzero (by rw [hx]; simp)
  have htailmem : s.tail.ptr ∈ chain s pre post := by simp [chain]
  have htailvalue : valueOf s'.heap s'.tail.ptr = valueOf s.heap s.tail.ptr := by
    rw [htail]
    exact (hmem _ htailmem).2
  have hholders : ∀ (n j : ℕ) (d : Call α), calls[j]? = some d → d.holds = some n →
      nextOf s'.heap n = nextOf s.heap n ∧ valueOf s'.heap n = valueOf s.heap n := by
    intro n j d hd hn
    obtain ⟨⟨x, hx⟩, hzero, -⟩ := h.shared hd hn
    exact hshared n hzero (by rw [hx]; simp)
  refine h.touch hc ns
    { frame := fun n hn => ⟨hframe n hn, by rw [htail], by rw [hhead]⟩
      chains := fun n _ => ⟨by rw [htail], by rw [hchain]⟩
      calm := hcalm
      mine := hmine
      linked := ?_
      ptrs := hptrs
      place := fun n hn => by rw [hchain]; exact hplace n hn
      held := hheld
      counts := fun n hn x hx hzero => ?_
      past := fun n hn x hx hzero hnot => hpast n hn x hx hzero (by rw [← htail]; exact hnot)
      full := fun n hn => ?_
      fresh := fun n hn => ?_
      short := h.short
      waits := fun hne => by rw [htailvalue]; exact h.waits hne
      busy := fun hvalue => ?_
      taken := fun n => ?_
      knows := by rw [hchain]; exact hknows
      grows := fun n hn => .inl (by rw [← hchain]; exact hn)
      links := fun n _ j d _ hd hn _ => (hholders n j d hd hn).1
      taker := fun n _ j d _ hd hn => (hholders n j d hd (Call.takes_held hn)).2
      last := fun j d _ _ _ => ⟨by rw [htail], fun hvalue => by rw [htailvalue]; exact hvalue⟩
      values := ?_ }
  · rw [hchain, hhead]
    refine h.linked.congr fun n hn => ?_
    rw [(hmem n hn).1]
  · obtain ⟨hint, hext⟩ := hcounts n hn x hx hzero
    exact ⟨by rw [htail, hhead]; exact hint, by rw [htail, hchain]; exact hext⟩
  · rw [(hmem n (by simp [chain, hn])).2]
    exact h.full n hn
  · obtain ⟨hnone, hzero⟩ := h.fresh n hn
    refine ⟨(hmem n (by simp [chain, hn])).2.trans hnone, ?_⟩
    have hset : Calls.total (Call.refs n) (calls.set i c') + _ = _ := Calls.total_set hc
    have hle := hrefs n
    have hmine := Calls.le_total (f := Call.refs n) hc
    omega
  · rw [htailvalue] at hvalue
    by_cases hf : c.fills = some s.tail.ptr
    · rcases hfills with he | hne
      · exact .inl (by rw [he, htail]; exact hf)
      · exact absurd hf hne
    · exact .inr ⟨hf, by rw [htail], hvalue⟩
  · have hset : Calls.total (Call.taken n) (calls.set i c') + _ = _ := Calls.total_set hc
    have hle := htakes n
    have hold := h.taken n
    omega
  · rw [hchain, values_congr fun n hn => (hmem n hn).2, hvalues]

/-- Nothing moves but the call. -/
theorem Inv.quiet (h : Inv s calls pre post) (hc : calls[i]? = some c) (hholds : c'.holds = c.holds)
    (howns : c'.owns = c.owns) (hfrees : c'.frees = c.frees) (htakes : c'.takes = c.takes)
    (hfills : c'.fills = c.fills ∨ c.fills ≠ some s.tail.ptr) (hknows : c'.Knows s (chain s pre post))
    (hput : c'.put = c.put) (hhand : c'.hand s.heap = c.hand s.heap) : Inv s (calls.set i c') pre post := by
  have hrefs : ∀ n, c'.refs n = c.refs n := fun n => by rw [Call.refs, Call.refs, hholds]
  refine h.settle hc [] rfl rfl (fun _ _ => rfl) (fun n _ => ⟨hrefs n, ?_, ?_, ?_⟩)
    (fun n hn => (List.not_mem_nil hn).elim) (fun n hn => (List.not_mem_nil hn).elim)
    (fun n hn => (List.not_mem_nil hn).elim) (fun n hn => (List.not_mem_nil hn).elim)
    (fun n hn => (List.not_mem_nil hn).elim) (fun n hn => (List.not_mem_nil hn).elim)
    (fun n hn => (List.not_mem_nil hn).elim) (fun n => (hrefs n).le) hfills (fun n => ?_) hknows ?_
  · rw [Call.places, Call.places, howns]
  · rw [Call.pend, Call.pend, hfrees]
  · rw [Call.pends, Call.pends, hfrees]
  · rw [Call.taken, Call.taken, htakes]
  · rw [hput, hhand]

/-- A call gets a new node. -/
theorem Inv.allocate (h : Inv s calls pre post) (hc : calls[i]? = some c) (hfree : s.heap n = none)
    (hholds : c'.holds = c.holds) (howns : c'.owns = n :: c.owns) (hfrees : c'.frees = c.frees)
    (htakes : c'.takes = c.takes) (hfills : c'.fills = c.fills ∨ c.fills ≠ some s.tail.ptr)
    (hknows : c'.Knows (s.write n Node.new) (chain s pre post)) (hput : c'.put = c.put)
    (hhand : c'.hand (s.write n Node.new).heap = c.hand s.heap) :
    Inv (s.write n Node.new) (calls.set i c') pre post := by
  have hrefs : ∀ m, c'.refs m = c.refs m := fun m => by rw [Call.refs, Call.refs, hholds]
  have hplace := h.place n
  rw [present_none hfree] at hplace
  have hset : Calls.total (Call.places n) (calls.set i c') + _ = _ := Calls.total_set hc
  have hplaces : c'.places n = c.places n + 1 := by rw [Call.places, Call.places, howns, List.count_cons_self]
  have hone : Calls.total (Call.places n) (calls.set i c') = 1 := by omega
  refine h.settle hc [n] rfl rfl (fun m hm => write_heap_ne (by simpa using hm))
    (fun m hm => ⟨hrefs m, ?_, ?_, ?_⟩) (fun m hm => ?_) (fun m hm _ hne => ?_) (fun m hm => ?_) (fun m hm => ?_)
    (fun m hm hpos => ?_) (fun m hm x hx hzero => ?_) (fun m hm x hx hzero _ => ?_) (fun m => (hrefs m).le) hfills
    (fun m => ?_) hknows ?_
  · rw [Call.places, Call.places, howns, List.count_cons_of_ne]
    exact fun he => hm (by rw [he]; exact List.mem_cons_self)
  · rw [Call.pend, Call.pend, hfrees]
  · rw [Call.pends, Call.pends, hfrees]
  · rw [List.mem_singleton.1 hm]
    exact .inr (.inl hfree)
  · rw [List.mem_singleton.1 hm] at hne
    exact absurd hfree hne
  · rw [List.mem_singleton.1 hm, nextOf_some write_heap_self]
    exact .inl rfl
  · rw [List.mem_singleton.1 hm, present_some write_heap_self]
    omega
  · rw [List.mem_singleton.1 hm, Calls.total_set_same hc (hrefs n)] at hpos
    have := (h.held n hpos).1
    rw [present_none hfree] at this
    cases this
  · rw [List.mem_singleton.1 hm] at hzero
    omega
  · rw [List.mem_singleton.1 hm] at hzero
    omega
  · rw [Call.taken, Call.taken, htakes]
  · rw [hput, hhand]

/-- The mover deletes a node of its own. -/
theorem Inv.discard (h : Inv s calls pre post) (hc : calls[i]? = some c) (hholds : c'.holds = c.holds)
    (howns : c.owns = n :: c'.owns) (hfrees : c'.frees = c.frees) (htakes : c'.takes = c.takes)
    (hfills : c'.fills = c.fills ∨ c.fills ≠ some s.tail.ptr) (hknows : c'.Knows (s.free n) (chain s pre post))
    (hput : c'.put = c.put) (hhand : c'.hand (s.free n).heap = c.hand s.heap) :
    Inv (s.free n) (calls.set i c') pre post := by
  have hrefs : ∀ m, c'.refs m = c.refs m := fun m => by rw [Call.refs, Call.refs, hholds]
  have hown : n ∈ c.owns := by rw [howns]; exact List.mem_cons_self
  obtain ⟨⟨x, hx⟩, hnot, hzero, -⟩ := h.own hc hown
  have hplace := h.place n
  rw [present_some hx] at hplace
  have hone := Calls.le_total (f := Call.places n) hc
  have hset : Calls.total (Call.places n) (calls.set i c') + _ = _ := Calls.total_set hc
  have hplaces : c.places n = c'.places n + 1 := by rw [Call.places, Call.places, howns, List.count_cons_self]
  have hcount : (chain s pre post).count n = 0 := List.count_eq_zero.2 hnot
  refine h.settle hc [n] rfl rfl (fun m hm => free_heap_ne (by simpa using hm))
    (fun m hm => ⟨hrefs m, ?_, ?_, ?_⟩) (fun m hm => ?_) (fun m hm hz _ => ?_) (fun m hm => ?_) (fun m hm => ?_)
    (fun m hm hpos => ?_) (fun m hm x hx _ => ?_) (fun m hm x hx _ _ => ?_) (fun m => (hrefs m).le) hfills
    (fun m => ?_) hknows ?_
  · rw [Call.places, Call.places, howns, List.count_cons_of_ne]
    exact fun he => hm (by rw [he]; exact List.mem_cons_self)
  · rw [Call.pend, Call.pend, hfrees]
  · rw [Call.pends, Call.pends, hfrees]
  · rw [List.mem_singleton.1 hm]
    exact .inl hown
  · rw [List.mem_singleton.1 hm] at hz
    omega
  · rw [List.mem_singleton.1 hm, nextOf, free_heap_self]
    exact .inl rfl
  · rw [List.mem_singleton.1 hm, present_none free_heap_self]
    omega
  · rw [List.mem_singleton.1 hm, Calls.total_set_same hc (hrefs n)] at hpos
    omega
  · rw [List.mem_singleton.1 hm, free_heap_self] at hx
    cases hx
  · rw [List.mem_singleton.1 hm, free_heap_self] at hx
    cases hx
  · rw [Call.taken, Call.taken, htakes]
  · rw [hput, hhand]

/-! ## References -/

theorem Inv.head_mem (h : Inv s calls pre post) : s.head.ptr ∈ chain s pre post := by
  have hlinked := h.linked
  cases hl : chain s pre post with
  | nil => simp [chain] at hl
  | cons a l =>
    rw [hl] at hlinked
    rw [hlinked.1]
    exact List.mem_cons_self

theorem tail_mem : s.tail.ptr ∈ chain s pre post := by simp [chain]

/-- Without a pointer whose count is still to be added there is none to add. -/
theorem pend_of_pends (hzero : Calls.total (Call.pends n) calls = 0) : Calls.total (Call.pend n) calls = 0 := by
  refine Calls.total_eq_zero fun c hc => ?_
  have hnone := Calls.total_eq_zero_iff.1 hzero c hc
  cases hf : c.frees with
  | none => rw [Call.pend, hf]; rfl
  | some p =>
    rw [Call.pends, hf] at hnone
    rw [Call.pend, hf]
    refine part_ne fun he => ?_
    rw [← he] at hnone
    simp at hnone

/-- With both counts of a node 0 it is not in the chain, and nobody holds a
reference to it. -/
theorem Balanced.done {r : ℕ} {p : ℤ} {q : ℕ} (hb : Balanced s pre post n x r p q) (hzero : x.count = ⟨0, 0⟩)
    (hpend : q = 0 → p = 0) (hhead : s.head.ptr ∈ chain s pre post) : n ∉ chain s pre post ∧ r = 0 := by
  obtain ⟨hint, hext⟩ := hb
  rw [hzero] at hint hext
  have hcount : (chain s pre post).count n = 0 := by
    have : (0 : ℤ) = ((s.tail.ptr :: post).count n : ℤ) + ((chain s pre post).count n : ℤ) + (q : ℤ) := hext
    omega
  have hnot : n ∉ chain s pre post := List.count_eq_zero.1 hcount
  have hq : q = 0 := by
    have : (0 : ℤ) = ((s.tail.ptr :: post).count n : ℤ) + ((chain s pre post).count n : ℤ) + (q : ℤ) := hext
    omega
  rw [hpend hq, part_ne fun he => hnot (by rw [← he]; exact tail_mem),
    part_ne fun he => hnot (by rw [← he]; exact hhead)] at hint
  refine ⟨hnot, ?_⟩
  have : (0 : ℤ) = (r : ℤ) := by simpa using hint
  omega

/-- The mover gives its reference back, and the pointer it has taken, if it has. -/
theorem Inv.recount (h : Inv s calls pre post) (hc : calls[i]? = some c) (hx : s.heap n = some x) (ch : Change)
    (hholds : c.holds = some n) (hholds' : c'.holds = none)
    (hfrees : c.frees = match ch with
      | .releaseRef => none
      | .freeExternal e => some ⟨e, n⟩)
    (hfrees' : c'.frees = none) (howns : c'.owns = (if ch.apply x.count = ⟨0, 0⟩ then [n] else []) ++ c.owns)
    (htakes : c'.takes = none) (hfills : c'.fills = c.fills ∨ c.fills ≠ some s.tail.ptr)
    (hknows : c'.Knows (s.write n { x with count := ch.apply x.count }) (chain s pre post)) (hput : c'.put = c.put)
    (hhand : c'.hand (s.write n { x with count := ch.apply x.count }).heap = c.hand s.heap) :
    Inv (s.write n { x with count := ch.apply x.count }) (calls.set i c') pre post := by
  obtain ⟨-, hplace, -⟩ := h.shared hc hholds
  have hplaces : Calls.total (Call.places n) (calls.set i c') + _ = _ := Calls.total_set hc
  have hmine := Calls.le_total (f := Call.places n) hc
  have hrefs : Calls.total (Call.refs n) (calls.set i c') + _ = _ := Calls.total_set hc
  rw [Call.refs_self hholds, Call.refs_ne (n := n) (by rw [hholds']; simp)] at hrefs
  have hpend : Calls.total (Call.pend n) (calls.set i c') + _ = _ := Calls.total_set hc
  have hpends : Calls.total (Call.pends n) (calls.set i c') + _ = _ := Calls.total_set hc
  have hnew : c'.pend n = 0 := by rw [Call.pend, hfrees']; rfl
  have hnews : c'.pends n = 0 := by rw [Call.pends, hfrees']; rfl
  have hbalanced : Balanced s pre post n { x with count := ch.apply x.count }
      (Calls.total (Call.refs n) (calls.set i c')) (Calls.total (Call.pend n) (calls.set i c'))
      (Calls.total (Call.pends n) (calls.set i c')) := by
    obtain ⟨hint, hext⟩ := h.counts n x hx hplace
    cases ch with
    | releaseRef =>
      have hp : c.pend n = 0 := by rw [Call.pend, hfrees]; rfl
      have hps : c.pends n = 0 := by rw [Call.pends, hfrees]; rfl
      rw [hnew, hp] at hpend
      rw [hnews, hps] at hpends
      exact ⟨by dsimp only [Change.apply]; omega, by dsimp only [Change.apply]; omega⟩
    | freeExternal e =>
      have hp : c.pend n = e - 1 := by rw [Call.pend, hfrees]; exact if_pos rfl
      have hps : c.pends n = 1 := by rw [Call.pends, hfrees]; exact if_pos rfl
      rw [hnew, hp] at hpend
      rw [hnews, hps] at hpends
      exact ⟨by dsimp only [Change.apply]; omega, by dsimp only [Change.apply]; omega⟩
  have hother : ∀ m, m ≠ n → c.holds ≠ some m := by
    intro m hm he
    rw [hholds] at he
    exact hm (Option.some.inj he).symm
  have hvalue : nextOf (s.write n { x with count := ch.apply x.count }).heap n = nextOf s.heap n ∧
      valueOf (s.write n { x with count := ch.apply x.count }).heap n = valueOf s.heap n := by
    rw [nextOf_some write_heap_self, valueOf_some write_heap_self, nextOf_some hx, valueOf_some hx]
    exact ⟨rfl, rfl⟩
  refine h.settle hc [n] rfl rfl (fun m hm => write_heap_ne (by simpa using hm)) (fun m hm => ?_) (fun m hm => ?_)
    (fun m hm _ _ => ?_) (fun m hm => ?_) (fun m hm => ?_) (fun m hm hpos => ?_) (fun m hm y hy hzero => ?_)
    (fun m hm y hy hzero hnot => ?_) (fun m => ?_) hfills (fun m => ?_) hknows ?_
  · have hmn : m ≠ n := by simpa using hm
    refine ⟨?_, ?_, ?_, ?_⟩
    · rw [Call.refs_ne (hother m hmn), Call.refs_ne (by rw [hholds']; simp)]
    · rw [Call.places, Call.places, howns]
      split
      · exact List.count_cons_of_ne (Ne.symm hmn)
      · rfl
    · rw [Call.pend, Call.pend, hfrees', hfrees]
      cases ch with
      | releaseRef => rfl
      | freeExternal e => exact (part_ne (Ne.symm hmn)).symm
    · rw [Call.pends, Call.pends, hfrees', hfrees]
      cases ch with
      | releaseRef => rfl
      | freeExternal e => exact (if_neg fun he => hmn (Option.some.inj he).symm).symm
  · rw [List.mem_singleton.1 hm]
    exact .inr (.inr hplace)
  · rw [List.mem_singleton.1 hm]
    exact hvalue
  · rw [List.mem_singleton.1 hm, hvalue.1]
    exact h.ptrs n
  · rw [List.mem_singleton.1 hm, present_some write_heap_self]
    have hold := h.place n
    rw [present_some hx] at hold
    split at howns
    · rename_i hzero
      have hnot := (hbalanced.done hzero pend_of_pends h.head_mem).1
      have hone : c'.places n = c.places n + 1 := by
        rw [Call.places, Call.places, howns]
        exact List.count_cons_self
      rw [List.count_eq_zero.2 hnot]
      omega
    · have hsame : c'.places n = c.places n := by rw [Call.places, Call.places, howns]; rfl
      omega
  · rw [List.mem_singleton.1 hm] at hpos ⊢
    refine ⟨present_some write_heap_self, ?_⟩
    split at howns
    · rename_i hzero
      have hnone := (hbalanced.done hzero pend_of_pends h.head_mem).2
      omega
    · have hsame : c'.places n = c.places n := by rw [Call.places, Call.places, howns]; rfl
      omega
  · rw [List.mem_singleton.1 hm] at hy ⊢
    rw [write_heap_self] at hy
    cases hy
    exact hbalanced
  · rw [List.mem_singleton.1 hm] at hy hnot
    rw [write_heap_self] at hy
    cases hy
    exact h.past n x hx hplace hnot
  · rw [Call.refs, hholds']
    exact Nat.zero_le _
  · rw [Call.taken, htakes]
    exact Nat.zero_le _
  · rw [hput, hhand]

/-- The mover takes a reference through the pointer to a node of the chain. -/
theorem Inv.count_in (h : Inv s calls pre post) (hc : calls[i]? = some c) (hn : n ∈ pre ∨ n = s.tail.ptr)
    (hheap : s'.heap = s.heap) (htail : s'.tail.ptr = s.tail.ptr) (hhead : s'.head.ptr = s.head.ptr)
    (hparts : part s'.tail n + part s'.head n = part s.tail n + part s.head n + 1)
    (hothers : ∀ m, m ≠ n → part s'.tail m = part s.tail m ∧ part s'.head m = part s.head m) (hholds : c.holds = none)
    (hholds' : c'.holds = some n) (howns : c'.owns = c.owns) (hfrees : c'.frees = c.frees) (htakes : c'.takes = c.takes)
    (hfills : c'.fills = c.fills ∨ c.fills ≠ some s.tail.ptr) (hknows : c'.Knows s' (chain s pre post))
    (hput : c'.put = c.put) (hhand : c'.hand s.heap = c.hand s.heap) : Inv s' (calls.set i c') pre post := by
  have hchain : ∀ pre post, chain s' pre post = chain s pre post := fun pre post => by rw [chain, chain, htail]
  have hmem : n ∈ chain s pre post := by
    rcases hn with hn | rfl
    · simp [chain, hn]
    · exact tail_mem
  obtain ⟨⟨x, hx⟩, hplace⟩ := h.chained hmem
  have hplaces : ∀ m, Calls.total (Call.places m) (calls.set i c') = Calls.total (Call.places m) calls :=
    fun m => Calls.total_set_same hc (by rw [Call.places, Call.places, howns])
  have hpend : ∀ m, c'.pend m = c.pend m := fun m => by rw [Call.pend, Call.pend, hfrees]
  have hpends : ∀ m, c'.pends m = c.pends m := fun m => by rw [Call.pends, Call.pends, hfrees]
  have hrefs : ∀ m, m ≠ n → c'.refs m = c.refs m := by
    intro m hm
    rw [Call.refs_ne (by rw [hholds']; exact fun he => hm (Option.some.inj he).symm),
      Call.refs_ne (by rw [hholds]; simp)]
  have hset : Calls.total (Call.refs n) (calls.set i c') + _ = _ := Calls.total_set hc
  rw [Call.refs_self hholds', Call.refs_ne (n := n) (by rw [hholds]; simp)] at hset
  have hpost : n ∉ post := by
    intro hmem'
    have hcount := h.linked.nodup
    rw [chain, List.nodup_append] at hcount
    obtain ⟨-, hnodup, hdisjoint⟩ := hcount
    rcases hn with hn | rfl
    · exact hdisjoint n hn n (List.mem_cons_of_mem _ hmem') rfl
    · exact (List.nodup_cons.1 hnodup).1 hmem'
  refine h.touch hc [n]
    { frame := fun m hm => ⟨by rw [hheap], hothers m (by simpa using hm)⟩
      chains := fun m _ => ⟨by rw [htail], by rw [hchain]⟩
      calm := fun m hm => ⟨hrefs m (by simpa using hm), by rw [Call.places, Call.places, howns], hpend m, hpends m⟩
      mine := fun m hm => .inr (.inr (by rw [List.mem_singleton.1 hm]; exact hplace))
      linked := by rw [hchain, hhead, hheap]; exact h.linked
      ptrs := fun m _ => by rw [hheap]; exact h.ptrs m
      place := fun m _ => by rw [hchain, hplaces, hheap]; exact h.place m
      held := fun m hm _ => by
        rw [List.mem_singleton.1 hm, hplaces, hheap]
        exact ⟨present_some hx, hplace⟩
      counts := fun m hm y hy _ => ?_
      past := fun m _ y hy hzero hnot => ?_
      full := fun m hm => by rw [hheap]; exact h.full m hm
      fresh := fun m hm => ?_
      short := h.short
      waits := fun hne => by rw [hheap, htail]; exact h.waits hne
      busy := fun hvalue => ?_
      taken := fun m => ?_
      knows := by rw [hchain]; exact hknows
      grows := fun m hm => .inl (by rw [← hchain]; exact hm)
      links := fun _ _ _ _ _ _ _ _ => by rw [hheap]
      taker := fun _ _ _ _ _ _ _ => by rw [hheap]
      last := fun _ _ _ _ _ => ⟨htail, fun hvalue => by rw [hheap, htail]; exact hvalue⟩
      values := by rw [hchain, hheap, hput, hhand] }
  · rw [List.mem_singleton.1 hm] at hy ⊢
    rw [hheap] at hy
    obtain ⟨hint, hext⟩ := h.counts n y hy hplace
    rw [Calls.total_set_same hc (hpend n), Calls.total_set_same hc (hpends n)]
    exact ⟨by omega, by rw [htail, hchain]; exact hext⟩
  · rw [hheap] at hy
    rw [hplaces] at hzero
    rw [htail] at hnot
    exact h.past m y hy hzero hnot
  · rw [hheap]
    refine ⟨(h.fresh m hm).1, ?_⟩
    rw [Calls.total_set_same hc (hrefs m fun he => hpost (by rw [← he]; exact hm))]
    exact (h.fresh m hm).2
  · rw [hheap, htail] at hvalue
    by_cases hf : c.fills = some s.tail.ptr
    · rcases hfills with he | hne
      · exact .inl (by rw [he, htail]; exact hf)
      · exact absurd hf hne
    · exact .inr ⟨hf, htail, hvalue⟩
  · rw [Calls.total_set_same hc (by rw [Call.taken, Call.taken, htakes])]
    exact h.taken m

/-! ## Values -/

theorem values_append (heap : ℕ → Option (Node α)) (l m : List ℕ) :
    values heap (l ++ m) = values heap l + values heap m := by
  rw [values, List.filterMap_append, ← Multiset.coe_add]
  rfl

theorem values_cons (heap : ℕ → Option (Node α)) (n : ℕ) (l : List ℕ) :
    values heap (n :: l) = ((valueOf heap n).toList : Multiset α) + values heap l := by
  rw [values, List.filterMap_cons]
  cases valueOf heap n with
  | none => simp [values]
  | some v => rfl

theorem Inv.tail_not_mem (h : Inv s calls pre post) : s.tail.ptr ∉ pre ∧ s.tail.ptr ∉ post := by
  have hnodup := h.linked.nodup
  rw [chain, List.nodup_append] at hnodup
  obtain ⟨-, hnodup, hdisjoint⟩ := hnodup
  exact ⟨fun hn => hdisjoint _ hn _ List.mem_cons_self rfl, (List.nodup_cons.1 hnodup).1⟩

/-- The `data` of a node that the mover holds changes. -/
theorem Inv.revalue (h : Inv s calls pre post) (hc : calls[i]? = some c) (hx : s.heap n = some x)
    (hholds : c.holds = some n) (hholds' : c'.holds = c.holds) (howns : c'.owns = c.owns) (hfrees : c'.frees = c.frees)
    {data : Option α} (hpre : n ∉ pre) (hpost : n ∉ post) (hlast : n = s.tail.ptr → data ≠ none)
    (hbusy : valueOf (s.write n { x with data := data }).heap s.tail.ptr ≠ none →
      c'.fills = some s.tail.ptr ∨ c.fills ≠ some s.tail.ptr ∧ valueOf s.heap s.tail.ptr ≠ none)
    (htaken : ∀ m, c'.taken m ≤ c.taken m)
    (htaker : ∀ j d, j ≠ i → calls[j]? = some d → Call.takes d ≠ some n)
    (hknows : c'.Knows (s.write n { x with data := data }) (chain s pre post))
    (hvalues : c'.put + c.hand s.heap + values s.heap (chain s pre post) =
      c.put + c'.hand (s.write n { x with data := data }).heap +
        values (s.write n { x with data := data }).heap (chain s pre post)) :
    Inv (s.write n { x with data := data }) (calls.set i c') pre post := by
  obtain ⟨-, hplace, -⟩ := h.shared hc hholds
  have hrefs : ∀ m, c'.refs m = c.refs m := fun m => by rw [Call.refs, Call.refs, hholds']
  have hplaces : ∀ m, c'.places m = c.places m := fun m => by rw [Call.places, Call.places, howns]
  have hpend : ∀ m, c'.pend m = c.pend m := fun m => by rw [Call.pend, Call.pend, hfrees]
  have hpends : ∀ m, c'.pends m = c.pends m := fun m => by rw [Call.pends, Call.pends, hfrees]
  have hnext : ∀ m, nextOf (s.write n { x with data := data }).heap m = nextOf s.heap m := by
    intro m
    by_cases hm : m = n
    · rw [hm, nextOf_some write_heap_self, nextOf_some hx]
    · exact nextOf_congr (write_heap_ne hm)
  have hkeep : valueOf s.heap s.tail.ptr ≠ none →
      valueOf (s.write n { x with data := data }).heap s.tail.ptr ≠ none := by
    intro hv
    by_cases he : s.tail.ptr = n
    · rw [he, valueOf_some write_heap_self]
      exact hlast he.symm
    · rw [valueOf_congr (write_heap_ne he)]
      exact hv
  refine h.touch hc [n]
    { frame := fun m hm => ⟨write_heap_ne (by simpa using hm), rfl, rfl⟩
      chains := fun m _ => ⟨rfl, rfl⟩
      calm := fun m _ => ⟨hrefs m, hplaces m, hpend m, hpends m⟩
      mine := fun m hm => .inr (.inr (by rw [List.mem_singleton.1 hm]; exact hplace))
      linked := h.linked.congr fun m _ => by rw [hnext]
      ptrs := fun m _ => by rw [hnext]; exact h.ptrs m
      place := fun m hm => ?_
      held := fun m hm _ => ?_
      counts := fun m hm y hy _ => ?_
      past := fun m hm y hy _ hnot => ?_
      full := fun m hm => ?_
      fresh := fun m hm => ?_
      short := h.short
      waits := fun hne => hkeep (h.waits hne)
      busy := fun hv => (hbusy hv).imp id fun hr => ⟨hr.1, rfl, hr.2⟩
      taken := fun m => ?_
      knows := hknows
      grows := fun _ => .inl
      links := fun m _ _ _ _ _ _ _ => hnext m
      taker := fun m hm j d hji hd hn => ?_
      last := fun _ _ _ _ _ => ⟨rfl, hkeep⟩
      values := hvalues }
  · have hold := h.place m
    rw [List.mem_singleton.1 hm] at hold ⊢
    rw [present_some hx] at hold
    rw [Calls.total_set_same hc (hplaces _), present_some write_heap_self]
    exact hold
  · rw [List.mem_singleton.1 hm, Calls.total_set_same hc (hplaces _), present_some write_heap_self]
    exact ⟨rfl, hplace⟩
  · rw [List.mem_singleton.1 hm] at hy ⊢
    rw [write_heap_self] at hy
    cases hy
    rw [Calls.total_set_same hc (hrefs _), Calls.total_set_same hc (hpend _), Calls.total_set_same hc (hpends _)]
    obtain ⟨hint, hext⟩ := h.counts _ x hx hplace
    exact ⟨hint, hext⟩
  · rw [List.mem_singleton.1 hm] at hy hnot
    rw [write_heap_self] at hy
    cases hy
    exact h.past n x hx hplace hnot
  · rw [valueOf_congr (write_heap_ne (ne_of_mem_of_not_mem hm hpre))]
    exact h.full m hm
  · rw [valueOf_congr (write_heap_ne (ne_of_mem_of_not_mem hm hpost)), Calls.total_set_same hc (hrefs _)]
    exact h.fresh m hm
  · have hset : Calls.total (Call.taken m) (calls.set i c') + _ = _ := Calls.total_set hc
    have hle := htaken m
    have hold := h.taken m
    omega
  · rw [List.mem_singleton.1 hm] at hn
    exact absurd hn (htaker j d hji hd)

/-- A push puts its value into the last node. -/
theorem Inv.fill (h : Inv s calls pre post) (hc : calls[i]? = some c) (hx : s.heap s.tail.ptr = some x)
    (hnone : x.data = none) (hholds : c.holds = some s.tail.ptr) (hholds' : c'.holds = c.holds)
    (howns : c'.owns = c.owns) (hfrees : c'.frees = c.frees) (htakes : c'.takes = none)
    (hfills : c'.fills = some s.tail.ptr)
    (hknows : c'.Knows (s.write s.tail.ptr { x with data := some value }) (chain s pre post))
    (hput : c'.put = c.put + {value}) (hhand : c.hand s.heap = 0)
    (hhand' : c'.hand (s.write s.tail.ptr { x with data := some value }).heap = 0) :
    Inv (s.write s.tail.ptr { x with data := some value }) (calls.set i c') pre post := by
  obtain ⟨hpre, hpost⟩ := h.tail_not_mem
  have hvalue : ∀ m, m ≠ s.tail.ptr →
      valueOf (s.write s.tail.ptr { x with data := some value }).heap m = valueOf s.heap m :=
    fun m hm => valueOf_congr (write_heap_ne hm)
  have hself : valueOf (s.write s.tail.ptr { x with data := some value }).heap s.tail.ptr = some value :=
    valueOf_some write_heap_self
  refine h.revalue hc hx hholds hholds' howns hfrees hpre hpost (fun _ => Option.some_ne_none _) (fun _ => .inl hfills)
    (fun m => ?_) (fun j d _ hd hn => ?_) hknows ?_
  · rw [Call.taken, htakes]
    exact Nat.zero_le _
  · exact ((h.knows d (List.mem_of_getElem? hd)).takes _ hn).1 tail_mem
  · rw [chain, values_append, values_append, values_cons, values_cons, hself, valueOf_some hx, hnone,
      values_congr fun m hm => hvalue m (ne_of_mem_of_not_mem hm hpre),
      values_congr fun m hm => hvalue m (ne_of_mem_of_not_mem hm hpost), hput, hhand, hhand']
    show c.put + {value} + 0 + (values s.heap pre + (0 + values s.heap post)) =
      c.put + 0 + (values s.heap pre + ({value} + values s.heap post))
    abel

/-- A pop takes the value out of the node it has taken off the chain. -/
theorem Inv.exchange (h : Inv s calls pre post) (hc : calls[i]? = some c) (hx : s.heap n = some x)
    (htakes : c.takes = some n) (htakes' : c'.takes = none) (hholds : c'.holds = c.holds) (howns : c'.owns = c.owns)
    (hfrees : c'.frees = c.frees) (hfills : c.fills = none)
    (hknows : c'.Knows (s.write n { x with data := none }) (chain s pre post)) (hput : c'.put = c.put)
    (hhand : c'.hand (s.write n { x with data := none }).heap = c.hand s.heap) :
    Inv (s.write n { x with data := none }) (calls.set i c') pre post := by
  have hnot := ((h.knows c (List.mem_of_getElem? hc)).takes n htakes).1
  have hne : s.tail.ptr ≠ n := ne_of_mem_of_not_mem tail_mem hnot
  refine h.revalue hc hx (Call.takes_held htakes) hholds howns hfrees (fun hm => hnot (by simp [chain, hm]))
    (fun hm => hnot (by simp [chain, hm])) (fun he => absurd he.symm hne) (fun hv => .inr ⟨?_, ?_⟩) (fun m => ?_)
    (fun j d hji hd hn => ?_) hknows ?_
  · rw [hfills]
    exact (Option.some_ne_none _).symm
  · rw [← valueOf_congr (write_heap_ne hne)]
    exact hv
  · rw [Call.taken, htakes']
    exact Nat.zero_le _
  · have htwo := Calls.add_le_total (f := Call.taken n) hc hd hji.symm
    have hone := h.taken n
    rw [Call.taken, Call.taken, if_pos htakes, if_pos hn] at htwo
    omega
  · rw [values_congr fun m hm => valueOf_congr (write_heap_ne (ne_of_mem_of_not_mem hm hnot)), hput, hhand]

/-! ## The chain -/

/-- A node that is linked to nothing is the last one, if a reference to it is held. -/
theorem Inv.last_of_next (h : Inv s calls pre post) (hc : calls[i]? = some c) (hholds : c.holds = some n)
    (hx : s.heap n = some x) (hnext : x.next.ptr = 0) : n = s.tail.ptr ∧ post = [] := by
  obtain ⟨-, hplace, hpos⟩ := h.shared hc hholds
  have hmem : n ∈ s.tail.ptr :: post := by
    by_contra hnot
    exact h.past n x hx hplace hnot hnext
  rcases List.mem_cons.1 hmem with rfl | hpost
  · refine ⟨rfl, ?_⟩
    have hlinked : Linked (fun n => (nextOf s.heap n).ptr) (nextOf s.heap s.tail.ptr).ptr post := h.linked.of_append
    rw [nextOf_some hx, hnext] at hlinked
    exact hlinked.eq_nil
  · have := (h.fresh n hpost).2
    omega

/-- A new node of the mover is linked behind the last one. -/
theorem Inv.link (h : Inv s calls pre []) (hc : calls[i]? = some c) (hx : s.heap s.tail.ptr = some x)
    (hnext : x.next = ⟨0, 0⟩) (hfilled : valueOf s.heap s.tail.ptr ≠ none) (hholds : c.holds = some s.tail.ptr)
    (hholds' : c'.holds = c.holds)
    (howns : c.owns = n :: c'.owns) (hnew : n ≠ 0 ∧ s.heap n = some Node.new) (hfrees : c.frees = none)
    (hfrees' : c'.frees = none) (htakes' : c'.takes = none)
    (hfills : c'.fills = c.fills ∨ c.fills ≠ some s.tail.ptr)
    (hknows : c'.Knows (s.write s.tail.ptr { x with next := ⟨1, n⟩ }) (chain s pre [n])) (hput : c'.put = c.put)
    (hhand : c'.hand (s.write s.tail.ptr { x with next := ⟨1, n⟩ }).heap = c.hand s.heap) :
    Inv (s.write s.tail.ptr { x with next := ⟨1, n⟩ }) (calls.set i c') pre [n] := by
  have hown : n ∈ c.owns := by rw [howns]; exact List.mem_cons_self
  obtain ⟨hn, hnode⟩ := hnew
  obtain ⟨-, hnot, hzero, -⟩ := h.own hc hown
  obtain ⟨-, hplace, -⟩ := h.shared hc hholds
  have htn : s.tail.ptr ≠ n := ne_of_mem_of_not_mem tail_mem hnot
  have hrefs : ∀ m, c'.refs m = c.refs m := fun m => by rw [Call.refs, Call.refs, hholds']
  have hpend : ∀ m, c'.pend m = c.pend m := fun m => by rw [Call.pend, Call.pend, hfrees, hfrees']
  have hpends : ∀ m, c'.pends m = c.pends m := fun m => by rw [Call.pends, Call.pends, hfrees, hfrees']
  have hplaces : ∀ m, m ≠ n → c'.places m = c.places m := by
    intro m hm
    rw [Call.places, Call.places, howns, List.count_cons_of_ne (Ne.symm hm)]
  have hone : Calls.total (Call.places n) (calls.set i c') = 0 := by
    have hset : Calls.total (Call.places n) (calls.set i c') + _ = _ := Calls.total_set hc
    have hold := h.place n
    rw [present_some hnode] at hold
    have hmine : c.places n = c'.places n + 1 := by rw [Call.places, Call.places, howns, List.count_cons_self]
    have hle := Calls.le_total (f := Call.places n) hc
    omega
  have hself : (s.write s.tail.ptr { x with next := ⟨1, n⟩ }).heap n = some Node.new :=
    (write_heap_ne htn.symm).trans hnode
  have hvalue : ∀ m, valueOf (s.write s.tail.ptr { x with next := ⟨1, n⟩ }).heap m = valueOf s.heap m := by
    intro m
    by_cases hm : m = s.tail.ptr
    · rw [hm, valueOf_some write_heap_self, valueOf_some hx]
    · exact valueOf_congr (write_heap_ne hm)
  have hsame : valueOf (s.write s.tail.ptr { x with next := ⟨1, n⟩ }).heap s.tail.ptr ≠ none := by
    rw [hvalue]
    exact hfilled
  have hchain : chain s pre [n] = chain s pre [] ++ [n] := by simp [chain]
  have hpair : ∀ m, n ≠ m → [s.tail.ptr, n].count m = [s.tail.ptr].count m := by
    intro m hm
    simp [List.count_cons, hm]
  have hpends0 : Calls.total (Call.pends n) calls = 0 := by
    refine Calls.total_eq_zero fun d hd => if_neg fun he => ?_
    obtain ⟨p, hp, rfl⟩ := Option.map_eq_some_iff.1 he
    have hnone := Calls.total_eq_zero_iff.1 hzero d hd
    rw [Call.refs_self (Call.frees_held hp)] at hnone
    cases hnone
  refine h.touch hc [s.tail.ptr, n]
    { frame := fun m hm => ⟨write_heap_ne fun he => hm (by rw [he]; simp), rfl, rfl⟩
      chains := fun m hm => ?_
      calm := fun m hm => ⟨hrefs m, hplaces m fun he => hm (by rw [he]; simp), hpend m, hpends m⟩
      mine := fun m hm => ?_
      linked := ?_
      ptrs := fun m hm => ?_
      place := fun m hm => ?_
      held := fun m hm hpos => ?_
      counts := fun m hm y hy _ => ?_
      past := fun m hm y hy _ hmem => ?_
      full := fun m hm => by rw [hvalue]; exact h.full m hm
      fresh := fun m hm => ?_
      short := le_refl 1
      waits := fun _ => hsame
      busy := fun hv => ?_
      taken := fun m => ?_
      knows := hknows
      grows := fun m hm => ?_
      links := fun m hm j d hji hd hdn hne => ?_
      taker := fun m _ _ _ _ _ _ => hvalue m
      last := fun _ _ _ _ _ => ⟨rfl, fun hv => by rw [hvalue]; exact hv⟩
      values := ?_ }
  · have hmn : n ≠ m := fun he => hm (by rw [he]; simp)
    refine ⟨?_, ?_⟩
    · exact hpair m hmn
    · show (chain s pre [n]).count m = (chain s pre []).count m
      rw [hchain, List.count_append, List.count_cons_of_ne hmn]
      rfl
  · simp only [List.mem_cons, List.not_mem_nil, or_false] at hm
    rcases hm with rfl | rfl
    · exact .inr (.inr hplace)
    · exact .inl hown
  · show Linked _ s.head.ptr (chain s pre [n])
    rw [hchain]
    refine Linked.append (h.linked.congr fun m _ => ?_) tail_mem ?_
    · by_cases hm : m = s.tail.ptr
      · rw [hm, Function.update_self, nextOf_some hx, hnext]
      · rw [Function.update_of_ne hm, nextOf_congr (write_heap_ne hm)]
    · refine ⟨?_, hn, ?_⟩
      · rw [nextOf_some write_heap_self]
      · show (nextOf (s.write s.tail.ptr { x with next := ⟨1, n⟩ }).heap n).ptr = 0
        rw [nextOf_some hself]
        rfl
  · simp only [List.mem_cons, List.not_mem_nil, or_false] at hm
    rcases hm with rfl | rfl
    · rw [nextOf_some write_heap_self]
      exact .inr ⟨rfl, hn⟩
    · rw [nextOf_some hself]
      exact .inl rfl
  · show (chain s pre [n]).count m + _ ≤ _
    simp only [List.mem_cons, List.not_mem_nil, or_false] at hm
    rw [hchain, List.count_append]
    rcases hm with rfl | rfl
    · have hold := h.place s.tail.ptr
      rw [present_some hx] at hold
      rw [Calls.total_set_same hc (hplaces _ htn), present_some write_heap_self, List.count_cons_of_ne htn.symm]
      exact hold
    · rw [hone, present_some hself, List.count_eq_zero.2 hnot, List.count_cons_self]
      rfl
  · simp only [List.mem_cons, List.not_mem_nil, or_false] at hm
    rcases hm with rfl | rfl
    · rw [Calls.total_set_same hc (hplaces _ htn)]
      exact ⟨present_some write_heap_self, hplace⟩
    · rw [Calls.total_set_same hc (hrefs _)] at hpos
      omega
  · simp only [List.mem_cons, List.not_mem_nil, or_false] at hm
    rw [Calls.total_set_same hc (hrefs _), Calls.total_set_same hc (hpend _), Calls.total_set_same hc (hpends _)]
    rcases hm with rfl | rfl
    · rw [write_heap_self] at hy
      cases hy
      obtain ⟨hint, hext⟩ := h.counts _ x hx hplace
      refine ⟨hint, ?_⟩
      show x.count.externalCounters =
        ((s.tail.ptr :: [n]).count s.tail.ptr : ℤ) + (chain s pre [n]).count s.tail.ptr + _
      rw [hpair _ htn.symm, hchain, List.count_append, List.count_cons_of_ne htn.symm]
      exact hext
    · rw [hself] at hy
      cases hy
      refine ⟨?_, ?_⟩
      · show (0 : ℤ) + _ + part s.tail m + part s.head m = _
        rw [pend_of_pends hpends0, part_ne htn, part_ne (ne_of_mem_of_not_mem h.head_mem hnot), hzero]
        rfl
      · show (2 : ℤ) = ((s.tail.ptr :: [m]).count m : ℤ) + (chain s pre [m]).count m + _
        rw [hchain, List.count_append, List.count_eq_zero.2 hnot, List.count_cons_of_ne htn, List.count_cons_self,
          hpends0]
        rfl
  · simp only [List.mem_cons, List.not_mem_nil, or_false] at hm
    rcases hm with rfl | rfl
    · exact absurd List.mem_cons_self hmem
    · exact absurd (List.mem_cons_of_mem _ List.mem_cons_self) hmem
  · rw [List.mem_singleton.1 hm, hvalue, valueOf_some hnode, Calls.total_set_same hc (hrefs _)]
    exact ⟨rfl, hzero⟩
  · have hv : valueOf s.heap s.tail.ptr ≠ none := by
      rw [← hvalue]
      exact hv
    by_cases hf : c.fills = some s.tail.ptr
    · rcases hfills with he | hne
      · exact .inl (he.trans hf)
      · exact absurd hf hne
    · exact .inr ⟨hf, rfl, hv⟩
  · have hset : Calls.total (Call.taken m) (calls.set i c') + _ = _ := Calls.total_set hc
    have hnone : c'.taken m = 0 := by rw [Call.taken, htakes']; rfl
    have hold := h.taken m
    omega
  · change m ∈ chain s pre [n] at hm
    rw [hchain] at hm
    rcases List.mem_append.1 hm with hm | hm
    · exact .inl hm
    · rw [List.mem_singleton.1 hm]
      exact .inr hown
  · simp only [List.mem_cons, List.not_mem_nil, or_false] at hm
    rcases hm with rfl | rfl
    · rw [nextOf_some hx, hnext] at hne
      exact absurd rfl hne
    · have hpos := (h.shared hd hdn).2.2
      omega
  · show c'.put + _ + _ = c.put + _ + values (s.write s.tail.ptr { x with next := ⟨1, n⟩ }).heap (chain s pre [n])
    rw [values_congr fun m _ => hvalue m, hchain, values_append, values_cons, valueOf_some hnode, hput, hhand]
    show _ = c.put + c.hand s.heap + (values s.heap (chain s pre []) + (0 + 0))
    rw [add_zero, add_zero]

/-- `tail` is moved on to the node behind it. -/
theorem Inv.advance_tail (h : Inv s calls pre post) (hc : calls[i]? = some c) (hholds : c.holds = some s.tail.ptr)
    (hlinks : nextOf s.heap s.tail.ptr = p) (hne : p.ptr ≠ 0) (hfilled : valueOf s.heap s.tail.ptr ≠ none)
    (hholds' : c'.holds = c.holds) (howns : c'.owns = c.owns) (hfrees : c.frees = none)
    (hfrees' : c'.frees = some s.tail) (htakes : c'.takes = none)
    (hknows : c'.Knows { s with tail := p } (chain s pre post)) (hput : c'.put = c.put)
    (hhand : c'.hand s.heap = c.hand s.heap) : ∃ pre' post', Inv { s with tail := p } (calls.set i c') pre' post' := by
  obtain ⟨⟨x, hx⟩, hplace, -⟩ := h.shared hc hholds
  have hlinked : Linked (fun n => (nextOf s.heap n).ptr) (nextOf s.heap s.tail.ptr).ptr post := h.linked.of_append
  rw [hlinks] at hlinked
  obtain ⟨rest, rfl, -⟩ := hlinked.uncons hne
  have hrest : rest = [] := by
    have hshort := h.short
    rw [List.length_cons] at hshort
    exact List.length_eq_zero_iff.1 (by omega)
  subst hrest
  obtain ⟨hnone, hzero⟩ := h.fresh p.ptr List.mem_cons_self
  have hone : p.externalCount = 1 := by
    rcases h.ptrs s.tail.ptr with hnull | ⟨hone, -⟩
    · rw [hlinks] at hnull
      rw [hnull] at hne
      exact absurd rfl hne
    · rw [← hlinks]
      exact hone
  have htp : s.tail.ptr ≠ p.ptr := fun he => h.tail_not_mem.2 (by rw [he]; exact List.mem_cons_self)
  have hchain : chain { s with tail := p } (pre ++ [s.tail.ptr]) [] = chain s pre [p.ptr] := by simp [chain]
  have hrefs : ∀ m, c'.refs m = c.refs m := fun m => by rw [Call.refs, Call.refs, hholds']
  have hplaces : ∀ m, c'.places m = c.places m := fun m => by rw [Call.places, Call.places, howns]
  have hpend : ∀ m, m ≠ s.tail.ptr → c'.pend m = c.pend m ∧ c'.pends m = c.pends m := by
    intro m hm
    rw [Call.pend, Call.pend, Call.pends, Call.pends, hfrees, hfrees']
    exact ⟨part_ne (Ne.symm hm), if_neg fun he => hm (Option.some.inj he).symm⟩
  refine ⟨pre ++ [s.tail.ptr], [], h.touch hc [s.tail.ptr, p.ptr]
    { frame := fun m hm => ⟨rfl, ?_, rfl⟩
      chains := fun m hm => ⟨?_, by rw [hchain]⟩
      calm := fun m hm => ⟨hrefs m, hplaces m, hpend m fun he => hm (by rw [he]; simp)⟩
      mine := fun m hm => ?_
      linked := by rw [hchain]; exact h.linked
      ptrs := fun m _ => h.ptrs m
      place := fun m _ => by rw [hchain, Calls.total_set_same hc (hplaces m)]; exact h.place m
      held := fun m _ hpos => ?_
      counts := fun m hm y hy hpl => ?_
      past := fun m hm y hy hpl hmem => ?_
      full := fun m hm => ?_
      fresh := fun m hm => (List.not_mem_nil hm).elim
      short := Nat.zero_le _
      waits := fun hne => absurd rfl hne
      busy := fun hv => absurd hnone hv
      taken := fun m => ?_
      knows := by rw [hchain]; exact hknows
      grows := fun m hm => .inl (by rw [← hchain]; exact hm)
      links := fun _ _ _ _ _ _ _ _ => rfl
      taker := fun _ _ _ _ _ _ _ => rfl
      last := fun j d _ hd hdn => ?_
      values := by rw [hchain, hput]; show _ = _ + c'.hand s.heap + _; rw [hhand] }⟩
  · rw [part_ne fun he => hm (by rw [← he]; simp), part_ne fun he => hm (by rw [← he]; simp)]
  · show [p.ptr].count m = [s.tail.ptr, p.ptr].count m
    exact (List.count_cons_of_ne fun he => hm (by rw [he]; simp)).symm
  · simp only [List.mem_cons, List.not_mem_nil, or_false] at hm
    rcases hm with rfl | rfl
    · exact .inr (.inr hplace)
    · exact .inr (.inr (h.chained (by simp [chain])).2)
  · rw [Calls.total_set_same hc (hrefs m)] at hpos
    rw [Calls.total_set_same hc (hplaces m)]
    exact h.held m hpos
  · rw [Calls.total_set_same hc (hplaces m)] at hpl
    obtain ⟨hint, hext⟩ := h.counts m y hy hpl
    rw [Calls.total_set_same hc (hrefs m)]
    have hset : Calls.total (Call.pend m) (calls.set i c') + _ = _ := Calls.total_set hc
    have hsets : Calls.total (Call.pends m) (calls.set i c') + _ = _ := Calls.total_set hc
    simp only [List.mem_cons, List.not_mem_nil, or_false] at hm
    rcases hm with rfl | rfl
    · have hp : c.pend s.tail.ptr = 0 := by rw [Call.pend, hfrees]; rfl
      have hps : c.pends s.tail.ptr = 0 := by rw [Call.pends, hfrees]; rfl
      have hp' : c'.pend s.tail.ptr = part s.tail s.tail.ptr := by rw [Call.pend, hfrees']; rfl
      have hps' : c'.pends s.tail.ptr = 1 := by rw [Call.pends, hfrees']; exact if_pos rfl
      rw [hp, hp'] at hset
      rw [hps, hps'] at hsets
      refine ⟨?_, ?_⟩
      · show y.count.internalCount + _ + part p s.tail.ptr + part s.head s.tail.ptr = _
        rw [part_ne htp.symm]
        omega
      · rw [hchain]
        show y.count.externalCounters = ([p.ptr].count s.tail.ptr : ℤ) + _ + _
        rw [List.count_cons_self] at hext
        omega
    · obtain ⟨hsame, hsames⟩ := hpend p.ptr htp.symm
      rw [Calls.total_set_same hc hsame, Calls.total_set_same hc hsames]
      refine ⟨?_, ?_⟩
      · show y.count.internalCount + _ + part p p.ptr + part s.head p.ptr = _
        rw [part_self, hone]
        rw [part_ne htp] at hint
        exact hint
      · rw [hchain]
        rw [List.count_cons_of_ne htp] at hext
        exact hext
  · simp only [List.mem_cons, List.not_mem_nil, or_false] at hm
    rcases hm with rfl | rfl
    · have hy : s.heap s.tail.ptr = some y := hy
      rw [← nextOf_some hy, hlinks]
      exact hne
    · exact absurd List.mem_cons_self hmem
  · rcases List.mem_append.1 hm with hm | hm
    · exact h.full m hm
    · rw [List.mem_singleton.1 hm]
      exact hfilled
  · have hset : Calls.total (Call.taken m) (calls.set i c') + _ = _ := Calls.total_set hc
    have hnone : c'.taken m = 0 := by rw [Call.taken, htakes]; rfl
    have hold := h.taken m
    omega
  · have hpos := (h.shared hd hdn).2.2
    have hz : Calls.total (Call.refs ({ s with tail := p } : LockFreeQueue α).tail.ptr) calls = 0 := hzero
    omega

/-- `head` is moved on from a node that is not the last. -/
theorem Inv.advance_head (h : Inv s calls pre post) (hc : calls[i]? = some c) (hholds : c.holds = some s.head.ptr)
    (hlinks : nextOf s.heap s.head.ptr = p) (hne : p.ptr ≠ 0) (hbeyond : s.head.ptr ≠ s.tail.ptr)
    (hholds' : c'.holds = c.holds) (howns : c'.owns = c.owns) (hfrees : c.frees = none)
    (hfrees' : c'.frees = some s.head) (htakes : c'.takes = some s.head.ptr) (hfills : c.fills = none)
    (hknows : s.head.ptr ∉ (chain s pre post).tail → valueOf s.heap s.head.ptr ≠ none →
      c'.Knows { s with head := p } (chain s pre post).tail) (hput : c'.put = c.put)
    (hhand : c.hand s.heap = 0) (hhand' : c'.hand s.heap = ((valueOf s.heap s.head.ptr).toList : Multiset α)) :
    ∃ pre' post', Inv { s with head := p } (calls.set i c') pre' post' := by
  obtain ⟨⟨x, hx⟩, hplace, -⟩ := h.shared hc hholds
  obtain ⟨pre', rfl⟩ : ∃ pre', pre = s.head.ptr :: pre' := by
    have hlinked := h.linked
    cases pre with
    | nil => exact absurd hlinked.1 hbeyond
    | cons a pre =>
      rw [hlinked.1]
      exact ⟨pre, rfl⟩
  have hchain : chain s (s.head.ptr :: pre') post = s.head.ptr :: chain s pre' post := rfl
  have hlinked := h.linked
  have hnodup := h.linked.nodup
  rw [hchain] at hlinked hnodup hknows
  obtain ⟨-, -, hrest⟩ := hlinked
  obtain ⟨hnot, -⟩ := List.nodup_cons.1 hnodup
  have hrest : Linked (fun n => (nextOf s.heap n).ptr) p.ptr (chain s pre' post) := by
    rw [← hlinks]
    exact hrest
  have hpmem : p.ptr ∈ chain s pre' post := by
    obtain ⟨m, hm, -⟩ := hrest.uncons hne
    rw [hm]
    exact List.mem_cons_self
  have hhp : s.head.ptr ≠ p.ptr := fun he => hnot (by rw [he]; exact hpmem)
  have hvalue := h.full s.head.ptr List.mem_cons_self
  have hone : p.externalCount = 1 := by
    rcases h.ptrs s.head.ptr with hnull | ⟨hone, -⟩
    · rw [hlinks] at hnull
      rw [hnull] at hne
      exact absurd rfl hne
    · rw [← hlinks]
      exact hone
  have hrefs : ∀ m, c'.refs m = c.refs m := fun m => by rw [Call.refs, Call.refs, hholds']
  have hplaces : ∀ m, c'.places m = c.places m := fun m => by rw [Call.places, Call.places, howns]
  have hpend : ∀ m, m ≠ s.head.ptr → c'.pend m = c.pend m ∧ c'.pends m = c.pends m := by
    intro m hm
    rw [Call.pend, Call.pend, Call.pends, Call.pends, hfrees, hfrees']
    exact ⟨part_ne (Ne.symm hm), if_neg fun he => hm (Option.some.inj he).symm⟩
  refine ⟨pre', post, h.touch hc [s.head.ptr, p.ptr]
    { frame := fun m hm => ⟨rfl, rfl, ?_⟩
      chains := fun m hm => ⟨rfl, ?_⟩
      calm := fun m hm => ⟨hrefs m, hplaces m, hpend m fun he => hm (by rw [he]; simp)⟩
      mine := fun m hm => ?_
      linked := hrest
      ptrs := fun m _ => h.ptrs m
      place := fun m _ => ?_
      held := fun m _ hpos => ?_
      counts := fun m hm y hy hpl => ?_
      past := fun m hm y hy hpl hmem => ?_
      full := fun m hm => h.full m (List.mem_cons_of_mem _ hm)
      fresh := fun m hm => ?_
      short := h.short
      waits := h.waits
      busy := fun hv => .inr ⟨by rw [hfills]; exact (Option.some_ne_none _).symm, rfl, hv⟩
      taken := fun m => ?_
      knows := hknows hnot hvalue
      grows := fun m hm => .inl (List.mem_cons_of_mem _ hm)
      links := fun _ _ _ _ _ _ _ _ => rfl
      taker := fun _ _ _ _ _ _ _ => rfl
      last := fun _ _ _ _ _ => ⟨rfl, id⟩
      values := ?_ }⟩
  · rw [part_ne fun he => hm (by rw [← he]; simp), part_ne fun he => hm (by rw [← he]; simp)]
  · rw [hchain]
    exact (List.count_cons_of_ne fun he => hm (by rw [he]; simp)).symm
  · simp only [List.mem_cons, List.not_mem_nil, or_false] at hm
    rcases hm with rfl | rfl
    · exact .inr (.inr hplace)
    · exact .inr (.inr (h.chained (by rw [hchain]; exact List.mem_cons_of_mem _ hpmem)).2)
  · have hold := h.place m
    rw [hchain] at hold
    have hle : (chain s pre' post).count m ≤ (s.head.ptr :: chain s pre' post).count m := List.count_le_count_cons ..
    rw [Calls.total_set_same hc (hplaces m)]
    show (chain s pre' post).count m + _ ≤ present s.heap m
    omega
  · rw [Calls.total_set_same hc (hrefs m)] at hpos
    rw [Calls.total_set_same hc (hplaces m)]
    exact h.held m hpos
  · rw [Calls.total_set_same hc (hplaces m)] at hpl
    obtain ⟨hint, hext⟩ := h.counts m y hy hpl
    rw [hchain] at hext
    rw [Calls.total_set_same hc (hrefs m)]
    have hset : Calls.total (Call.pend m) (calls.set i c') + _ = _ := Calls.total_set hc
    have hsets : Calls.total (Call.pends m) (calls.set i c') + _ = _ := Calls.total_set hc
    simp only [List.mem_cons, List.not_mem_nil, or_false] at hm
    rcases hm with rfl | rfl
    · have hp : c.pend s.head.ptr = 0 := by rw [Call.pend, hfrees]; rfl
      have hps : c.pends s.head.ptr = 0 := by rw [Call.pends, hfrees]; rfl
      have hp' : c'.pend s.head.ptr = part s.head s.head.ptr := by rw [Call.pend, hfrees']; rfl
      have hps' : c'.pends s.head.ptr = 1 := by rw [Call.pends, hfrees']; exact if_pos rfl
      rw [hp, hp'] at hset
      rw [hps, hps'] at hsets
      refine ⟨?_, ?_⟩
      · show y.count.internalCount + _ + part s.tail s.head.ptr + part p s.head.ptr = _
        rw [part_ne hhp.symm]
        omega
      · show y.count.externalCounters = ((s.tail.ptr :: post).count s.head.ptr : ℤ) +
          ((chain s pre' post).count s.head.ptr : ℤ) + _
        rw [List.count_cons_self] at hext
        omega
    · obtain ⟨hsame, hsames⟩ := hpend p.ptr hhp.symm
      rw [Calls.total_set_same hc hsame, Calls.total_set_same hc hsames]
      refine ⟨?_, ?_⟩
      · show y.count.internalCount + _ + part s.tail p.ptr + part p p.ptr = _
        rw [part_self, hone]
        rw [part_ne hhp] at hint
        exact hint
      · rw [List.count_cons_of_ne hhp] at hext
        exact hext
  · rw [Calls.total_set_same hc (hplaces m)] at hpl
    exact h.past m y hy hpl hmem
  · rw [Calls.total_set_same hc (hrefs m)]
    exact h.fresh m hm
  · have hset : Calls.total (Call.taken m) (calls.set i c') + _ = _ := Calls.total_set hc
    have hold := h.taken m
    by_cases hm : m = s.head.ptr
    · have hzero : Calls.total (Call.taken m) calls = 0 := by
        refine Calls.total_eq_zero fun d hd => if_neg fun he => ?_
        rw [hm] at he
        exact ((h.knows d hd).takes _ he).1 (by rw [hchain]; exact List.mem_cons_self)
      have hle : c'.taken m ≤ 1 := by
        unfold Call.taken
        split <;> omega
      omega
    · have hnone : c'.taken m = 0 := if_neg (by rw [htakes]; exact fun he => hm (Option.some.inj he).symm)
      omega
  · show c'.put + _ + values s.heap (s.head.ptr :: chain s pre' post) = c.put + c'.hand s.heap +
      values s.heap (chain s pre' post)
    rw [hput, hhand, hhand', values_cons]
    abel

end Learncc.LockFreeQueue
