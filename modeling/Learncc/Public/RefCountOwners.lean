/-
Whose every node of a `ref_count_stack` is, and what its counts say then. On the
stack, the references that are held are those taken through the pointer to the
node, less those given back; once the popping call has added the two up, the
node itself has their number, and whoever brings it to 0 owns the node and
deletes it.

`Inv.move` keeps the invariant over a move that concerns one node, `Inv.quiet`
over one that leaves the stack as it is.
-/
import Learncc.Public.RefCountStack

namespace Learncc.RefCountStack

variable {α : Type}

inductive Owner
  | free
  | stack
  | shared
  | call (i : ℕ)
deriving Repr, DecidableEq

def nextOf (heap : ℕ → Option (CountNode α)) (n : ℕ) : CountedNodePtr := ((heap n).map CountNode.next).getD ⟨0, 0⟩

def valueOf (heap : ℕ → Option (CountNode α)) (n : ℕ) : Option α := (heap n).bind CountNode.data

def values (heap : ℕ → Option (CountNode α)) (l : List ℕ) : Multiset α := (l.filterMap (valueOf heap) : Multiset α)

/-- The nodes from a pointer on. `ext n` is the count in the pointer to `n`. -/
def Chain (next : ℕ → CountedNodePtr) (ext : ℕ → ℤ) : CountedNodePtr → List ℕ → Prop
  | p, [] => p.ptr = 0
  | p, n :: l => p.ptr = n ∧ n ≠ 0 ∧ ext n = p.externalCount ∧ Chain next ext (next n) l

namespace Call

/-- The node the call has counted itself as a reader of. -/
def holds : Call α → Option ℕ
  | .pop (.readNext oldHead) | .pop (.casHead oldHead _) => some oldHead.ptr
  | .pop (.release ptr _) => some ptr
  | _ => none

def refs (n : ℕ) (c : Call α) : ℕ := if c.holds = some n then 1 else 0

/-- The node that is the call's own. -/
def owned : Call α → Option ℕ
  | .push _ (.load n) | .push _ (.cas n) => some n
  | .pop (.swap oldHead) | .pop (.add oldHead _) => some oldHead.ptr
  | .pop (.delete ptr _) | .pop (.loadCount ptr _) | .pop (.deleteAgain ptr _) => some ptr
  | _ => none

/-- What the call has to say of its node, to which `r` references are held. -/
def Keeps : Call α → CountNode α → ℕ → Prop
  | .push data (.load _), x, r | .push data (.cas _), x, r => x.data = some data ∧ x.internalCount = 0 ∧ r = 0
  | .pop (.swap oldHead), x, r =>
    x.data.isSome = true ∧ x.internalCount ≤ 0 ∧ (r : ℤ) = x.internalCount + oldHead.externalCount - 2
  | .pop (.add oldHead _), x, r => x.internalCount ≤ 0 ∧ (r : ℤ) = x.internalCount + oldHead.externalCount - 2
  | .pop (.delete _ _), _, r | .pop (.loadCount _ _), _, r | .pop (.deleteAgain _ _), _, r => r = 0
  | _, _, _ => False

/-- The value a pop has taken off the stack. -/
def hand (heap : ℕ → Option (CountNode α)) : Call α → Multiset α
  | .pop (.swap oldHead) => ((valueOf heap oldHead.ptr).toList : Multiset α)
  | .pop (.add _ res) | .pop (.delete _ res) => {res}
  | .pop (.returned res) => (res.toList : Multiset α)
  | _ => 0

end Call

/-- The node at `n`, to which `r` references are held and whose pointer has the
count `e`, as its owner has it. -/
def NodeOk (calls : List (Call α)) (n : ℕ) (node : Option (CountNode α)) (r : ℕ) (e : ℤ) : Owner → Prop
  | .free => node = none ∧ r = 0
  | .stack => ∃ x, node = some x ∧ x.data.isSome = true ∧ x.internalCount ≤ 0 ∧ (r : ℤ) = x.internalCount + e - 1
  | .shared => ∃ x, node = some x ∧ 1 ≤ x.internalCount ∧ (r : ℤ) = x.internalCount
  | .call i => ∃ x c, node = some x ∧ calls[i]? = some c ∧ c.owned = some n ∧ c.Keeps x r

structure Inv (s : RefCountStack α) (calls : List (Call α)) (owner : ℕ → Owner) (ext : ℕ → ℤ) (stack : List ℕ) :
    Prop where
  null : owner 0 = .free
  chain : Chain (nextOf s.heap) ext s.head stack
  mem_stack : ∀ n, n ∈ stack ↔ owner n = .stack
  node : ∀ n, NodeOk calls n (s.heap n) (Calls.total (Call.refs n) calls) (ext n) (owner n)
  own : ∀ i c n, calls[i]? = some c → c.owned = some n → owner n = .call i
  front : ∀ oldHead next, Call.pop (.casHead oldHead next) ∈ calls → owner oldHead.ptr = .stack →
    nextOf s.heap oldHead.ptr = next
  sound : ∀ c ∈ calls, c.failed = false
  conserved : Calls.total Call.put calls = Calls.total (Call.hand s.heap) calls + values s.heap stack

variable {s s' : RefCountStack α} {calls : List (Call α)} {owner owner' : ℕ → Owner} {ext ext' : ℕ → ℤ}
  {stack stack' : List ℕ} {c c' d : Call α} {i j n m : ℕ} {heap heap' : ℕ → Option (CountNode α)} {l : List ℕ}

theorem inv_start : Inv (init : RefCountStack α) [] (fun _ => .free) (fun _ => 0) [] where
  null := rfl
  chain := rfl
  mem_stack := fun n => by simp
  node := fun _ => ⟨rfl, rfl⟩
  own := fun i c n hc => by simp at hc
  front := fun _ _ hm => (List.not_mem_nil hm).elim
  sound := fun c hc => (List.not_mem_nil hc).elim
  conserved := rfl

/-! ## The stack -/

namespace Chain

variable {next next' : ℕ → CountedNodePtr} {p : CountedNodePtr}

theorem linked : ∀ {l : List ℕ} {p : CountedNodePtr}, Chain next ext p l → Linked (fun n => (next n).ptr) p.ptr l
  | [], _, h => h
  | _ :: _, _, h => ⟨h.1, h.2.1, linked h.2.2.2⟩

theorem congr : ∀ {l : List ℕ} {p : CountedNodePtr}, Chain next ext p l →
    (∀ n ∈ l, next' n = next n ∧ ext' n = ext n) → Chain next' ext' p l
  | [], _, h, _ => h
  | n :: l, _, h, heq => by
    obtain ⟨hp, hn, hext, hl⟩ := h
    obtain ⟨hnext, hext'⟩ := heq n List.mem_cons_self
    refine ⟨hp, hn, hext'.trans hext, ?_⟩
    rw [hnext]
    exact congr hl fun m hm => heq m (List.mem_cons_of_mem n hm)

theorem uncons (h : Chain next ext p l) (hne : p.ptr ≠ 0) :
    ∃ rest, l = p.ptr :: rest ∧ ext p.ptr = p.externalCount ∧ Chain next ext (next p.ptr) rest := by
  cases l with
  | nil => exact absurd h hne
  | cons n l =>
    obtain ⟨rfl, -, hext, hl⟩ := h
    exact ⟨l, rfl, hext, hl⟩

end Chain

theorem nextOf_congr (h : heap' n = heap n) : nextOf heap' n = nextOf heap n := by rw [nextOf, h]; rfl

theorem valueOf_congr (h : heap' n = heap n) : valueOf heap' n = valueOf heap n := by rw [valueOf, h]; rfl

theorem nextOf_some {x : CountNode α} (h : heap n = some x) : nextOf heap n = x.next := by rw [nextOf, h]; rfl

theorem valueOf_some {x : CountNode α} (h : heap n = some x) : valueOf heap n = x.data := by rw [valueOf, h]; rfl

theorem values_congr (h : ∀ n ∈ l, valueOf heap' n = valueOf heap n) : values heap' l = values heap l := by
  unfold values
  rw [List.filterMap_congr h]

/-! ## Over a move -/

/-- A call that does not own the node, or still says the same of it. -/
theorem NodeOk.set {node : Option (CountNode α)} {r : ℕ} {e : ℤ} {o : Owner} (h : NodeOk calls n node r e o)
    (hc : calls[i]? = some c)
    (hkeep : o = .call i → c.owned = some n → c'.owned = some n ∧ ∀ x, c.Keeps x r → c'.Keeps x r) :
    NodeOk (calls.set i c') n node r e o := by
  cases o with
  | free => exact h
  | stack => exact h
  | shared => exact h
  | call j =>
    obtain ⟨x, d, hx, hd, howned, hkeeps⟩ := h
    by_cases hij : i = j
    · subst hij
      rw [hc] at hd
      cases hd
      obtain ⟨howned', hkeeps'⟩ := hkeep rfl howned
      obtain ⟨hlt, -⟩ := List.getElem?_eq_some_iff.1 hc
      exact ⟨x, c', hx, List.getElem?_set_self hlt, howned', hkeeps' x hkeeps⟩
    · exact ⟨x, d, hx, by rw [List.getElem?_set_ne hij, hd], howned, hkeeps⟩

theorem hand_congr (h : ∀ n, c.owned = some n → valueOf heap' n = valueOf heap n) : c.hand heap' = c.hand heap := by
  cases c with
  | push data pc => rfl
  | pop pc =>
    cases pc with
    | swap oldHead =>
      rw [Call.hand, Call.hand, h oldHead.ptr rfl]
    | _ => rfl

/-- A move that concerns the node `n` only. -/
theorem Inv.move (h : Inv s calls owner ext stack) (hc : calls[i]? = some c) (n : ℕ)
    (hheap : ∀ m, m ≠ n → s'.heap m = s.heap m) (howner : ∀ m, m ≠ n → owner' m = owner m)
    (hext : ∀ m, m ≠ n → ext' m = ext m) (hrefs : ∀ m, m ≠ n → c'.refs m = c.refs m)
    (howned : ∀ m, c.owned = some m → m = n) (howned' : ∀ m, c'.owned = some m → m = n ∧ owner' n = .call i)
    (hothers : ∀ j, j ≠ i → owner n = .call j → owner' n = .call j)
    (hnull : owner' 0 = .free) (hchain : Chain (nextOf s'.heap) ext' s'.head stack')
    (hmem : ∀ n, n ∈ stack' ↔ owner' n = .stack)
    (hnode : NodeOk (calls.set i c') n (s'.heap n) (Calls.total (Call.refs n) (calls.set i c')) (ext' n) (owner' n))
    (hnext : owner' n = .stack →
      owner n = .stack ∧ nextOf s'.heap n = nextOf s.heap n ∨ Calls.total (Call.refs n) calls = 0)
    (hfront : ∀ oldHead next, c' ≠ .pop (.casHead oldHead next)) (hsound : c'.failed = false)
    (hvalue : owner n ≠ .call i → owner n ≠ .free → valueOf s'.heap n = valueOf s.heap n)
    (hvalues : c'.put + c.hand s.heap + values s.heap stack = c.put + c'.hand s'.heap + values s'.heap stack') :
    Inv s' (calls.set i c') owner' ext' stack' := by
  refine ⟨hnull, hchain, hmem, fun m => ?_, fun j d m hd hm => ?_, fun oldHead next hd hstack => ?_,
    Calls.forall_mem_set h.sound hsound, ?_⟩
  · by_cases hmn : m = n
    · rw [hmn]
      exact hnode
    · rw [hheap m hmn, howner m hmn, hext m hmn, Calls.total_set_same hc (hrefs m hmn)]
      exact (h.node m).set hc fun _ ho => absurd (howned m ho) hmn
  · rcases Calls.getElem?_set_cases hd with ⟨rfl, rfl⟩ | ⟨hji, hd⟩
    · obtain ⟨rfl, ho⟩ := howned' m hm
      exact ho
    · have hold := h.own j d m hd hm
      by_cases hmn : m = n
      · rw [hmn] at hold ⊢
        exact hothers j hji hold
      · rw [howner m hmn]
        exact hold
  · rcases Calls.mem_set hd with he | ⟨j, hji, hj⟩
    · exact absurd he.symm (hfront oldHead next)
    · by_cases hmn : oldHead.ptr = n
      · rw [hmn] at hstack ⊢
        rcases hnext hstack with ⟨hold, heq⟩ | hzero
        · rw [heq, ← hmn]
          rw [← hmn] at hold
          exact h.front oldHead next (List.mem_of_getElem? hj) hold
        · have hone := Calls.le_total (f := Call.refs n) hj
          rw [hzero, Call.refs, if_pos (by rw [← hmn]; rfl)] at hone
          omega
      · rw [howner _ hmn] at hstack
        rw [nextOf_congr (hheap _ hmn)]
        exact h.front oldHead next (List.mem_of_getElem? hj) hstack
  · refine Calls.conserved_move h.conserved (Calls.total_set hc) (Calls.total_set_congr hc fun j d hji hd => ?_) hvalues
    refine hand_congr fun m hm => ?_
    by_cases hmn : m = n
    · have hold := h.own j d m hd hm
      rw [hmn] at hold ⊢
      refine hvalue ?_ ?_
      · rw [hold]
        exact fun he => hji (Owner.call.inj he)
      · rw [hold]
        exact fun he => (by cases he)
    · exact valueOf_congr (hheap m hmn)

/-- A move that leaves the stack and all references as they are. -/
theorem Inv.quiet (h : Inv s calls owner ext stack) (hc : calls[i]? = some c) (hholds : c'.holds = c.holds)
    (howned : c'.owned = c.owned) (hkeeps : ∀ x r, c.Keeps x r → c'.Keeps x r)
    (hfront : ∀ oldHead next, c' = .pop (.casHead oldHead next) → nextOf s.heap oldHead.ptr = next)
    (hsound : c'.failed = false) (hvalues : c'.put + c.hand s.heap = c.put + c'.hand s.heap) :
    Inv s (calls.set i c') owner ext stack := by
  have hrefs : ∀ m, c'.refs m = c.refs m := fun m => by rw [Call.refs, Call.refs, hholds]
  refine { h with node := fun m => ?_, own := fun j d m hd hm => ?_, front := fun oldHead next hd hstack => ?_,
                  sound := Calls.forall_mem_set h.sound hsound, conserved := ?_ }
  · rw [Calls.total_set_same hc (hrefs m)]
    exact (h.node m).set hc fun _ ho => ⟨howned.trans ho, fun x => hkeeps x _⟩
  · rcases Calls.getElem?_set_cases hd with ⟨rfl, rfl⟩ | ⟨-, hd⟩
    · rw [howned] at hm
      exact h.own j c m hc hm
    · exact h.own j d m hd hm
  · rcases Calls.mem_set hd with he | ⟨j, -, hj⟩
    · exact hfront oldHead next he.symm
    · exact h.front oldHead next (List.mem_of_getElem? hj) hstack
  · exact Calls.conserved_move h.conserved (Calls.total_set hc) (Calls.total_set hc) (by rw [hvalues])

/-- A call that has nothing yet. -/
theorem Inv.enter (h : Inv s calls owner ext stack) (hholds : c.holds = none) (howned : c.owned = none)
    (hsound : c.failed = false) (hput : c.put = 0) (hhand : c.hand s.heap = 0) :
    Inv s (calls ++ [c]) owner ext stack := by
  refine { h with node := fun m => ?_, own := fun j d m hd hm => ?_, front := fun oldHead next hd hstack => ?_,
                  sound := fun d hd => ?_, conserved := ?_ }
  · have hrefs : c.refs m = 0 := by
      rw [Call.refs, hholds]
      rfl
    rw [Calls.total_concat, hrefs, Nat.add_zero]
    have hold := h.node m
    cases ho : owner m with
    | call j =>
      rw [ho] at hold
      obtain ⟨x, d, hx, hd, howned, hkeeps⟩ := hold
      obtain ⟨hlt, -⟩ := List.getElem?_eq_some_iff.1 hd
      exact ⟨x, d, hx, by rw [List.getElem?_append_left hlt, hd], howned, hkeeps⟩
    | _ =>
      rw [ho] at hold
      exact hold
  · rcases Calls.getElem?_concat_cases hd with hd | ⟨-, rfl⟩
    · exact h.own j d m hd hm
    · rw [howned] at hm
      cases hm
  · rcases List.mem_append.1 hd with hd | hd
    · exact h.front oldHead next hd hstack
    · rw [← List.mem_singleton.1 hd] at hholds
      cases hholds
  · rcases List.mem_append.1 hd with hd | hd
    · exact h.sound d hd
    · rw [List.mem_singleton.1 hd]
      exact hsound
  · rw [Calls.total_concat, Calls.total_concat, h.conserved, hput, hhand, add_zero, add_zero]

/-! ## Kinds of moves -/

theorem update_cases {β : Type} (f : ℕ → β) (n m : ℕ) (b : β) :
    m = n ∧ Function.update f n b m = b ∨ m ≠ n ∧ Function.update f n b m = f m := by
  by_cases he : m = n
  · rw [he]
    exact .inl ⟨rfl, Function.update_self ..⟩
  · exact .inr ⟨he, Function.update_of_ne he _ _⟩

/-- A node is written, and may change hands. -/
theorem Inv.rewrite {x : CountNode α} {o : Owner} (h : Inv s calls owner ext stack) (hc : calls[i]? = some c)
    (hne : n ≠ 0) (hrefs : ∀ m, m ≠ n → c'.refs m = c.refs m) (howned : ∀ m, c.owned = some m → m = n)
    (howned' : ∀ m, c'.owned = some m → m = n ∧ o = .call i) (hothers : ∀ j, j ≠ i → owner n = .call j → o = .call j)
    (hstack : o = .stack ↔ owner n = .stack) (hnext : owner n = .stack → x.next = nextOf s.heap n)
    (hnode : NodeOk (calls.set i c') n (some x) (Calls.total (Call.refs n) (calls.set i c')) (ext n) o)
    (hfront : ∀ oldHead next, c' ≠ .pop (.casHead oldHead next)) (hsound : c'.failed = false)
    (hvalue : owner n ≠ .call i → owner n ≠ .free → x.data = valueOf s.heap n)
    (hvalues : c'.put + c.hand s.heap = c.put + c'.hand (Function.update s.heap n (some x))) :
    Inv (s.write n x) (calls.set i c') (Function.update owner n o) ext stack := by
  have hself : Function.update s.heap n (some x) n = some x := Function.update_self ..
  have hheap : ∀ m, m ≠ n → Function.update s.heap n (some x) m = s.heap m := fun m hm => Function.update_of_ne hm _ _
  have honstack : ∀ m ∈ stack, nextOf (Function.update s.heap n (some x)) m = nextOf s.heap m ∧
      valueOf (Function.update s.heap n (some x)) m = valueOf s.heap m := by
    intro m hm
    by_cases hmn : m = n
    · have ho := (h.mem_stack m).1 hm
      rw [hmn] at ho ⊢
      rw [nextOf_some hself, valueOf_some hself]
      refine ⟨hnext ho, hvalue ?_ ?_⟩
      · rw [ho]
        simp
      · rw [ho]
        simp
    · exact ⟨nextOf_congr (hheap m hmn), valueOf_congr (hheap m hmn)⟩
  refine h.move hc n hheap (fun m hm => Function.update_of_ne hm _ _) (fun _ _ => rfl) hrefs howned (fun m hm => ?_)
    (fun j hji hj => ?_) ?_ (h.chain.congr fun m hm => ⟨(honstack m hm).1, rfl⟩) (fun m => ?_) ?_ (fun ho => .inl ?_)
    hfront hsound (fun hi hfree => ?_) ?_
  · rw [Function.update_self]
    exact howned' m hm
  · rw [Function.update_self]
    exact hothers j hji hj
  · rw [Function.update_of_ne hne.symm]
    exact h.null
  · rcases update_cases owner n m o with ⟨rfl, he⟩ | ⟨-, he⟩
    · rw [he, hstack]
      exact h.mem_stack m
    · rw [he]
      exact h.mem_stack m
  · show NodeOk _ n (Function.update s.heap n (some x) n) _ _ _
    rw [hself, Function.update_self]
    exact hnode
  · rw [Function.update_self, hstack] at ho
    refine ⟨ho, ?_⟩
    rw [show nextOf (s.write n x).heap n = x.next from nextOf_some hself]
    exact hnext ho
  · rw [show valueOf (s.write n x).heap n = x.data from valueOf_some hself]
    exact hvalue hi hfree
  · show c'.put + _ + _ = c.put + c'.hand (Function.update s.heap n (some x)) +
      values (Function.update s.heap n (some x)) stack
    rw [hvalues, values_congr fun m hm => (honstack m hm).2]

/-- The mover deletes its own node, to which no reference is held. -/
theorem Inv.frees (h : Inv s calls owner ext stack) (hc : calls[i]? = some c) (howner : owner n = .call i)
    (hzero : Calls.total (Call.refs n) calls = 0) (hrefs : ∀ m, c'.refs m = c.refs m)
    (howned : ∀ m, c.owned = some m → m = n) (howned' : c'.owned = none)
    (hfront : ∀ oldHead next, c' ≠ .pop (.casHead oldHead next)) (hsound : c'.failed = false)
    (hvalues : c'.put + c.hand s.heap = c.put + c'.hand (Function.update s.heap n none)) :
    Inv (s.free n) (calls.set i c') (Function.update owner n .free) ext stack := by
  have hheap : ∀ m, m ≠ n → Function.update s.heap n none m = s.heap m := fun m hm => Function.update_of_ne hm _ _
  have hnot : ∀ m ∈ stack, m ≠ n := by
    intro m hm he
    rw [h.mem_stack, he, howner] at hm
    cases hm
  refine h.move hc n hheap (fun m hm => Function.update_of_ne hm _ _) (fun _ _ => rfl) (fun m _ => hrefs m) howned
    (fun m hm => ?_) (fun j hji hj => ?_) ?_ (h.chain.congr fun m hm => ⟨nextOf_congr (hheap m (hnot m hm)), rfl⟩)
    (fun m => ?_) ?_ (fun ho => ?_) hfront hsound (fun hi _ => absurd howner hi) ?_
  · rw [howned'] at hm
    cases hm
  · rw [howner] at hj
    exact absurd (Owner.call.inj hj).symm hji
  · rcases update_cases owner n 0 .free with ⟨-, he⟩ | ⟨-, he⟩
    · exact he
    · rw [he]
      exact h.null
  · rcases update_cases owner n m .free with ⟨rfl, he⟩ | ⟨-, he⟩
    · rw [he, h.mem_stack, howner]
      simp
    · rw [he]
      exact h.mem_stack m
  · rw [Function.update_self, Calls.total_set_same hc (hrefs n)]
    exact ⟨Function.update_self .., hzero⟩
  · rw [Function.update_self] at ho
    cases ho
  · show c'.put + _ + _ = c.put + c'.hand (Function.update s.heap n none) + values (Function.update s.heap n none) stack
    rw [hvalues, values_congr fun m hm => valueOf_congr (hheap m (hnot m hm))]

/-- A node to which a reference is held is there. -/
theorem Inv.held (h : Inv s calls owner ext stack) (hc : calls[i]? = some c) (hn : c.holds = some n) :
    n ≠ 0 ∧ owner n ≠ .free ∧ 0 < Calls.total (Call.refs n) calls ∧ ∃ x, s.heap n = some x := by
  have hpos : 0 < Calls.total (Call.refs n) calls := by
    have hone := Calls.le_total (f := Call.refs n) hc
    rw [Call.refs, if_pos hn] at hone
    omega
  have hnode := h.node n
  have hfree : owner n ≠ .free := by
    intro ho
    rw [ho] at hnode
    have := hnode.2
    omega
  refine ⟨fun hzero => hfree (by rw [hzero]; exact h.null), hfree, hpos, ?_⟩
  cases ho : owner n with
  | free => exact absurd ho hfree
  | stack =>
    rw [ho] at hnode
    obtain ⟨x, hx, -⟩ := hnode
    exact ⟨x, hx⟩
  | shared =>
    rw [ho] at hnode
    obtain ⟨x, hx, -⟩ := hnode
    exact ⟨x, hx⟩
  | call j =>
    rw [ho] at hnode
    obtain ⟨x, -, hx, -⟩ := hnode
    exact ⟨x, hx⟩

/-- The mover's own node, and what it says of it. -/
theorem Inv.mine (h : Inv s calls owner ext stack) (hc : calls[i]? = some c) (hn : c.owned = some n) :
    n ≠ 0 ∧ owner n = .call i ∧ ∃ x, s.heap n = some x ∧ c.Keeps x (Calls.total (Call.refs n) calls) := by
  have howner := h.own i c n hc hn
  have hnode := h.node n
  rw [howner] at hnode
  obtain ⟨x, d, hx, hd, -, hkeeps⟩ := hnode
  rw [hc] at hd
  cases hd
  refine ⟨fun hzero => ?_, howner, x, hx, hkeeps⟩
  rw [hzero, h.null] at howner
  cases howner

end Learncc.RefCountStack
