/-
Whose every node of a `threadsafe_stack_uk` is: on the stack, waiting to be
deleted, or some call's own. `Inv` says so of a state; `Inv.quiet` and
`Inv.move` keep it over a move that leaves the nodes as they are and over one
that changes the mover's own or passes nodes on.

A pop looks at a node that may be anybody's by then. What keeps the node from
being deleted is that its owner does not hide it (`Hides`): a call hides a node
only if it is new, or if no other call was in a pop when it decided to delete.
-/
import Learncc.Public.StackUk

namespace Learncc.ThreadsafeStackUk

variable {α : Type}

inductive Owner
  | free
  | stack
  | pending
  | call (i : ℕ)
deriving Repr, DecidableEq

def nextOf (heap : ℕ → Option (StackNode α)) (n : ℕ) : ℕ := ((heap n).map StackNode.next).getD 0

def valueOf (heap : ℕ → Option (StackNode α)) (n : ℕ) : Option α := (heap n).bind StackNode.data

def values (heap : ℕ → Option (StackNode α)) (l : List ℕ) : Multiset α := (l.filterMap (valueOf heap) : Multiset α)

namespace Call

/-- Whether `threads_in_pop` counts the call. -/
def inPop : Call α → ℕ
  | .pop .load | .pop .leaveEmpty | .pop (.readNext _) | .pop (.cas _ _) | .pop (.swap _) | .pop (.check _ _)
  | .pop (.exchange _ _) | .pop (.dec _ _ _) | .pop (.chainLoad none _ _ _) | .pop (.chainStore none _ _ _ _)
  | .pop (.chainCas none _ _ _) | .pop (.leave _) => 1
  | _ => 0

/-- The nodes that are the call's own, in order. -/
def Private (heap : ℕ → Option (StackNode α)) : Call α → List ℕ → Prop
  | .push value (.load n), l | .push value (.cas n), l => l = [n] ∧ valueOf heap n = some value
  | .pop (.swap old), l => l = [old] ∧ (valueOf heap old).isSome
  | .pop (.check old _), l | .pop (.exchange old _), l | .pop (.deleteOld old _), l => l = [old]
  | .pop (.dec old _ toDelete), l => ∃ m, l = old :: m ∧ Linked (nextOf heap) toDelete m
  | .pop (.readDelete old _ n), l => n ≠ 0 ∧ ∃ m, l = old :: m ∧ Linked (nextOf heap) n m
  | .pop (.delete old _ n next), l => ∃ m, l = old :: n :: m ∧ Linked (nextOf heap) next m
  | .pop (.walk old _ first last), l => ∃ m, l = old :: m ∧ Linked (nextOf heap) first m ∧ last ∈ m
  | .pop (.chainLoad old _ first last), l | .pop (.chainStore old _ first last _), l
  | .pop (.chainCas old _ first last), l =>
    ∃ m, l = old.toList ++ m ∧ Linked (Function.update (nextOf heap) last 0) first m ∧ last ∈ m
  | .push _ .undefined, _ | .pop .undefined, _ => False
  | _, l => l = []

/-- Of its own nodes, those that no other call may look at. -/
def Hides : Call α → ℕ → Prop
  | .push _ _, _ | .pop (.readDelete _ _ _), _ | .pop (.delete _ _ _ _), _ => True
  | .pop (.exchange old _), n | .pop (.dec old _ _), n | .pop (.walk old _ _ _), n
  | .pop (.deleteOld old _), n => n = old
  | .pop (.chainLoad old _ _ _), n | .pop (.chainStore old _ _ _ _), n | .pop (.chainCas old _ _ _), n => old = some n
  | _, _ => False

/-- The node that a pop looks at without owning it. -/
def holds : Call α → Option ℕ
  | .pop (.readNext old) | .pop (.cas old _) => some old
  | _ => none

/-- The value a pop has taken off the stack. -/
def hand (heap : ℕ → Option (StackNode α)) : Call α → Multiset α
  | .pop (.swap old) => ((valueOf heap old).toList : Multiset α)
  | .pop (.check _ res) | .pop (.exchange _ res) | .pop (.dec _ res _) | .pop (.readDelete _ res _)
  | .pop (.delete _ res _ _) | .pop (.walk _ res _ _) | .pop (.chainLoad _ res _ _) | .pop (.chainStore _ res _ _ _)
  | .pop (.chainCas _ res _ _) | .pop (.deleteOld _ res) | .pop (.leave res) | .pop (.returned res) =>
    (res.toList : Multiset α)
  | _ => 0

end Call

/-- The node is there, and its owner lets others look at it. -/
structure Guarded (calls : List (Call α)) (owner : ℕ → Owner) (n : ℕ) : Prop where
  allocated : owner n ≠ .free
  shown : ∀ i c, calls[i]? = some c → owner n = .call i → ¬ c.Hides n

structure Inv (s : ThreadsafeStackUk α) (calls : List (Call α)) (owner : ℕ → Owner) (stack pend : List ℕ) : Prop where
  null : owner 0 = .free
  allocated : ∀ n, s.heap n = none ↔ owner n = .free
  stack_linked : Linked (nextOf s.heap) s.head stack
  mem_stack : ∀ n, n ∈ stack ↔ owner n = .stack
  stack_value : ∀ n ∈ stack, (valueOf s.heap n).isSome
  pend_linked : Linked (nextOf s.heap) s.toBeDeleted pend
  mem_pend : ∀ n, n ∈ pend ↔ owner n = .pending
  owner_lt : ∀ n i, owner n = .call i → i < calls.length
  own : ∀ i c, calls[i]? = some c → ∃ l, c.Private s.heap l ∧ l.Nodup ∧ ∀ n, n ∈ l ↔ owner n = .call i
  held : ∀ c ∈ calls, ∀ n, c.holds = some n → Guarded calls owner n
  front : ∀ n next, Call.pop (.cas n next) ∈ calls → owner n = .stack → nextOf s.heap n = next
  count : s.threadsInPop = Calls.total Call.inPop calls
  conserved : Calls.total Call.put calls = Calls.total (Call.hand s.heap) calls + values s.heap stack

variable {s s' : ThreadsafeStackUk α} {calls : List (Call α)} {owner owner' : ℕ → Owner}
  {stack stack' pend pend' : List ℕ} {c c' d : Call α} {i j : ℕ} {heap heap' : ℕ → Option (StackNode α)} {l l' : List ℕ}

theorem inv_start : Inv (init : ThreadsafeStackUk α) [] (fun _ => .free) [] [] where
  null := rfl
  allocated := fun _ => ⟨fun _ => rfl, fun _ => rfl⟩
  stack_linked := rfl
  mem_stack := fun n => by simp
  stack_value := fun _ hn => (List.not_mem_nil hn).elim
  pend_linked := rfl
  mem_pend := fun n => by simp
  owner_lt := fun _ _ h => (by cases h)
  own := fun i c hc => by simp at hc
  held := fun c hc => (List.not_mem_nil hc).elim
  front := fun n next hm => (List.not_mem_nil hm).elim
  count := rfl
  conserved := rfl

/-! ## What depends on whose nodes -/

theorem nextOf_congr {n : ℕ} (h : heap' n = heap n) : nextOf heap' n = nextOf heap n := by rw [nextOf, h]; rfl

theorem valueOf_congr {n : ℕ} (h : heap' n = heap n) : valueOf heap' n = valueOf heap n := by rw [valueOf, h]; rfl

theorem values_congr (h : ∀ n ∈ l, heap' n = heap n) : values heap' l = values heap l := by
  unfold values
  rw [List.filterMap_congr fun n hn => valueOf_congr (h n hn)]

/-- What a call has to say of its own nodes depends on them only. -/
theorem Call.Private.congr (hp : c.Private heap l) (h : ∀ n ∈ l, heap' n = heap n) : c.Private heap' l := by
  have hnext : ∀ n ∈ l, nextOf heap' n = nextOf heap n := fun n hn => nextOf_congr (h n hn)
  cases c with
  | push value pc =>
    cases pc with
    | load n =>
      obtain ⟨rfl, hv⟩ := hp
      exact ⟨rfl, (valueOf_congr (h n (by simp))).trans hv⟩
    | cas n =>
      obtain ⟨rfl, hv⟩ := hp
      exact ⟨rfl, (valueOf_congr (h n (by simp))).trans hv⟩
    | alloc => exact hp
    | returned => exact hp
    | undefined => exact hp
  | pop pc =>
    have hcut : ∀ {old : Option ℕ} {first last : ℕ},
        (∃ m, l = old.toList ++ m ∧ Linked (Function.update (nextOf heap) last 0) first m ∧ last ∈ m) →
        ∃ m, l = old.toList ++ m ∧ Linked (Function.update (nextOf heap') last 0) first m ∧ last ∈ m := by
      intro old first last hm
      obtain ⟨m, rfl, hm, hlast⟩ := hm
      refine ⟨m, rfl, hm.congr fun n hn => ?_, hlast⟩
      by_cases hne : n = last
      · rw [hne, Function.update_self, Function.update_self]
      · rw [Function.update_of_ne hne, Function.update_of_ne hne]
        exact hnext n (List.mem_append_right _ hn)
    cases pc with
    | swap old =>
      obtain ⟨rfl, hv⟩ := hp
      refine ⟨rfl, ?_⟩
      rw [valueOf_congr (h old (by simp))]
      exact hv
    | dec old res toDelete =>
      obtain ⟨m, rfl, hm⟩ := hp
      exact ⟨m, rfl, hm.congr fun n hn => hnext n (List.mem_cons_of_mem _ hn)⟩
    | readDelete old res n =>
      obtain ⟨hn, m, rfl, hm⟩ := hp
      exact ⟨hn, m, rfl, hm.congr fun n hn => hnext n (List.mem_cons_of_mem _ hn)⟩
    | delete old res n next =>
      obtain ⟨m, rfl, hm⟩ := hp
      exact ⟨m, rfl, hm.congr fun n hn => hnext n (List.mem_cons_of_mem _ (List.mem_cons_of_mem _ hn))⟩
    | walk old res first last =>
      obtain ⟨m, rfl, hm, hlast⟩ := hp
      exact ⟨m, rfl, hm.congr fun n hn => hnext n (List.mem_cons_of_mem _ hn), hlast⟩
    | chainLoad old res first last => exact hcut hp
    | chainStore old res first last next => exact hcut hp
    | chainCas old res first last => exact hcut hp
    | _ => exact hp

/-- The value in hand depends on the call's own nodes only. -/
theorem Call.hand_congr (hp : c.Private heap l) (h : ∀ n ∈ l, heap' n = heap n) : c.hand heap' = c.hand heap := by
  cases c with
  | push value pc => rfl
  | pop pc =>
    cases pc with
    | swap old =>
      obtain ⟨rfl, -⟩ := hp
      show (_ : Multiset α) = _
      rw [Call.hand, valueOf_congr (h old (by simp))]
      rfl
    | _ => rfl

/-! ## Over a move -/

/-- The node is new, or the call `i` hides it. -/
def Unseen (owner : ℕ → Owner) (i : ℕ) (c : Call α) (n : ℕ) : Prop :=
  owner n = .free ∨ owner n = .call i ∧ c.Hides n

theorem Guarded.not_unseen {n : ℕ} (hg : Guarded calls owner n) (hc : calls[i]? = some c) : ¬ Unseen owner i c n := by
  intro h
  rcases h with h | ⟨h, hhides⟩
  · exact hg.allocated h
  · exact hg.shown i c hc h hhides

/-- What the mover may do about the nodes of others: it may delete only what it
hides, put on the stack only what it hides or a new node, and hide more of its
own only while no other call is in a pop. -/
structure Passes (calls : List (Call α)) (owner owner' : ℕ → Owner) (i : ℕ) (c c' : Call α) : Prop where
  freed : ∀ n, owner' n = .free → Unseen owner i c n
  pushed : ∀ n, owner' n = .stack → owner n = .stack ∨ Unseen owner i c n
  hidden : (∀ n, owner' n = .call i → c'.Hides n → Unseen owner i c n) ∨
    ∀ j d, j ≠ i → calls[j]? = some d → d.inPop = 0
  others : ∀ j, j ≠ i → ∀ n, owner' n = .call j ↔ owner n = .call j

theorem Call.inPop_of_holds {n : ℕ} (h : c.holds = some n) : c.inPop = 1 := by
  cases c with
  | push value pc => cases h
  | pop pc =>
    cases pc with
    | readNext old => rfl
    | cas old next => rfl
    | _ => cases h

theorem Call.not_hides_of_holds {n : ℕ} (h : c.holds = some n) (m : ℕ) : ¬ c.Hides m := by
  cases c with
  | push value pc => cases h
  | pop pc =>
    cases pc with
    | readNext old => exact id
    | cas old next => exact id
    | _ => cases h

/-- A node another call looks at stays guarded. -/
theorem Guarded.passes {n : ℕ} (hg : Guarded calls owner n) (hp : Passes calls owner owner' i c c')
    (hc : calls[i]? = some c) (hji : j ≠ i) (hd : calls[j]? = some d) (hn : d.holds = some n) :
    Guarded (calls.set i c') owner' n := by
  refine ⟨fun hfree => ?_, fun k e hk howner => ?_⟩
  · exact hg.not_unseen hc (hp.freed n hfree)
  · rcases Calls.getElem?_set_cases hk with ⟨rfl, rfl⟩ | ⟨hki, hk⟩
    · intro hhides
      rcases hp.hidden with hh | hnone
      · exact hg.not_unseen hc (hh n howner hhides)
      · have hone := Call.inPop_of_holds hn
        rw [hnone j d hji hd] at hone
        cases hone
    · exact hg.shown k e hk ((hp.others k hki n).1 howner)

/-- A move that changes only the mover's own nodes and passes some on. -/
theorem Inv.move (h : Inv s calls owner stack pend) (hc : calls[i]? = some c)
    (hpass : Passes calls owner owner' i c c')
    (hheap : ∀ n, owner n ≠ .call i → owner n ≠ .free → s'.heap n = s.heap n)
    (hnull : owner' 0 = .free) (halloc : ∀ n, s'.heap n = none ↔ owner' n = .free)
    (hstack : Linked (nextOf s'.heap) s'.head stack') (hmemstack : ∀ n, n ∈ stack' ↔ owner' n = .stack)
    (hvalue : ∀ n ∈ stack', (valueOf s'.heap n).isSome)
    (hpend : Linked (nextOf s'.heap) s'.toBeDeleted pend') (hmempend : ∀ n, n ∈ pend' ↔ owner' n = .pending)
    (hown : ∃ l, c'.Private s'.heap l ∧ l.Nodup ∧ ∀ n, n ∈ l ↔ owner' n = .call i)
    (hholds : c'.holds = none)
    (hthreads : s'.threadsInPop + c.inPop = s.threadsInPop + c'.inPop)
    (hvalues : c'.put + c.hand s.heap + values s.heap stack = c.put + c'.hand s'.heap + values s'.heap stack') :
    Inv s' (calls.set i c') owner' stack' pend' := by
  -- The nodes of another call are as they were.
  have hother : ∀ j d, j ≠ i → calls[j]? = some d →
      ∃ l, d.Private s.heap l ∧ l.Nodup ∧ (∀ n, n ∈ l ↔ owner n = .call j) ∧ ∀ n ∈ l, s'.heap n = s.heap n := by
    intro j d hji hd
    obtain ⟨l, hp, hnd, hl⟩ := h.own j d hd
    refine ⟨l, hp, hnd, hl, fun n hn => hheap n ?_ ?_⟩
    · rw [(hl n).1 hn]
      intro he
      cases he
      exact hji rfl
    · rw [(hl n).1 hn]
      intro he
      cases he
  refine ⟨hnull, halloc, hstack, hmemstack, hvalue, hpend, hmempend, fun n j howner => ?_, fun j d hd => ?_,
    fun d hd n hn => ?_,
    fun n next hm howner => ?_, ?_, ?_⟩
  · rw [List.length_set]
    by_cases hji : j = i
    · obtain ⟨hlt, -⟩ := List.getElem?_eq_some_iff.1 hc
      rw [hji]
      exact hlt
    · exact h.owner_lt n j ((hpass.others j hji n).1 howner)
  · rcases Calls.getElem?_set_cases hd with ⟨rfl, rfl⟩ | ⟨hji, hd⟩
    · exact hown
    · obtain ⟨l, hp, hnd, hl, hsame⟩ := hother j d hji hd
      exact ⟨l, hp.congr hsame, hnd, fun n => (hl n).trans (hpass.others j hji n).symm⟩
  · rcases Calls.mem_set hd with rfl | ⟨j, hji, hj⟩
    · rw [hholds] at hn
      cases hn
    · exact (h.held d (List.mem_of_getElem? hj) n hn).passes hpass hc hji hj hn
  · rcases Calls.mem_set hm with rfl | ⟨j, hji, hj⟩
    · cases hholds
    · have hg := h.held _ (List.mem_of_getElem? hj) n rfl
      rcases hpass.pushed n howner with hold | hunseen
      · rw [nextOf_congr (hheap n (by rw [hold]; simp) (by rw [hold]; simp))]
        exact h.front n next (List.mem_of_getElem? hj) hold
      · exact absurd hunseen (hg.not_unseen hc)
  · have hset : Calls.total Call.inPop (calls.set i c') + _ = _ := Calls.total_set hc
    have hcount := h.count
    omega
  · refine Calls.conserved_move h.conserved (Calls.total_set hc) (Calls.total_set_congr hc fun j d hji hd => ?_) hvalues
    obtain ⟨l, hp, -, -, hsame⟩ := hother j d hji hd
    exact Call.hand_congr hp hsame

/-- A move that leaves all nodes as they are. -/
theorem Inv.quiet (h : Inv s calls owner stack pend) (hc : calls[i]? = some c) (threads : ℤ)
    (hpriv : ∀ l : List ℕ, (∀ n ∈ l, n ≠ 0) → c.Private s.heap l → c'.Private s.heap l)
    (hhides : (∀ n, c'.Hides n → c.Hides n) ∨ ∀ j d, j ≠ i → calls[j]? = some d → d.inPop = 0)
    (hholds : ∀ n, c'.holds = some n → owner n = .stack ∨ c.holds = some n)
    (hfront : ∀ n next, c' = .pop (.cas n next) → nextOf s.heap n = next)
    (hthreads : threads + c.inPop = s.threadsInPop + c'.inPop)
    (hvalues : c'.put + c.hand s.heap = c.put + c'.hand s.heap) :
    Inv { s with threadsInPop := threads } (calls.set i c') owner stack pend := by
  have hpass : Passes calls owner owner i c c' := by
    refine ⟨fun n hn => .inl hn, fun n hn => .inl hn, ?_, fun j _ n => Iff.rfl⟩
    exact hhides.imp_left fun hh n howner hn => Or.inr ⟨howner, hh n hn⟩
  refine { h with owner_lt := fun n j hn => ?_, own := fun j d hd => ?_, held := fun d hd n hn => ?_,
                  front := fun n next hm howner => ?_, count := ?_, conserved := ?_ }
  · rw [List.length_set]
    exact h.owner_lt n j hn
  · rcases Calls.getElem?_set_cases hd with ⟨rfl, rfl⟩ | ⟨-, hd⟩
    · obtain ⟨l, hp, hnd, hl⟩ := h.own j c hc
      refine ⟨l, hpriv l (fun n hn hzero => ?_) hp, hnd, hl⟩
      rw [hl, hzero, h.null] at hn
      cases hn
    · exact h.own j d hd
  · rcases Calls.mem_set hd with rfl | ⟨j, hji, hj⟩
    · have hg : (c.holds = some n → Guarded (calls.set i d) owner n) := by
        intro hold
        have hg := h.held c (List.mem_of_getElem? hc) n hold
        refine ⟨hg.allocated, fun k e hk howner => ?_⟩
        rcases Calls.getElem?_set_cases hk with ⟨rfl, rfl⟩ | ⟨-, hk⟩
        · exact Call.not_hides_of_holds hn n
        · exact hg.shown k e hk howner
      rcases hholds n hn with hstack | hold
      · refine ⟨fun hfree => ?_, fun k e _ howner => ?_⟩
        · rw [hstack] at hfree
          cases hfree
        · rw [hstack] at howner
          cases howner
      · exact hg hold
    · exact (h.held d (List.mem_of_getElem? hj) n hn).passes hpass hc hji hj hn
  · rcases Calls.mem_set hm with he | ⟨j, -, hj⟩
    · exact hfront n next he.symm
    · exact h.front n next (List.mem_of_getElem? hj) howner
  · have hset : Calls.total Call.inPop (calls.set i c') + _ = _ := Calls.total_set hc
    have hcount := h.count
    show threads = _
    omega
  · exact Calls.conserved_move h.conserved (Calls.total_set hc) (Calls.total_set hc) (by rw [hvalues])

/-- A call that has nothing yet. -/
theorem Inv.enter (h : Inv s calls owner stack pend) (hpriv : ∀ l : List ℕ, c.Private s.heap l ↔ l = [])
    (hholds : c.holds = none) (hinPop : c.inPop = 0) (hput : c.put = 0)
    (hhand : c.hand s.heap = 0) : Inv s (calls ++ [c]) owner stack pend := by
  have hnew : ∀ n, owner n ≠ .call calls.length := fun n hn => Nat.lt_irrefl _ (h.owner_lt n _ hn)
  have hguard : ∀ {n : ℕ}, Guarded calls owner n → Guarded (calls ++ [c]) owner n := by
    intro n hg
    refine ⟨hg.allocated, fun k e hk howner => ?_⟩
    rcases Calls.getElem?_concat_cases hk with hk | ⟨rfl, -⟩
    · exact hg.shown k e hk howner
    · exact absurd howner (hnew n)
  refine { h with owner_lt := fun n j hn => ?_, own := fun j d hd => ?_, held := fun d hd n hn => ?_,
                  front := fun n next hm howner => ?_, count := ?_, conserved := ?_ }
  · rw [List.length_append]
    exact Nat.lt_of_lt_of_le (h.owner_lt n j hn) (Nat.le_add_right _ _)
  · rcases Calls.getElem?_concat_cases hd with hd | ⟨rfl, rfl⟩
    · exact h.own j d hd
    · refine ⟨[], (hpriv []).2 rfl, List.nodup_nil, fun n => ?_⟩
      simp [hnew n]
  · rcases List.mem_append.1 hd with hd | hd
    · exact hguard (h.held d hd n hn)
    · rw [List.mem_singleton.1 hd, hholds] at hn
      cases hn
  · rcases List.mem_append.1 hm with hm | hm
    · exact h.front n next hm howner
    · rw [← List.mem_singleton.1 hm] at hholds
      cases hholds
  · rw [Calls.total_concat, h.count, hinPop, Nat.add_zero]
  · rw [Calls.total_concat, Calls.total_concat, h.conserved, hput, hhand, add_zero, add_zero]

/-! ## Kinds of moves -/

/-- Nothing is passed on. -/
theorem Passes.refl (hh : ∀ n, c'.Hides n → c.Hides n) : Passes calls owner owner i c c' :=
  ⟨fun _ hn => .inl hn, fun _ hn => .inl hn, .inl fun n howner hn => .inr ⟨howner, hh n hn⟩, fun _ _ _ => Iff.rfl⟩

/-- A node nobody else looks at becomes the mover's, goes to the stack or is
deleted. -/
theorem Passes.update {n : ℕ} {o : Owner} (hn : Unseen owner i c n) (ho : ∀ j, o = .call j → j = i)
    (hh : ∀ m, m ≠ n → owner m = .call i → c'.Hides m → c.Hides m) :
    Passes calls owner (Function.update owner n o) i c c' := by
  have hcases : ∀ m, m = n ∨ m ≠ n ∧ Function.update owner n o m = owner m := by
    intro m
    by_cases he : m = n
    · exact .inl he
    · exact .inr ⟨he, Function.update_of_ne he _ _⟩
  refine ⟨fun m hm => ?_, fun m hm => ?_, .inl fun m hm hhides => ?_, fun j hji m => ?_⟩
  · rcases hcases m with rfl | ⟨-, he⟩
    · exact hn
    · exact .inl (he.symm.trans hm)
  · rcases hcases m with rfl | ⟨-, he⟩
    · exact .inr hn
    · exact .inl (he.symm.trans hm)
  · rcases hcases m with rfl | ⟨hne, he⟩
    · exact hn
    · rw [he] at hm
      exact .inr ⟨hm, hh m hne hm hhides⟩
  · rcases hcases m with rfl | ⟨-, he⟩
    · rw [Function.update_self]
      refine ⟨fun h => absurd (ho j h) hji, fun h => ?_⟩
      rcases hn with hn | ⟨hn, -⟩
      · rw [hn] at h
        cases h
      · rw [hn] at h
        cases h
        exact (hji rfl).elim
    · rw [he]

theorem mem_iff_of_update {n m : ℕ} {o p : Owner} (hn : owner n ≠ p) (ho : o ≠ p) :
    Function.update owner n o m = p ↔ owner m = p := by
  by_cases he : m = n
  · rw [he, Function.update_self]
    exact ⟨fun h => absurd h ho, fun h => absurd h hn⟩
  · rw [Function.update_of_ne he]

/-- The nodes of a call, found by its place. -/
theorem Inv.nodes (h : Inv s calls owner stack pend) (hc : calls[i]? = some c) :
    ∃ l, c.Private s.heap l ∧ l.Nodup ∧ (∀ n, n ∈ l ↔ owner n = .call i) ∧ (∀ n ∈ l, n ≠ 0) ∧
      ∀ n ∈ l, ∃ node, s.heap n = some node := by
  obtain ⟨l, hp, hnd, hl⟩ := h.own i c hc
  refine ⟨l, hp, hnd, hl, fun n hn hzero => ?_, fun n hn => ?_⟩
  · rw [hl, hzero, h.null] at hn
    cases hn
  · rw [hl] at hn
    refine Option.ne_none_iff_exists'.1 fun hnone => ?_
    rw [(h.allocated n).1 hnone] at hn
    cases hn

/-- The mover writes a node of its own. -/
theorem Inv.rewrite {n : ℕ} (h : Inv s calls owner stack pend) (hc : calls[i]? = some c) (hn : owner n = .call i)
    (node : StackNode α)
    (hpriv : ∀ l : List ℕ, l.Nodup → c.Private s.heap l → c'.Private (Function.update s.heap n (some node)) l)
    (hhides : ∀ n, c'.Hides n → c.Hides n) (hholds : c'.holds = none) (hinPop : c'.inPop = c.inPop)
    (hvalues : c'.put + c.hand s.heap = c.put + c'.hand (Function.update s.heap n (some node))) :
    Inv (s.write n node) (calls.set i c') owner stack pend := by
  have hheap : ∀ m, owner m ≠ .call i → Function.update s.heap n (some node) m = s.heap m := by
    intro m hm
    refine Function.update_of_ne (fun he => hm ?_) _ _
    rw [he]
    exact hn
  have hstack : ∀ m ∈ stack, Function.update s.heap n (some node) m = s.heap m := by
    intro m hm
    refine hheap m ?_
    rw [(h.mem_stack m).1 hm]
    simp
  refine h.move hc (Passes.refl hhides) (fun m hm _ => hheap m hm) h.null (fun m => ?_)
    (h.stack_linked.congr fun m hm => nextOf_congr (hstack m hm)) h.mem_stack (fun m hm => ?_)
    (h.pend_linked.congr fun m hm => nextOf_congr (hheap m ?_)) h.mem_pend ?_ hholds ?_ ?_
  · show Function.update s.heap n (some node) m = none ↔ _
    by_cases he : m = n
    · rw [he, Function.update_self, hn]
      simp
    · rw [Function.update_of_ne he]
      exact h.allocated m
  · show (valueOf (Function.update s.heap n (some node)) m).isSome
    rw [valueOf_congr (hstack m hm)]
    exact h.stack_value m hm
  · rw [(h.mem_pend m).1 hm]
    simp
  · obtain ⟨l, hp, hnd, hl⟩ := h.own i c hc
    exact ⟨l, hpriv l hnd hp, hnd, hl⟩
  · rw [hinPop]
    rfl
  · show c'.put + _ + _ = c.put + c'.hand (Function.update s.heap n (some node)) +
      values (Function.update s.heap n (some node)) stack
    rw [hvalues, values_congr hstack]

/-- While a counted call is the only one in a pop, the others are in none. -/
theorem Inv.alone (h : Inv s calls owner stack pend) (hc : calls[i]? = some c) (hin : c.inPop = 1)
    (hone : s.threadsInPop = 1) : ∀ j d, j ≠ i → calls[j]? = some d → d.inPop = 0 := by
  intro j d hji hd
  have hcount := h.count
  have hle := Calls.add_le_total (f := Call.inPop) hc hd (Ne.symm hji)
  omega

end Learncc.ThreadsafeStackUk
