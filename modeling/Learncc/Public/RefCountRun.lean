/-
Every move of a call on a `ref_count_stack` keeps the owners and the counts of
the nodes, so in every run no call reads or deletes a node that has been
deleted, `empty_stack` is never thrown, no value is given out twice, and with no
call under way what is left is on the stack.
-/
import Learncc.Public.RefCountOwners

namespace Learncc.RefCountStack

variable {α : Type} {s s' : RefCountStack α} {calls : List (Call α)} {owner : ℕ → Owner} {ext : ℕ → ℤ}
  {stack : List ℕ} {c : Call α} {i n : ℕ} {data : α} {choice : Choice}

/-- Some owners, some counts in the pointers, some stack. -/
def Ok (s : RefCountStack α) (calls : List (Call α)) : Prop := ∃ owner ext stack, Inv s calls owner ext stack

/-! ## push -/

theorem push_alloc (h : Inv s calls owner ext stack) (hc : calls[i]? = some (.push data .alloc)) {a : ℕ} (ha : a ≠ 0)
    (hfree : s.heap a = none) : Ok (s.write a ⟨some data, 0, ⟨0, 0⟩⟩) (calls.set i (.push data (.load a))) := by
  have hnode := h.node a
  have howner : owner a = .free := by
    cases ho : owner a with
    | free => rfl
    | stack =>
      rw [ho] at hnode
      obtain ⟨x, hx, -⟩ := hnode
      rw [hfree] at hx
      cases hx
    | shared =>
      rw [ho] at hnode
      obtain ⟨x, hx, -⟩ := hnode
      rw [hfree] at hx
      cases hx
    | call j =>
      rw [ho] at hnode
      obtain ⟨x, -, hx, -⟩ := hnode
      rw [hfree] at hx
      cases hx
  rw [howner] at hnode
  have hrefs : Calls.total (Call.refs a) (calls.set i (.push data (.load a))) = 0 :=
    (Calls.total_set_same hc (by rfl)).trans hnode.2
  obtain ⟨hlt, -⟩ := List.getElem?_eq_some_iff.1 hc
  refine ⟨_, ext, stack, h.rewrite (o := .call i) hc ha (fun _ _ => rfl) (fun m hm => (by cases hm))
    (fun m hm => ⟨(Option.some.inj hm).symm, rfl⟩) (fun j _ hj => ?_) ?_ (fun ho => ?_)
    ⟨_, _, rfl, List.getElem?_set_self hlt, rfl, rfl, rfl, hrefs⟩ (fun _ _ he => (by cases he)) rfl
    (fun _ hf => absurd howner hf) rfl⟩
  · rw [howner] at hj
    cases hj
  · rw [howner]
    simp
  · rw [howner] at ho
    cases ho

/-- A push writes `head` into its node. -/
theorem push_load {pc : PushPc} {x : CountNode α} (h : Inv s calls owner ext stack)
    (hc : calls[i]? = some (.push data pc)) (hpc : pc = .load n ∨ pc = .cas n) (hx : s.heap n = some x) :
    Ok (s.write n { x with next := s.head }) (calls.set i (.push data (.cas n))) := by
  have howned : (Call.push data pc).owned = some n := by rcases hpc with rfl | rfl <;> rfl
  have hholds : (Call.push data pc).holds = none := by rcases hpc with rfl | rfl <;> rfl
  obtain ⟨hne, howner, x', hx', hkeeps⟩ := h.mine hc howned
  rw [hx] at hx'
  cases hx'
  have hkeeps : x.data = some data ∧ x.internalCount = 0 ∧ Calls.total (Call.refs n) calls = 0 := by
    rcases hpc with rfl | rfl <;> exact hkeeps
  have hsame : ∀ m, (Call.push data (.cas n)).refs m = (Call.push data pc).refs m := by
    intro m
    rw [Call.refs, Call.refs, hholds]
    rfl
  have hrefs : Calls.total (Call.refs n) (calls.set i (.push data (.cas n))) = 0 :=
    (Calls.total_set_same hc (hsame n)).trans hkeeps.2.2
  obtain ⟨hlt, -⟩ := List.getElem?_eq_some_iff.1 hc
  refine ⟨_, ext, stack, h.rewrite (o := .call i) hc hne (fun m _ => hsame m) (fun m hm => ?_)
    (fun m hm => ⟨(Option.some.inj hm).symm, rfl⟩) (fun j hji hj => ?_) ?_ (fun ho => ?_)
    ⟨_, _, rfl, List.getElem?_set_self hlt, rfl, hkeeps.1, hkeeps.2.1, hrefs⟩ (fun _ _ he => (by cases he)) rfl
    (fun hi _ => absurd howner hi) ?_⟩
  · rw [howned] at hm
    exact (Option.some.inj hm).symm
  · rw [howner] at hj
    exact absurd (Owner.call.inj hj).symm hji
  · rw [howner]
  · rw [howner] at ho
    cases ho
  · rcases hpc with rfl | rfl <;> rfl

theorem push_cas {x : CountNode α} (h : Inv s calls owner ext stack) (hc : calls[i]? = some (.push data (.cas n)))
    (hx : s.heap n = some x) (hhead : s.head = x.next) :
    Ok { s with head := ⟨1, n⟩ } (calls.set i (.push data .returned)) := by
  obtain ⟨hne, howner, x', hx', hdata, hint, hzero⟩ := h.mine hc rfl
  rw [hx] at hx'
  cases hx'
  have hnot : ∀ m ∈ stack, m ≠ n := by
    intro m hm he
    rw [h.mem_stack, he, howner] at hm
    cases hm
  have hrefs : Calls.total (Call.refs n) (calls.set i (.push data .returned)) = 0 :=
    (Calls.total_set_same hc (by rfl)).trans hzero
  refine ⟨Function.update owner n .stack, Function.update ext n 1, n :: stack, h.move hc n (fun _ _ => rfl)
    (fun m hm => Function.update_of_ne hm _ _) (fun m hm => Function.update_of_ne hm _ _) (fun _ _ => rfl)
    (fun m hm => (Option.some.inj hm).symm) (fun m hm => (by cases hm)) (fun j hji hj => ?_) ?_
    ⟨rfl, hne, Function.update_self .., ?_⟩ (fun m => ?_) ?_ (fun _ => .inr hzero) (fun _ _ he => (by cases he)) rfl
    (fun _ _ => rfl) ?_⟩
  · rw [howner] at hj
    exact absurd (Owner.call.inj hj).symm hji
  · rw [Function.update_of_ne hne.symm]
    exact h.null
  · show Chain (nextOf s.heap) _ (nextOf s.heap n) stack
    rw [nextOf_some hx, ← hhead]
    exact h.chain.congr fun m hm => ⟨rfl, Function.update_of_ne (hnot m hm) _ _⟩
  · rcases update_cases owner n m .stack with ⟨rfl, he⟩ | ⟨hmn, he⟩
    · rw [he]
      simp
    · rw [he, List.mem_cons, ← h.mem_stack]
      exact ⟨fun hm => hm.resolve_left hmn, .inr⟩
  · show NodeOk _ n (s.heap n) _ (Function.update ext n 1 n) (Function.update owner n .stack n)
    rw [Function.update_self, Function.update_self, hx, hrefs]
    refine ⟨x, rfl, ?_, ?_, ?_⟩
    · rw [hdata]
      rfl
    · rw [hint]
    · rw [hint]
      rfl
  · show {data} + 0 + values s.heap stack = 0 + 0 + values s.heap (n :: stack)
    rw [values, values, List.filterMap_cons, valueOf_some hx, hdata, add_zero, add_zero, zero_add]
    rfl

theorem push_inv {pc pc' : PushPc} (h : Inv s calls owner ext stack) (hc : calls[i]? = some (.push data pc))
    (hm : s.push data choice pc = some (pc', s')) : Ok s' (calls.set i (.push data pc')) := by
  cases pc with
  | alloc =>
    simp only [push] at hm
    split at hm
    · rename_i ha
      cases hm
      exact push_alloc h hc ha.1 ha.2
    · cases hm
  | load n =>
    obtain ⟨-, -, x, hx, -⟩ := h.mine (n := n) hc rfl
    simp only [push, hx] at hm
    cases hm
    exact push_load h hc (.inl rfl) hx
  | cas n =>
    obtain ⟨-, -, x, hx, -⟩ := h.mine (n := n) hc rfl
    simp only [push, hx] at hm
    split at hm
    · rename_i hhead
      cases hm
      exact push_cas h hc hx hhead.1
    · cases hm
      exact push_load h hc (.inr rfl) hx
  | returned => cases hm
  | undefined => cases hm

/-! ## pop -/

/-- The call counts itself as a reader of the node at `head`. -/
theorem pop_increase (h : Inv s calls owner ext stack) (hc : calls[i]? = some (.pop (.increase s.head))) :
    Ok { s with head := { s.head with externalCount := s.head.externalCount + 1 } }
      (calls.set i (.pop (if s.head.ptr = 0 then .returned none
        else .readNext { s.head with externalCount := s.head.externalCount + 1 }))) := by
  by_cases hzero : s.head.ptr = 0
  · rw [if_pos hzero]
    have hnil : stack = [] := by
      have hlinked := h.chain.linked
      rw [hzero] at hlinked
      exact hlinked.eq_nil
    subst hnil
    have hquiet : Inv s (calls.set i (.pop (.returned none))) owner ext [] :=
      h.quiet hc rfl rfl (fun x r hk => hk.elim) (fun _ _ he => (by cases he)) rfl rfl
    exact ⟨owner, ext, [], { hquiet with chain := hzero }⟩
  · rw [if_neg hzero]
    obtain ⟨rest, rfl, hext, hrest⟩ := h.chain.uncons hzero
    have howner : owner s.head.ptr = .stack := (h.mem_stack _).1 List.mem_cons_self
    have hnodup := List.nodup_cons.1 h.chain.linked.nodup
    obtain ⟨x, hx, hdata, hint, hcount⟩ : NodeOk calls _ _ _ _ .stack := howner ▸ h.node s.head.ptr
    have hset : Calls.total (Call.refs s.head.ptr) (calls.set i (.pop (.readNext
        { s.head with externalCount := s.head.externalCount + 1 }))) = Calls.total (Call.refs s.head.ptr) calls + 1 :=
      Calls.total_set_add hc (if_pos rfl)
    refine ⟨owner, Function.update ext s.head.ptr (s.head.externalCount + 1), s.head.ptr :: rest,
      h.move hc s.head.ptr (fun _ _ => rfl) (fun _ _ => rfl) (fun m hm => Function.update_of_ne hm _ _) (fun m hm => ?_)
        (fun m hm => (by cases hm)) (fun m hm => (by cases hm)) (fun _ _ hj => hj) h.null
        ⟨rfl, hzero, Function.update_self .., ?_⟩ h.mem_stack ?_ (fun ho => .inl ⟨ho, rfl⟩)
        (fun _ _ he => (by cases he)) rfl (fun _ _ => rfl) rfl⟩
    · exact if_neg fun he => hm (Option.some.inj he).symm
    · exact hrest.congr fun m hm => ⟨rfl, Function.update_of_ne (fun he => hnodup.1 (by rw [← he]; exact hm)) _ _⟩
    · rw [Function.update_self, howner, hset]
      refine ⟨x, hx, hdata, hint, ?_⟩
      rw [hext] at hcount
      push_cast
      omega

/-- The exchange that takes the node at `head` off the stack. -/
theorem pop_cas {next : CountedNodePtr} (h : Inv s calls owner ext stack)
    (hc : calls[i]? = some (.pop (.casHead s.head next))) :
    Ok { s with head := next } (calls.set i (.pop (.swap s.head))) := by
  obtain ⟨hne, -, -, -⟩ := h.held (n := s.head.ptr) hc rfl
  obtain ⟨rest, rfl, hext, hrest⟩ := h.chain.uncons hne
  have howner : owner s.head.ptr = .stack := (h.mem_stack _).1 List.mem_cons_self
  have hnodup := List.nodup_cons.1 h.chain.linked.nodup
  have hnext := h.front _ _ (List.mem_of_getElem? hc) howner
  obtain ⟨x, hx, hdata, hint, hcount⟩ : NodeOk calls _ _ _ _ .stack := howner ▸ h.node s.head.ptr
  have hset : Calls.total (Call.refs s.head.ptr) (calls.set i (.pop (.swap s.head))) + 1 =
      Calls.total (Call.refs s.head.ptr) calls + 0 := by
    have hset : Calls.total (Call.refs s.head.ptr) (calls.set i (.pop (.swap s.head))) + _ = _ := Calls.total_set hc
    rw [show Call.refs s.head.ptr (.pop (.casHead s.head next) : Call α) = 1 from if_pos rfl] at hset
    exact hset
  obtain ⟨hlt, -⟩ := List.getElem?_eq_some_iff.1 hc
  obtain ⟨v, hv⟩ := Option.isSome_iff_exists.1 hdata
  refine ⟨Function.update owner s.head.ptr (.call i), ext, rest, h.move hc s.head.ptr (fun _ _ => rfl)
    (fun m hm => Function.update_of_ne hm _ _) (fun _ _ => rfl) (fun m hm => ?_) (fun m hm => (by cases hm))
    (fun m hm => ⟨(Option.some.inj hm).symm, Function.update_self ..⟩) (fun j _ hj => ?_) ?_ ?_ (fun m => ?_) ?_
    (fun ho => ?_) (fun _ _ he => (by cases he)) rfl (fun _ _ => rfl) ?_⟩
  · exact (if_neg fun he => hm (Option.some.inj he).symm : Call.refs m (.pop (.casHead s.head next) : Call α) = 0).symm
  · rw [howner] at hj
    cases hj
  · rw [Function.update_of_ne hne.symm]
    exact h.null
  · rw [← hnext]
    exact hrest
  · rcases update_cases owner s.head.ptr m (.call i) with ⟨rfl, he⟩ | ⟨hmn, he⟩
    · rw [he]
      simp [hnodup.1]
    · rw [he, ← h.mem_stack, List.mem_cons]
      exact ⟨.inr, fun hm => hm.resolve_left hmn⟩
  · rw [Function.update_self]
    refine ⟨x, _, hx, List.getElem?_set_self hlt, rfl, hdata, hint, ?_⟩
    omega
  · rw [Function.update_self] at ho
    cases ho
  · show 0 + 0 + values s.heap (s.head.ptr :: rest) = 0 + ((valueOf s.heap s.head.ptr).toList : Multiset α) +
      values s.heap rest
    rw [values, values, List.filterMap_cons, valueOf_some hx, hv, zero_add, zero_add, zero_add]
    rfl

theorem pop_swap {oldHead : CountedNodePtr} {x : CountNode α} (h : Inv s calls owner ext stack)
    (hc : calls[i]? = some (.pop (.swap oldHead))) (hx : s.heap oldHead.ptr = some x) :
    Ok (s.write oldHead.ptr { x with data := none }) (calls.set i (.pop (match x.data with
      | none => .thrown
      | some res => .add oldHead res))) := by
  obtain ⟨hne, howner, x', hx', hdata, hint, hcount⟩ := h.mine hc rfl
  rw [hx] at hx'
  cases hx'
  obtain ⟨res, hres⟩ := Option.isSome_iff_exists.1 hdata
  rw [hres]
  have hrefs : Calls.total (Call.refs oldHead.ptr) (calls.set i (.pop (.add oldHead res))) = _ :=
    Calls.total_set_same hc (by rfl)
  obtain ⟨hlt, -⟩ := List.getElem?_eq_some_iff.1 hc
  refine ⟨_, ext, stack, h.rewrite (o := .call i) hc hne (fun _ _ => rfl) (fun m hm => (Option.some.inj hm).symm)
    (fun m hm => ⟨(Option.some.inj hm).symm, rfl⟩) (fun j hji hj => ?_) (by rw [howner]) (fun ho => ?_)
    ⟨_, _, rfl, List.getElem?_set_self hlt, rfl, hint, ?_⟩ (fun _ _ he => (by cases he)) rfl
    (fun hi _ => absurd howner hi) ?_⟩
  · rw [howner] at hj
    exact absurd (Owner.call.inj hj).symm hji
  · rw [howner] at ho
    cases ho
  · rw [hrefs]
    exact hcount
  · show 0 + ((valueOf s.heap oldHead.ptr).toList : Multiset α) = 0 + {res}
    rw [valueOf_some hx, hres]
    rfl

/-- The popper adds the references taken through the pointer to those given
back. If none is held, it deletes the node. -/
theorem pop_add {oldHead : CountedNodePtr} {res : α} {x : CountNode α} (h : Inv s calls owner ext stack)
    (hc : calls[i]? = some (.pop (.add oldHead res))) (hx : s.heap oldHead.ptr = some x) :
    Ok (s.write oldHead.ptr { x with internalCount := x.internalCount + (oldHead.externalCount - 2) })
      (calls.set i (.pop (if x.internalCount = -(oldHead.externalCount - 2) then .delete oldHead.ptr res
        else .returned (some res)))) := by
  obtain ⟨hne, howner, x', hx', hint, hcount⟩ := h.mine hc rfl
  rw [hx] at hx'
  cases hx'
  obtain ⟨hlt, -⟩ := List.getElem?_eq_some_iff.1 hc
  have hothers : ∀ o j, j ≠ i → owner oldHead.ptr = .call j → o = Owner.call j := by
    intro o j hji hj
    rw [howner] at hj
    exact absurd (Owner.call.inj hj).symm hji
  have hnext : owner oldHead.ptr = .stack → x.next = nextOf s.heap oldHead.ptr := by
    intro ho
    rw [howner] at ho
    cases ho
  split
  · rename_i hlast
    have hrefs : Calls.total (Call.refs oldHead.ptr) (calls.set i (.pop (.delete oldHead.ptr res))) = _ :=
      Calls.total_set_same hc (by rfl)
    refine ⟨_, ext, stack, h.rewrite (o := .call i) hc hne (fun _ _ => rfl) (fun m hm => (Option.some.inj hm).symm)
      (fun m hm => ⟨(Option.some.inj hm).symm, rfl⟩) (hothers _) (by rw [howner]) hnext
      ⟨_, _, rfl, List.getElem?_set_self hlt, rfl, ?_⟩ (fun _ _ he => (by cases he)) rfl
      (fun hi _ => absurd howner hi) rfl⟩
    show Calls.total _ _ = 0
    omega
  · rename_i hheld
    have hrefs : Calls.total (Call.refs oldHead.ptr) (calls.set i (.pop (.returned (some res)))) = _ :=
      Calls.total_set_same hc (by rfl)
    refine ⟨_, ext, stack, h.rewrite (o := .shared) hc hne (fun _ _ => rfl) (fun m hm => (Option.some.inj hm).symm)
      (fun m hm => (by cases hm)) (hothers _) (by rw [howner]; simp) hnext ⟨_, rfl, ?_, ?_⟩
      (fun _ _ he => (by cases he)) rfl (fun hi _ => absurd howner hi) rfl⟩
    · dsimp only
      omega
    · dsimp only
      omega

/-- A reader whose exchange failed gives its reference back. If it was the last,
the node is its own now. -/
theorem pop_release {again : CountedNodePtr} {x : CountNode α} (h : Inv s calls owner ext stack)
    (hc : calls[i]? = some (.pop (.release n again))) (hx : s.heap n = some x) :
    Ok (s.write n { x with internalCount := x.internalCount - 1 })
      (calls.set i (.pop (if x.internalCount = 1 then .loadCount n again else .increase again))) := by
  obtain ⟨hne, hfree, hpos, -⟩ := h.held (n := n) hc rfl
  obtain ⟨hlt, -⟩ := List.getElem?_eq_some_iff.1 hc
  have hone : Call.refs n (.pop (.release n again) : Call α) = 1 := if_pos rfl
  have hrefs : ∀ pc : PopPc α, (Call.pop pc).holds = none →
      Calls.total (Call.refs n) (calls.set i (.pop pc)) + 1 = Calls.total (Call.refs n) calls := by
    intro pc hpc
    have hset : Calls.total (Call.refs n) (calls.set i (.pop pc)) + _ = _ := Calls.total_set hc
    rw [hone, show (Call.pop pc).refs n = 0 by rw [Call.refs, hpc]; rfl] at hset
    exact hset
  have hothers : ∀ (pc : PopPc α), (Call.pop pc).holds = none → ∀ m, m ≠ n →
      (Call.pop pc).refs m = (Call.pop (.release n again) : Call α).refs m := by
    intro pc hpc m hm
    have hold : (Call.pop (.release n again) : Call α).refs m = 0 := if_neg fun he => hm (Option.some.inj he).symm
    rw [hold, Call.refs, hpc]
    rfl
  -- Unless the node is popped and counted, its count is not 1.
  have hgo : ∀ o, o = owner n → x.internalCount ≠ 1 →
      NodeOk (calls.set i (.pop (.increase again))) n (some { x with internalCount := x.internalCount - 1 })
        (Calls.total (Call.refs n) (calls.set i (.pop (.increase again)))) (ext n) o →
      Ok (s.write n { x with internalCount := x.internalCount - 1 })
        (calls.set i (.pop (if x.internalCount = 1 then .loadCount n again else .increase again))) := by
    intro o ho hnot hnode
    rw [if_neg hnot]
    subst ho
    exact ⟨_, ext, stack, h.rewrite hc hne (hothers _ rfl) (fun m hm => (by cases hm)) (fun m hm => (by cases hm))
      (fun _ _ hj => hj) Iff.rfl (fun _ => (nextOf_some hx).symm) hnode (fun _ _ he => (by cases he)) rfl
      (fun _ _ => (valueOf_some hx).symm) rfl⟩
  have hnode := h.node n
  rw [hx] at hnode
  have hcount := hrefs (.increase again) rfl
  cases ho : owner n with
  | free => exact absurd ho hfree
  | stack =>
    rw [ho] at hnode
    obtain ⟨x', hx', hdata, hint, hr⟩ := hnode
    cases hx'
    exact hgo .stack ho.symm (by omega) ⟨_, rfl, hdata, by dsimp only; omega, by dsimp only; omega⟩
  | shared =>
    rw [ho] at hnode
    obtain ⟨x', hx', hint, hr⟩ := hnode
    cases hx'
    by_cases hlast : x.internalCount = 1
    · rw [if_pos hlast]
      have hcount' := hrefs (.loadCount n again) rfl
      refine ⟨_, ext, stack, h.rewrite (o := .call i) hc hne (hothers _ rfl) (fun m hm => (by cases hm))
        (fun m hm => ⟨(Option.some.inj hm).symm, rfl⟩) (fun j _ hj => ?_) (by rw [ho]; simp) (fun hs => ?_)
        ⟨_, _, rfl, List.getElem?_set_self hlt, rfl, ?_⟩ (fun _ _ he => (by cases he)) rfl
        (fun _ _ => (valueOf_some hx).symm) rfl⟩
      · rw [ho] at hj
        cases hj
      · rw [ho] at hs
        cases hs
      · show Calls.total _ _ = 0
        omega
    · exact hgo .shared ho.symm hlast ⟨_, rfl, by dsimp only; omega, by dsimp only; omega⟩
  | call j =>
    rw [ho] at hnode
    obtain ⟨x', d, hx', hd, howned, hkeeps⟩ := hnode
    cases hx'
    have hji : j ≠ i := by
      rintro rfl
      rw [hc] at hd
      cases hd
      cases howned
    have hd' : (calls.set i (.pop (.increase again)))[j]? = some d := by rw [List.getElem?_set_ne hji.symm, hd]
    cases d with
    | push data pc =>
      cases pc with
      | load m =>
        have := hkeeps.2.2
        omega
      | cas m =>
        have := hkeeps.2.2
        omega
      | _ => cases howned
    | pop pc =>
      cases pc with
      | swap oldHead =>
        obtain ⟨hdata, hint, hr⟩ := hkeeps
        exact hgo _ ho.symm (by omega) ⟨_, _, rfl, hd', howned, hdata, by dsimp only; omega, by dsimp only; omega⟩
      | add oldHead res =>
        obtain ⟨hint, hr⟩ := hkeeps
        exact hgo _ ho.symm (by omega) ⟨_, _, rfl, hd', howned, by dsimp only; omega, by dsimp only; omega⟩
      | delete ptr res =>
        have hr : Calls.total (Call.refs n) calls = 0 := hkeeps
        omega
      | loadCount ptr a =>
        have hr : Calls.total (Call.refs n) calls = 0 := hkeeps
        omega
      | deleteAgain ptr a =>
        have hr : Calls.total (Call.refs n) calls = 0 := hkeeps
        omega
      | _ => cases howned

theorem pop_inv {pc pc' : PopPc α} (h : Inv s calls owner ext stack) (hc : calls[i]? = some (.pop pc))
    (hm : s.pop pc = some (pc', s')) : Ok s' (calls.set i (.pop pc')) := by
  cases pc with
  | loadHead =>
    cases hm
    exact ⟨owner, ext, stack, h.quiet hc rfl rfl (fun _ _ => id) (fun _ _ he => (by cases he)) rfl rfl⟩
  | increase oldHead =>
    simp only [pop] at hm
    split at hm
    · rename_i hhead
      subst hhead
      cases hm
      exact pop_increase h hc
    · cases hm
      exact ⟨owner, ext, stack, h.quiet hc rfl rfl (fun _ _ => id) (fun _ _ he => (by cases he)) rfl rfl⟩
  | readNext oldHead =>
    obtain ⟨-, -, -, x, hx⟩ := h.held (n := oldHead.ptr) hc rfl
    simp only [pop, hx] at hm
    cases hm
    refine ⟨owner, ext, stack, h.quiet hc rfl rfl (fun _ _ => id) (fun o next he => ?_) rfl rfl⟩
    cases he
    exact nextOf_some hx
  | casHead oldHead next =>
    simp only [pop] at hm
    split at hm
    · rename_i hhead
      subst hhead
      cases hm
      exact pop_cas h hc
    · cases hm
      exact ⟨owner, ext, stack, h.quiet hc rfl rfl (fun _ _ => id) (fun _ _ he => (by cases he)) rfl rfl⟩
  | swap oldHead =>
    obtain ⟨-, -, x, hx, -⟩ := h.mine (n := oldHead.ptr) hc rfl
    simp only [pop, hx] at hm
    cases hm
    exact pop_swap h hc hx
  | add oldHead res =>
    obtain ⟨-, -, x, hx, -⟩ := h.mine (n := oldHead.ptr) hc rfl
    simp only [pop, hx] at hm
    cases hm
    exact pop_add h hc hx
  | delete ptr res =>
    obtain ⟨-, howner, x, hx, hzero⟩ := h.mine (n := ptr) hc rfl
    simp only [pop, hx] at hm
    cases hm
    exact ⟨_, ext, stack, h.frees hc howner hzero (fun _ => rfl) (fun m hm => (Option.some.inj hm).symm) rfl
      (fun _ _ he => (by cases he)) rfl rfl⟩
  | release ptr again =>
    obtain ⟨-, -, -, x, hx⟩ := h.held (n := ptr) hc rfl
    simp only [pop, hx] at hm
    cases hm
    exact pop_release h hc hx
  | loadCount ptr again =>
    obtain ⟨-, -, x, hx, -⟩ := h.mine (n := ptr) hc rfl
    simp only [pop, hx] at hm
    cases hm
    exact ⟨owner, ext, stack, h.quiet hc rfl rfl (fun _ _ => id) (fun _ _ he => (by cases he)) rfl rfl⟩
  | deleteAgain ptr again =>
    obtain ⟨-, howner, x, hx, hzero⟩ := h.mine (n := ptr) hc rfl
    simp only [pop, hx] at hm
    cases hm
    exact ⟨_, ext, stack, h.frees hc howner hzero (fun _ => rfl) (fun m hm => (Option.some.inj hm).symm) rfl
      (fun _ _ he => (by cases he)) rfl rfl⟩
  | returned res => cases hm
  | thrown => cases hm
  | undefined => cases hm

/-! ## Runs -/

theorem run_ok {events : List (Event α)} {t : System α} (h : Run.run program.step start events = some t) :
    Ok t.shared t.calls := by
  refine Calls.run_invariant (p := program) Ok (fun s calls op hok => ?_)
    (fun s calls i c choice c' s' hok hc hm => ?_) ⟨fun _ => .free, fun _ => 0, [], inv_start⟩ h
  · obtain ⟨owner, ext, stack, hinv⟩ := hok
    cases op with
    | push data => exact ⟨owner, ext, stack, hinv.enter rfl rfl rfl rfl rfl⟩
    | pop => exact ⟨owner, ext, stack, hinv.enter rfl rfl rfl rfl rfl⟩
  · obtain ⟨owner, ext, stack, hinv⟩ := hok
    cases c with
    | push data pc =>
      obtain ⟨⟨pc', r⟩, hp, he⟩ := Option.map_eq_some_iff.1 hm
      cases he
      exact push_inv hinv hc hp
    | pop pc =>
      obtain ⟨⟨pc', r⟩, hp, he⟩ := Option.map_eq_some_iff.1 hm
      cases he
      exact pop_inv hinv hc hp

theorem uses_cases (h : c.uses = some n) : c.holds = some n ∨ c.owned = some n := by
  cases c with
  | push data pc => cases pc <;> exact .inr h
  | pop pc =>
    cases pc with
    | readNext oldHead => exact .inl h
    | casHead oldHead next => exact .inl h
    | release ptr again => exact .inl h
    | swap oldHead => exact .inr h
    | add oldHead res => exact .inr h
    | delete ptr res => exact .inr h
    | loadCount ptr again => exact .inr h
    | deleteAgain ptr again => exact .inr h
    | _ => cases h

/-- A call that deletes a node owns it, and no reference to it is held. -/
theorem Inv.deletes (h : Inv s calls owner ext stack) (hc : calls[i]? = some c) (hn : c.deletes = some n) :
    owner n = .call i ∧ Calls.total (Call.refs n) calls = 0 := by
  cases c with
  | push data pc => cases hn
  | pop pc =>
    cases pc with
    | delete ptr res =>
      cases hn
      obtain ⟨-, howner, x, -, hzero⟩ := h.mine hc rfl
      exact ⟨howner, hzero⟩
    | deleteAgain ptr again =>
      cases hn
      obtain ⟨-, howner, x, -, hzero⟩ := h.mine hc rfl
      exact ⟨howner, hzero⟩
    | _ => cases hn

/-- A call that has ended has no node. -/
theorem done_bare (h : c.done = true) : c.holds = none ∧ c.owned = none := by
  cases c with
  | push data pc => cases pc <;> first | exact ⟨rfl, rfl⟩ | cases h
  | pop pc => cases pc <;> first | exact ⟨rfl, rfl⟩ | cases h

/-- With no call under way the nodes there are on the stack. -/
theorem Inv.all_deleted (h : Inv s calls owner ext stack) (hdone : ∀ c ∈ calls, c.done = true)
    (hn : s.heap n ≠ none) : n ∈ stack := by
  have hzero : Calls.total (Call.refs n) calls = 0 := by
    refine Calls.total_eq_zero fun c hc => ?_
    rw [Call.refs, (done_bare (hdone c hc)).1]
    rfl
  have hnode := h.node n
  cases ho : owner n with
  | free =>
    rw [ho] at hnode
    exact absurd hnode.1 hn
  | stack => exact (h.mem_stack n).2 ho
  | shared =>
    rw [ho, hzero] at hnode
    obtain ⟨x, -, hint, hr⟩ := hnode
    omega
  | call i =>
    rw [ho] at hnode
    obtain ⟨x, c, -, hc, howned, -⟩ := hnode
    rw [(done_bare (hdone c (List.mem_of_getElem? hc))).2] at howned
    cases howned

theorem got_le_hand (heap : ℕ → Option (CountNode α)) (c : Call α) : c.got ≤ c.hand heap := by
  cases c with
  | push data pc => exact Multiset.zero_le _
  | pop pc =>
    cases pc with
    | returned res =>
      cases res with
      | none => exact Multiset.zero_le _
      | some v => exact le_refl _
    | _ => exact Multiset.zero_le _

theorem got_eq_hand (heap : ℕ → Option (CountNode α)) (h : c.done = true) : c.got = c.hand heap := by
  cases c with
  | push data pc => rfl
  | pop pc =>
    cases pc with
    | returned res => cases res <;> rfl
    | _ => cases h

/-- **Reference counting.** In every run no call uses a node that is not there,
so none deletes one twice, and none throws; a node that a call may still use is
there, and no other call is about to delete it; no value is given out more often
than it was pushed; and with no call under way the values pushed are those
popped and those on the stack, and all other nodes are deleted. -/
theorem counted_reclaimed {events : List (Event α)} {t : System α}
    (h : Run.run program.step start events = some t) :
    (∀ (i : ℕ) (c : Call α), t.calls[i]? = some c → c.failed = false ∧ ∀ n, c.uses = some n → t.shared.heap n ≠ none ∧
      ∀ (j : ℕ) (d : Call α), j ≠ i → t.calls[j]? = some d → d.deletes ≠ some n) ∧
    Calls.total Call.got t.calls ≤ Calls.total Call.put t.calls ∧
    ((∀ c ∈ t.calls, c.done = true) →
      ∃ l, Linked (fun n => (nextOf t.shared.heap n).ptr) t.shared.head.ptr l ∧
        Calls.total Call.put t.calls = Calls.total Call.got t.calls + values t.shared.heap l ∧
        ∀ n, t.shared.heap n ≠ none → n ∈ l) := by
  obtain ⟨owner, ext, stack, hinv⟩ := run_ok h
  refine ⟨fun i c hc => ⟨hinv.sound c (List.mem_of_getElem? hc), fun n hn => ?_⟩, ?_,
    fun hdone => ⟨stack, hinv.chain.linked, ?_, fun n => hinv.all_deleted hdone⟩⟩
  · rcases uses_cases hn with hholds | howned
    · obtain ⟨-, -, hpos, x, hx⟩ := hinv.held hc hholds
      refine ⟨fun hnone => ?_, fun j d _ hd hdel => ?_⟩
      · rw [hnone] at hx
        cases hx
      · have hzero := (hinv.deletes hd hdel).2
        omega
    · obtain ⟨-, howner, x, hx, -⟩ := hinv.mine hc howned
      refine ⟨fun hnone => ?_, fun j d hji hd hdel => ?_⟩
      · rw [hnone] at hx
        cases hx
      · have hother := (hinv.deletes hd hdel).1
        rw [howner] at hother
        exact hji (Owner.call.inj hother).symm
  · rw [hinv.conserved]
    exact (Calls.total_le_total fun c _ => got_le_hand t.shared.heap c).trans (Multiset.le_add_right _ _)
  · rw [hinv.conserved, Calls.total_congr fun c hc => got_eq_hand t.shared.heap (hdone c hc)]

/-- Two pops read the same node; the one that comes too late gives its reference
back last, deletes the node and finds the stack empty. -/
def lateReader : List (Event ℕ) :=
  [.call (.push 5), .move 0 { address := 8 }, .move 0 {}, .move 0 {}, .call .pop, .call .pop, .move 1 {}, .move 1 {},
    .move 2 {}, .move 2 {}, .move 2 {}, .move 2 {}, .move 1 {}, .move 1 {}, .move 2 {}, .move 2 {}] ++
    List.replicate 4 (.move 1 {}) ++
    [.call (.push 6), .move 3 { address := 8 }, .move 3 {}, .move 3 { spurious := true }, .move 3 {}]

theorem counted_reclaimed_lateReader :
    ∃ t, Run.run program.step start lateReader = some t ∧ (∀ c ∈ t.calls, c.done = true) ∧
      Calls.total Call.put t.calls = {5, 6} ∧ Calls.total Call.got t.calls = {5} ∧
      ∃ l, Linked (fun n => (nextOf t.shared.heap n).ptr) t.shared.head.ptr l ∧
        ({5, 6} : Multiset ℕ) = {5} + values t.shared.heap l ∧ ∀ n, t.shared.heap n ≠ none → n ∈ l := by
  have heval : (Run.run program.step start lateReader).map (fun t => t.calls) =
      some [.push 5 .returned, .pop (.returned none), .pop (.returned (some 5)), .push 6 .returned] := by
    decide +kernel
  obtain ⟨t, ht, hcalls⟩ := Option.map_eq_some_iff.1 heval
  have hdone : ∀ c ∈ t.calls, c.done = true := by
    rw [hcalls]
    decide
  have hput : Calls.total Call.put t.calls = {5, 6} := by
    rw [hcalls]
    rfl
  have hgot : Calls.total Call.got t.calls = {5} := by
    rw [hcalls]
    rfl
  obtain ⟨-, -, hrest⟩ := counted_reclaimed ht
  rw [← hput, ← hgot]
  exact ⟨t, ht, hdone, rfl, rfl, hrest hdone⟩

end Learncc.RefCountStack
