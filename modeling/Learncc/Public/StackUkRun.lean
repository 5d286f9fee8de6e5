/-
Every move of a call on a `threadsafe_stack_uk` keeps the owners of the nodes,
so in every run no call reads or deletes a node that has been deleted, no value
is given out twice, and what is pushed is what is popped and what is left.
-/
import Learncc.Public.StackUkOwners

namespace Learncc.ThreadsafeStackUk

variable {α : Type} {s s' : ThreadsafeStackUk α} {calls : List (Call α)} {owner : ℕ → Owner} {stack pend : List ℕ}
  {i n old : ℕ} {value : α} {choice : Choice}

/-- Some owners, some stack, some nodes that wait. -/
def Ok (s : ThreadsafeStackUk α) (calls : List (Call α)) : Prop := ∃ owner stack pend, Inv s calls owner stack pend

theorem nextOf_some {heap : ℕ → Option (StackNode α)} {node : StackNode α} (h : heap n = some node) :
    nextOf heap n = node.next := by rw [nextOf, h]; rfl

theorem valueOf_some {heap : ℕ → Option (StackNode α)} {node : StackNode α} (h : heap n = some node) :
    valueOf heap n = node.data := by rw [valueOf, h]; rfl

/-! ## push -/

/-- A call that has no nodes. -/
theorem owns_nothing (h : Inv s calls owner stack pend) {c : Call α} (hc : calls[i]? = some c)
    (hnil : ∀ l : List ℕ, c.Private s.heap l → l = []) : ∀ n, owner n ≠ .call i := by
  intro n hn
  obtain ⟨l, hp, -, hl⟩ := h.own i c hc
  rw [← hl n, hnil l hp] at hn
  cases hn

theorem push_alloc (h : Inv s calls owner stack pend) (hc : calls[i]? = some (.push value .alloc)) {a : ℕ} (ha : a ≠ 0)
    (hfree : s.heap a = none) : Ok (s.write a ⟨some value, 0⟩) (calls.set i (.push value (.load a))) := by
  have hnew : owner a = .free := (h.allocated a).1 hfree
  have hnone := owns_nothing h hc fun l hp => hp
  have hheap : ∀ n, owner n ≠ .free → Function.update s.heap a (some ⟨some value, 0⟩) n = s.heap n := by
    intro n hn
    refine Function.update_of_ne (fun he => hn ?_) _ _
    rw [he]
    exact hnew
  have hstack : ∀ n ∈ stack, Function.update s.heap a (some ⟨some value, 0⟩) n = s.heap n := by
    intro n hn
    refine hheap n ?_
    rw [(h.mem_stack n).1 hn]
    simp
  refine ⟨Function.update owner a (.call i), stack, pend, h.move hc
    (Passes.update (.inl hnew) (fun j hj => (Owner.call.inj hj).symm) fun m _ hm => absurd hm (hnone m))
    (fun n _ hn => hheap n hn) ?_ (fun n => ?_) (h.stack_linked.congr fun n hn => nextOf_congr (hstack n hn))
    (fun n => ?_) (fun n hn => ?_) (h.pend_linked.congr fun n hn => nextOf_congr (hheap n ?_)) (fun n => ?_)
    ?_ rfl rfl ?_⟩
  · rw [Function.update_of_ne ha.symm]
    exact h.null
  · show Function.update s.heap a (some ⟨some value, 0⟩) n = none ↔ _
    by_cases he : n = a
    · rw [he, Function.update_self, Function.update_self]
      simp
    · rw [Function.update_of_ne he, Function.update_of_ne he]
      exact h.allocated n
  · rw [mem_iff_of_update (by rw [hnew]; simp) (by simp)]
    exact h.mem_stack n
  · show (valueOf (Function.update s.heap a _) n).isSome
    rw [valueOf_congr (hstack n hn)]
    exact h.stack_value n hn
  · rw [(h.mem_pend n).1 hn]
    simp
  · rw [mem_iff_of_update (by rw [hnew]; simp) (by simp)]
    exact h.mem_pend n
  · refine ⟨[a], ⟨rfl, ?_⟩, List.nodup_singleton a, fun n => ?_⟩
    · exact valueOf_some (Function.update_self ..)
    · rw [List.mem_singleton]
      by_cases he : n = a
      · rw [he, Function.update_self]
        simp
      · rw [Function.update_of_ne he]
        exact ⟨fun h => absurd h he, fun hn => absurd hn (hnone n)⟩
  · show 0 + 0 + _ = 0 + 0 + values (Function.update s.heap a _) stack
    rw [values_congr hstack]

theorem push_inv {pc pc' : PushPc} (h : Inv s calls owner stack pend) (hc : calls[i]? = some (.push value pc))
    (hm : s.push value choice pc = some (pc', s')) : Ok s' (calls.set i (.push value pc')) := by
  cases pc with
  | alloc =>
    simp only [push] at hm
    split at hm
    · rename_i ha
      cases hm
      exact push_alloc h hc ha.1 ha.2
    · cases hm
  | load n =>
    obtain ⟨l, hp, -, hl, -, hsome⟩ := h.nodes hc
    obtain ⟨rfl, hv⟩ := hp
    have hn : n ∈ [n] := List.mem_singleton.2 rfl
    obtain ⟨node, hnode⟩ := hsome n hn
    simp only [push, hnode] at hm
    cases hm
    refine ⟨owner, stack, pend, h.rewrite hc ((hl n).1 hn) _ (fun l _ hp => ⟨hp.1, ?_⟩) (fun _ => id) rfl rfl rfl⟩
    rw [valueOf_some (Function.update_self ..), ← valueOf_some hnode]
    exact hv
  | cas n =>
    obtain ⟨l, hp, -, hl, hne, hsome⟩ := h.nodes hc
    obtain ⟨rfl, hv⟩ := hp
    have hn : n ∈ [n] := List.mem_singleton.2 rfl
    have hown : owner n = .call i := (hl n).1 hn
    obtain ⟨node, hnode⟩ := hsome n hn
    simp only [push, hnode] at hm
    split at hm
    · rename_i hhead
      cases hm
      refine ⟨Function.update owner n .stack, n :: stack, pend, h.move hc
        (Passes.update (.inr ⟨hown, trivial⟩) (fun j hj => (by cases hj)) fun m _ _ _ => trivial) (fun _ _ _ => rfl) ?_
        (fun m => ?_) ⟨rfl, hne n hn, ?_⟩ (fun m => ?_) (fun m hm => ?_) h.pend_linked (fun m => ?_) ?_ rfl rfl ?_⟩
      · rw [Function.update_of_ne (hne n hn).symm]
        exact h.null
      · show s.heap m = none ↔ _
        rw [mem_iff_of_update (by rw [hown]; simp) (by simp)]
        exact h.allocated m
      · show Linked (nextOf s.heap) (nextOf s.heap n) stack
        rw [nextOf_some hnode, ← hhead.1]
        exact h.stack_linked
      · by_cases he : m = n
        · rw [he, Function.update_self]
          simp
        · rw [Function.update_of_ne he, List.mem_cons]
          exact ⟨fun h' => (h.mem_stack m).1 (h'.resolve_left he), fun h' => .inr ((h.mem_stack m).2 h')⟩
      · show (valueOf s.heap m).isSome
        rcases List.mem_cons.1 hm with rfl | hm
        · rw [hv]
          rfl
        · exact h.stack_value m hm
      · rw [mem_iff_of_update (by rw [hown]; simp) (by simp)]
        exact h.mem_pend m
      · refine ⟨[], rfl, List.nodup_nil, fun m => ?_⟩
        by_cases he : m = n
        · rw [he, Function.update_self]
          simp
        · rw [Function.update_of_ne he, ← hl m]
          simp [he]
      · show {value} + 0 + values s.heap stack = 0 + 0 + values s.heap (n :: stack)
        rw [values, values, List.filterMap_cons, hv, add_zero, add_zero, zero_add]
        rfl
    · cases hm
      refine ⟨owner, stack, pend, h.rewrite hc hown _ (fun l _ hp => ⟨hp.1, ?_⟩) (fun _ => id) rfl rfl rfl⟩
      rw [valueOf_some (Function.update_self ..), ← valueOf_some hnode]
      exact hv
  | returned => cases hm
  | undefined => cases hm

/-! ## Taking a node off the stack -/

/-- A node that another pop may hold is there. -/
theorem held_allocated (h : Inv s calls owner stack pend) {c : Call α} (hc : calls[i]? = some c)
    (hn : c.holds = some n) : ∃ node, s.heap n = some node := by
  refine Option.ne_none_iff_exists'.1 fun hnone => ?_
  exact (h.held c (List.mem_of_getElem? hc) n hn).allocated ((h.allocated n).1 hnone)

/-- A step that touches no node, after which the call looks at no node of the stack. -/
theorem quiet_ok {c c' : Call α} {threads : ℤ} (h : Inv s calls owner stack pend) (hc : calls[i]? = some c)
    (hpriv : ∀ l : List ℕ, (∀ n ∈ l, n ≠ 0) → c.Private s.heap l → c'.Private s.heap l)
    (hhides : (∀ n, c'.Hides n → c.Hides n) ∨ ∀ j d, j ≠ i → calls[j]? = some d → d.inPop = 0)
    (hholds : c'.holds = none) (hthreads : threads + c.inPop = s.threadsInPop + c'.inPop)
    (hvalues : c'.put + c.hand s.heap = c.put + c'.hand s.heap) :
    Ok { s with threadsInPop := threads } (calls.set i c') := by
  refine ⟨owner, stack, pend, h.quiet hc threads hpriv hhides (fun n hn => ?_) (fun n next he => ?_) hthreads hvalues⟩
  · rw [hholds] at hn
    cases hn
  · rw [he] at hholds
    cases hholds

theorem pop_cas {next : ℕ} (h : Inv s calls owner stack pend) (hc : calls[i]? = some (.pop (.cas s.head next))) :
    Ok { s with head := next } (calls.set i (.pop (.swap s.head))) := by
  have hg := h.held _ (List.mem_of_getElem? hc) s.head rfl
  have hne : s.head ≠ 0 := fun hzero => hg.allocated (by rw [hzero]; exact h.null)
  have hnone := owns_nothing h hc fun l hp => hp
  obtain ⟨rest, hrest, hlinked⟩ := h.stack_linked.uncons hne
  have hmem : s.head ∈ stack := by
    rw [hrest]
    exact List.mem_cons_self
  have hown : owner s.head = .stack := (h.mem_stack _).1 hmem
  have hnext : nextOf s.heap s.head = next := h.front _ next (List.mem_of_getElem? hc) hown
  have hnd := h.stack_linked.nodup
  rw [hrest, List.nodup_cons] at hnd
  obtain ⟨v, hv⟩ := Option.isSome_iff_exists.1 (h.stack_value _ hmem)
  have hpass : Passes calls owner (Function.update owner s.head (.call i)) i (.pop (.cas s.head next))
      (.pop (.swap s.head)) := by
    have hcases : ∀ m, m = s.head ∨ m ≠ s.head ∧ Function.update owner s.head (.call i) m = owner m := by
      intro m
      by_cases he : m = s.head
      · exact .inl he
      · exact .inr ⟨he, Function.update_of_ne he _ _⟩
    refine ⟨fun m hm => ?_, fun m hm => ?_, .inl fun m _ hhides => hhides.elim, fun j hji m => ?_⟩
    · rcases hcases m with rfl | ⟨-, he⟩
      · rw [Function.update_self] at hm
        cases hm
      · exact .inl (he.symm.trans hm)
    · rcases hcases m with rfl | ⟨-, he⟩
      · exact .inl hown
      · exact .inl (he.symm.trans hm)
    · refine mem_iff_of_update ?_ fun he => hji (Owner.call.inj he).symm
      rw [hown]
      simp
  refine ⟨Function.update owner s.head (.call i), rest, pend, h.move hc hpass (fun _ _ _ => rfl) ?_ (fun m => ?_) ?_
    (fun m => ?_) (fun m hm => h.stack_value m ?_) h.pend_linked (fun m => ?_) ?_ rfl rfl ?_⟩
  · rw [Function.update_of_ne hne.symm]
    exact h.null
  · rw [mem_iff_of_update (by rw [hown]; simp) (by simp)]
    exact h.allocated m
  · show Linked (nextOf s.heap) next rest
    rw [← hnext]
    exact hlinked
  · by_cases he : m = s.head
    · rw [he, Function.update_self]
      simp [hnd.1]
    · rw [Function.update_of_ne he, ← h.mem_stack m, hrest, List.mem_cons]
      exact ⟨.inr, fun hm => hm.resolve_left he⟩
  · rw [hrest]
    exact List.mem_cons_of_mem _ hm
  · rw [mem_iff_of_update (by rw [hown]; simp) (by simp)]
    exact h.mem_pend m
  · refine ⟨[s.head], ⟨rfl, ?_⟩, List.nodup_singleton _, fun m => ?_⟩
    · show (valueOf s.heap s.head).isSome
      rw [hv]
      rfl
    · rw [List.mem_singleton]
      by_cases he : m = s.head
      · rw [he, Function.update_self]
        simp
      · rw [Function.update_of_ne he]
        exact ⟨fun h => absurd h he, fun hm => absurd hm (hnone m)⟩
  · show 0 + 0 + values s.heap stack = 0 + ((valueOf s.heap s.head).toList : Multiset α) + values s.heap rest
    rw [hrest, values, values, List.filterMap_cons, hv, zero_add, zero_add, zero_add]
    rfl

/-! ## Nodes that wait to be deleted -/

/-- The popper takes all that wait. -/
theorem pop_exchange {res : Option α} (h : Inv s calls owner stack pend)
    (hc : calls[i]? = some (.pop (.exchange old res))) :
    Ok { s with toBeDeleted := 0 } (calls.set i (.pop (.dec old res s.toBeDeleted))) := by
  obtain ⟨l, hp, -, hl, hne, -⟩ := h.nodes hc
  obtain rfl : l = [old] := hp
  have hown : owner old = .call i := (hl old).1 (List.mem_singleton.2 rfl)
  have hpass : Passes calls owner (fun m => if owner m = .pending then .call i else owner m) i
      (.pop (.exchange old res)) (.pop (.dec old res s.toBeDeleted)) := by
    refine ⟨fun m hm => ?_, fun m hm => ?_, .inl fun m _ hhides => ?_, fun j hji m => ?_⟩
    · split at hm
      · cases hm
      · exact .inl hm
    · split at hm
      · cases hm
      · exact .inl hm
    · refine .inr ⟨?_, hhides⟩
      rw [show m = old from hhides]
      exact hown
    · split
      · rename_i hpending
        rw [hpending]
        exact ⟨fun he => absurd (Owner.call.inj he).symm hji, fun he => (by cases he)⟩
      · exact Iff.rfl
  refine ⟨_, stack, [], h.move hc hpass (fun _ _ _ => rfl) ?_ (fun m => ?_) h.stack_linked (fun m => ?_) h.stack_value
    rfl (fun m => ?_) ?_ rfl rfl rfl⟩
  · rw [if_neg (by rw [h.null]; simp)]
    exact h.null
  · dsimp only
    split
    · rename_i hpending
      rw [h.allocated, hpending]
      simp
    · exact h.allocated m
  · split
    · rename_i hpending
      rw [h.mem_stack, hpending]
      simp
    · exact h.mem_stack m
  · split
    · simp
    · rename_i hpending
      simp [hpending]
  · refine ⟨old :: pend, ⟨pend, rfl, h.pend_linked⟩, List.nodup_cons.2 ⟨fun hm => ?_, h.pend_linked.nodup⟩, fun m => ?_⟩
    · rw [h.mem_pend, hown] at hm
      cases hm
    · rw [List.mem_cons, h.mem_pend]
      split
      · rename_i hpending
        simp [hpending]
      · rename_i hpending
        rw [← hl m, List.mem_singleton]
        exact ⟨fun hm => hm.resolve_right hpending, .inl⟩

theorem pop_chained {after : Option ℕ} {res : Option α} {first last : ℕ} (h : Inv s calls owner stack pend)
    (hc : calls[i]? = some (.pop (.chainCas after res first last))) (hnext : nextOf s.heap last = s.toBeDeleted) :
    Ok { s with toBeDeleted := first } (calls.set i (.pop (chained res after))) := by
  obtain ⟨l, hp, hnd, hl, hne, -⟩ := h.nodes hc
  obtain ⟨m, rfl, hm, hlast⟩ := hp
  have hown : ∀ n ∈ m, owner n = .call i := fun n hn => (hl n).1 (List.mem_append_right _ hn)
  have hafter : ∀ n ∈ after.toList, owner n = .call i ∧ n ∉ m := by
    intro n hn
    refine ⟨(hl n).1 (List.mem_append_left _ hn), fun hnm => ?_⟩
    exact (List.nodup_append.1 hnd).2.2 n hn n hnm rfl
  have hnot : ∀ {n : ℕ}, owner n ≠ .call i → n ∉ m := fun hne hn => hne (hown _ hn)
  have hpass : Passes calls owner (fun n => if n ∈ m then .pending else owner n) i
      (.pop (.chainCas after res first last)) (.pop (chained res after)) := by
    refine ⟨fun n hn => ?_, fun n hn => ?_, .inl fun n hn hhides => ?_, fun j hji n => ?_⟩
    · split at hn
      · cases hn
      · exact .inl hn
    · split at hn
      · cases hn
      · exact .inl hn
    · split at hn
      · cases hn
      · rename_i hnm
        have hmem := (List.mem_append.1 ((hl n).2 hn)).resolve_right hnm
        exact .inr ⟨hn, Option.mem_toList.1 hmem⟩
    · split
      · rename_i hnm
        rw [hown n hnm]
        exact ⟨fun he => (by cases he), fun he => absurd (Owner.call.inj he).symm hji⟩
      · exact Iff.rfl
  refine ⟨_, stack, m ++ pend, h.move hc hpass (fun _ _ _ => rfl) ?_ (fun n => ?_) h.stack_linked (fun n => ?_)
    h.stack_value ?_ (fun n => ?_) ?_ ?_ ?_ ?_⟩
  · rw [if_neg (hnot (by rw [h.null]; simp))]
    exact h.null
  · dsimp only
    split
    · rename_i hnm
      rw [h.allocated, hown n hnm]
      simp
    · exact h.allocated n
  · split
    · rename_i hnm
      rw [h.mem_stack, hown n hnm]
      simp
    · exact h.mem_stack n
  · refine hm.append hlast ?_
    rw [hnext]
    exact h.pend_linked
  · rw [List.mem_append, h.mem_pend]
    split
    · rename_i hnm
      simp [hnm]
    · rename_i hnm
      simp [hnm]
  · cases after with
    | none =>
      refine ⟨[], rfl, List.nodup_nil, fun n => ?_⟩
      split
      · simp
      · rename_i hnm
        rw [← hl n]
        simp [hnm]
    | some o =>
      refine ⟨[o], rfl, List.nodup_singleton o, fun n => ?_⟩
      split
      · rename_i hnm
        have hno : n ≠ o := fun he => (hafter o (by simp)).2 (he ▸ hnm)
        simp [hno]
      · rename_i hnm
        rw [← hl n]
        simp [hnm]
  · cases after <;> rfl
  · cases after <;> rfl
  · cases after <;> rfl

/-- A node that is deleted was the call's, and is nobody's. -/
theorem pop_free {c' : Call α} {c : Call α} {l : List ℕ} (h : Inv s calls owner stack pend) (hc : calls[i]? = some c)
    (hown : owner n = .call i) (hhides : c.Hides n) (hkeep : ∀ m, c'.Hides m → c.Hides m)
    (hpriv : c'.Private (Function.update s.heap n none) l) (hnd : l.Nodup)
    (hl : ∀ m, m ∈ l ↔ m ≠ n ∧ owner m = .call i) (hholds : c'.holds = none) (hinPop : c'.inPop = c.inPop)
    (hvalues : c'.put + c.hand s.heap = c.put + c'.hand (Function.update s.heap n none)) :
    Ok (s.free n) (calls.set i c') := by
  have hheap : ∀ m, owner m ≠ .call i → Function.update s.heap n none m = s.heap m := by
    intro m hm
    refine Function.update_of_ne (fun he => hm ?_) _ _
    rw [he]
    exact hown
  have hstack : ∀ m ∈ stack, Function.update s.heap n none m = s.heap m := by
    intro m hm
    refine hheap m ?_
    rw [(h.mem_stack m).1 hm]
    simp
  refine ⟨Function.update owner n .free, stack, pend, h.move hc
    (Passes.update (.inr ⟨hown, hhides⟩) (fun j hj => (by cases hj)) fun m _ _ => hkeep m)
    (fun m hm _ => hheap m hm) ?_ (fun m => ?_) (h.stack_linked.congr fun m hm => nextOf_congr (hstack m hm))
    (fun m => ?_) (fun m hm => ?_) (h.pend_linked.congr fun m hm => nextOf_congr (hheap m ?_)) (fun m => ?_)
    ⟨l, hpriv, hnd, fun m => ?_⟩ hholds ?_ ?_⟩
  · by_cases he : n = 0
    · rw [he, Function.update_self]
    · rw [Function.update_of_ne (Ne.symm he)]
      exact h.null
  · show Function.update s.heap n none m = none ↔ _
    by_cases he : m = n
    · rw [he, Function.update_self, Function.update_self]
      simp
    · rw [Function.update_of_ne he, Function.update_of_ne he]
      exact h.allocated m
  · rw [mem_iff_of_update (by rw [hown]; simp) (by simp)]
    exact h.mem_stack m
  · show (valueOf (Function.update s.heap n none) m).isSome
    rw [valueOf_congr (hstack m hm)]
    exact h.stack_value m hm
  · rw [(h.mem_pend m).1 hm]
    simp
  · rw [mem_iff_of_update (by rw [hown]; simp) (by simp)]
    exact h.mem_pend m
  · rw [hl]
    by_cases he : m = n
    · rw [he, Function.update_self]
      simp
    · rw [Function.update_of_ne he]
      simp [he]
  · rw [hinPop]
    rfl
  · show c'.put + _ + _ = c.put + c'.hand (Function.update s.heap n none) + values (Function.update s.heap n none) stack
    rw [hvalues, values_congr hstack]

/-! ## pop -/

theorem linked_step {next : ℕ → ℕ} {first last : ℕ} {m : List ℕ} (h : Linked next first m) (hlast : last ∈ m)
    (hne : next last ≠ 0) : next last ∈ m := by
  obtain ⟨a, b, rfl⟩ := List.append_of_mem hlast
  obtain ⟨c, rfl, -⟩ := h.of_append.uncons hne
  simp

/-- The link word of the last node of a chain is not part of it. -/
theorem linked_write {heap : ℕ → Option (StackNode α)} {first last : ℕ} {m : List ℕ}
    (h : Linked (Function.update (nextOf heap) last 0) first m) (node : StackNode α) :
    Linked (Function.update (nextOf (Function.update heap last (some node))) last 0) first m := by
  refine h.congr fun p _ => ?_
  by_cases he : p = last
  · rw [he, Function.update_self, Function.update_self]
  · rw [Function.update_of_ne he, Function.update_of_ne he]
    exact nextOf_congr (Function.update_of_ne he _ _)

theorem pop_dec {res : Option α} {toDelete : ℕ} (h : Inv s calls owner stack pend)
    (hc : calls[i]? = some (.pop (.dec old res toDelete))) :
    Ok { s with threadsInPop := s.threadsInPop - 1 } (calls.set i (.pop (if s.threadsInPop - 1 = 0 then
      deleteNodes old res toDelete
      else if toDelete ≠ 0 then .walk old res toDelete toDelete else .deleteOld old res))) := by
  have hthreads : s.threadsInPop - 1 + (1 : ℕ) = s.threadsInPop + (0 : ℕ) := by omega
  by_cases hlast : s.threadsInPop - 1 = 0
  · have halone := h.alone hc rfl (by omega)
    rw [if_pos hlast, deleteNodes]
    split
    · rename_i hzero
      refine quiet_ok h hc (fun l _ hp => ?_) (.inr halone) rfl hthreads rfl
      obtain ⟨m, rfl, hm⟩ := hp
      rw [hzero] at hm
      rw [hm.eq_nil]
      rfl
    · rename_i hne
      refine quiet_ok h hc (fun l _ hp => ⟨hne, hp⟩) (.inr halone) rfl hthreads rfl
  · rw [if_neg hlast]
    split
    · rename_i hne
      refine quiet_ok h hc (fun l _ hp => ?_) (.inl fun _ => id) rfl hthreads rfl
      obtain ⟨m, rfl, hm⟩ := hp
      obtain ⟨m', rfl, -⟩ := hm.uncons hne
      exact ⟨_, rfl, hm, List.mem_cons_self⟩
    · rename_i hzero
      have hzero : toDelete = 0 := by simpa using hzero
      refine quiet_ok h hc (fun l _ hp => ?_) (.inl fun _ => id) rfl hthreads rfl
      obtain ⟨m, rfl, hm⟩ := hp
      rw [hzero] at hm
      rw [hm.eq_nil]
      rfl

theorem pop_delete {res : Option α} {next : ℕ} (h : Inv s calls owner stack pend)
    (hc : calls[i]? = some (.pop (.delete old res n next))) :
    Ok (s.free n) (calls.set i (.pop (deleteNodes old res next))) := by
  obtain ⟨l, hp, hnd, hl, -, -⟩ := h.nodes hc
  obtain ⟨m, rfl, hlinked⟩ := hp
  have hown : owner n = .call i := (hl n).1 (by simp)
  have hnd' : old ≠ n ∧ old ∉ m ∧ n ∉ m ∧ m.Nodup := by
    simp only [List.nodup_cons, List.mem_cons, not_or] at hnd
    exact ⟨hnd.1.1, hnd.1.2, hnd.2.1, hnd.2.2⟩
  have herase : (old :: n :: m).erase n = old :: m := by
    rw [List.erase_cons_tail (by simpa using hnd'.1), List.erase_cons_head]
  have hmem : ∀ k, k ∈ old :: m ↔ k ≠ n ∧ owner k = .call i := by
    intro k
    rw [← hl k, ← hnd.mem_erase_iff, herase]
  have hlinked' : Linked (nextOf (Function.update s.heap n none)) next m :=
    hlinked.congr fun k hk => nextOf_congr (Function.update_of_ne (fun he => hnd'.2.2.1 (by rw [← he]; exact hk)) _ _)
  rw [deleteNodes]
  split
  · rename_i hzero
    rw [hzero] at hlinked'
    have hnil := hlinked'.eq_nil
    subst hnil
    exact pop_free h hc hown trivial (fun _ _ => trivial) rfl (List.nodup_singleton old) hmem rfl rfl rfl
  · rename_i hne
    exact pop_free h hc hown trivial (fun _ _ => trivial) ⟨hne, m, rfl, hlinked'⟩
      (List.nodup_cons.2 ⟨hnd'.2.1, hnd'.2.2.2⟩) hmem rfl rfl rfl

theorem pop_inv {pc pc' : PopPc α} (h : Inv s calls owner stack pend) (hc : calls[i]? = some (.pop pc))
    (hm : s.pop choice pc = some (pc', s')) : Ok s' (calls.set i (.pop pc')) := by
  cases pc with
  | enter =>
    cases hm
    have hthreads : s.threadsInPop + 1 + (0 : ℕ) = s.threadsInPop + (1 : ℕ) := by omega
    exact quiet_ok h hc (fun l _ hp => hp) (.inl fun _ => id) rfl hthreads rfl
  | load =>
    simp only [pop] at hm
    split at hm
    · cases hm
      exact quiet_ok h hc (fun l _ hp => hp) (.inl fun _ => id) rfl rfl rfl
    · rename_i hne
      cases hm
      refine ⟨owner, stack, pend, h.quiet hc _ (fun l _ hp => hp) (.inl fun _ => id) (fun n hn => ?_)
        (fun n next he => (by cases he)) rfl rfl⟩
      cases hn
      obtain ⟨rest, hrest, -⟩ := h.stack_linked.uncons hne
      refine .inl ((h.mem_stack _).1 ?_)
      rw [hrest]
      exact List.mem_cons_self
  | leaveEmpty =>
    cases hm
    have hthreads : s.threadsInPop - 1 + (1 : ℕ) = s.threadsInPop + (0 : ℕ) := by omega
    exact quiet_ok h hc (fun l _ hp => hp) (.inl fun _ => id) rfl hthreads rfl
  | readNext n =>
    obtain ⟨node, hnode⟩ := held_allocated h hc rfl
    simp only [pop, hnode] at hm
    cases hm
    refine ⟨owner, stack, pend, h.quiet hc _ (fun l _ hp => hp) (.inl fun _ => id) (fun m hm => .inr hm)
      (fun m next he => ?_) rfl rfl⟩
    cases he
    exact nextOf_some hnode
  | cas n next =>
    simp only [pop] at hm
    split at hm
    · rename_i hhead
      obtain ⟨rfl, -⟩ := hhead
      cases hm
      exact pop_cas h hc
    · cases hm
      exact quiet_ok h hc (fun l _ hp => hp) (.inl fun _ => id) rfl rfl rfl
  | swap n =>
    obtain ⟨l, hp, -, hl, -, hsome⟩ := h.nodes hc
    obtain ⟨rfl, -⟩ := hp
    have hn : n ∈ [n] := List.mem_singleton.2 rfl
    obtain ⟨node, hnode⟩ := hsome n hn
    simp only [pop, hnode] at hm
    cases hm
    refine ⟨owner, stack, pend, h.rewrite hc ((hl n).1 hn) _ (fun l _ hp => hp.1) (fun _ => id) rfl rfl ?_⟩
    show 0 + ((valueOf s.heap n).toList : Multiset α) = 0 + (node.data.toList : Multiset α)
    rw [valueOf_some hnode]
  | check n res =>
    simp only [pop] at hm
    split at hm
    · rename_i hone
      cases hm
      exact quiet_ok h hc (fun l _ hp => hp) (.inr (h.alone hc rfl hone)) rfl rfl rfl
    · cases hm
      refine quiet_ok h hc (fun l hne hp => ?_) (.inl fun m hm => (by cases hm)) rfl rfl rfl
      obtain rfl : l = [n] := hp
      refine ⟨[n], rfl, ⟨rfl, hne n (List.mem_singleton.2 rfl), ?_⟩, List.mem_singleton.2 rfl⟩
      exact Function.update_self ..
  | exchange n res =>
    cases hm
    exact pop_exchange h hc
  | dec n res toDelete =>
    cases hm
    exact pop_dec h hc
  | readDelete old res n =>
    obtain ⟨l, hp, -, hl, -, hsome⟩ := h.nodes hc
    obtain ⟨hne, m, rfl, hlinked⟩ := hp
    obtain ⟨m', rfl, hm'⟩ := hlinked.uncons hne
    obtain ⟨node, hnode⟩ := hsome n (by simp)
    simp only [pop, hnode] at hm
    cases hm
    refine quiet_ok h hc (fun l _ hp => ?_) (.inl fun _ _ => trivial) rfl rfl rfl
    obtain ⟨-, m, rfl, hlinked⟩ := hp
    obtain ⟨m', rfl, hm'⟩ := hlinked.uncons hne
    rw [nextOf_some hnode] at hm'
    exact ⟨m', rfl, hm'⟩
  | delete old res n next =>
    obtain ⟨l, hp, -, -, -, hsome⟩ := h.nodes hc
    obtain ⟨m, rfl, -⟩ := hp
    obtain ⟨node, hnode⟩ := hsome n (by simp)
    simp only [pop, hnode] at hm
    cases hm
    exact pop_delete h hc
  | walk old res first last =>
    obtain ⟨l, hp, -, hl, -, hsome⟩ := h.nodes hc
    obtain ⟨m, rfl, -, hlast⟩ := hp
    obtain ⟨node, hnode⟩ := hsome last (List.mem_cons_of_mem _ hlast)
    simp only [pop, hnode] at hm
    split at hm
    · rename_i hne
      cases hm
      refine quiet_ok h hc (fun l _ hp => ?_) (.inl fun _ => id) rfl rfl rfl
      obtain ⟨m, rfl, hlinked, hlast⟩ := hp
      refine ⟨m, rfl, hlinked, ?_⟩
      rw [← nextOf_some hnode] at hne ⊢
      exact linked_step hlinked hlast hne
    · rename_i hzero
      have hzero : nextOf s.heap last = 0 := by
        rw [nextOf_some hnode]
        simpa using hzero
      cases hm
      refine quiet_ok h hc (fun l _ hp => ?_) (.inl fun m hm => (Option.some.inj hm).symm) rfl rfl rfl
      obtain ⟨m, rfl, hlinked, hlast⟩ := hp
      refine ⟨m, rfl, ?_, hlast⟩
      rw [Function.update_eq_self_iff.2 hzero.symm]
      exact hlinked
  | chainLoad after res first last =>
    cases hm
    exact quiet_ok h hc (fun l _ hp => hp) (.inl fun _ => id) rfl (by cases after <;> rfl) rfl
  | chainStore after res first last next =>
    obtain ⟨l, hp, -, hl, -, hsome⟩ := h.nodes hc
    obtain ⟨m, rfl, -, hlast⟩ := hp
    obtain ⟨node, hnode⟩ := hsome last (List.mem_append_right _ hlast)
    simp only [pop, hnode] at hm
    cases hm
    refine ⟨owner, stack, pend, h.rewrite hc ((hl last).1 (List.mem_append_right _ hlast)) _ (fun l _ hp => ?_)
      (fun _ => id) rfl (by cases after <;> rfl) rfl⟩
    obtain ⟨m, rfl, hm, hlast⟩ := hp
    exact ⟨m, rfl, linked_write hm _, hlast⟩
  | chainCas after res first last =>
    obtain ⟨l, hp, -, hl, -, hsome⟩ := h.nodes hc
    obtain ⟨m, rfl, -, hlast⟩ := hp
    obtain ⟨node, hnode⟩ := hsome last (List.mem_append_right _ hlast)
    simp only [pop, hnode] at hm
    split at hm
    · rename_i heq
      cases hm
      refine pop_chained h hc ?_
      rw [nextOf_some hnode]
      exact heq.1.symm
    · cases hm
      refine ⟨owner, stack, pend, h.rewrite hc ((hl last).1 (List.mem_append_right _ hlast)) _ (fun l _ hp => ?_)
        (fun _ => id) rfl rfl rfl⟩
      obtain ⟨m, rfl, hm, hlast⟩ := hp
      exact ⟨m, rfl, linked_write hm _, hlast⟩
  | deleteOld old res =>
    obtain ⟨l, hp, hnd, hl, -, hsome⟩ := h.nodes hc
    obtain rfl : l = [old] := hp
    obtain ⟨node, hnode⟩ := hsome old (by simp)
    simp only [pop, hnode] at hm
    cases hm
    refine pop_free (l := []) h hc ((hl old).1 (by simp)) rfl (fun _ hm => hm.elim) rfl List.nodup_nil (fun m => ?_)
      rfl rfl rfl
    rw [← hl m]
    simp
  | leave res =>
    cases hm
    have hthreads : s.threadsInPop - 1 + (1 : ℕ) = s.threadsInPop + (0 : ℕ) := by omega
    exact quiet_ok h hc (fun l _ hp => hp) (.inl fun _ => id) rfl hthreads rfl
  | returned res => cases hm
  | undefined => cases hm

/-! ## Runs -/

theorem run_ok {events : List (Event α)} {t : System α} (h : Run.run program.step start events = some t) :
    Ok t.shared t.calls := by
  refine Calls.run_invariant (p := program) Ok (fun s calls op hok => ?_)
    (fun s calls i c choice c' s' hok hc hm => ?_) ⟨fun _ => .free, [], [], inv_start⟩ h
  · obtain ⟨owner, stack, pend, hinv⟩ := hok
    cases op with
    | push value => exact ⟨owner, stack, pend, hinv.enter (fun l => Iff.rfl) rfl rfl rfl rfl⟩
    | pop => exact ⟨owner, stack, pend, hinv.enter (fun l => Iff.rfl) rfl rfl rfl rfl⟩
  · obtain ⟨owner, stack, pend, hinv⟩ := hok
    cases c with
    | push value pc =>
      obtain ⟨⟨pc', r⟩, hp, he⟩ := Option.map_eq_some_iff.1 hm
      cases he
      exact push_inv hinv hc hp
    | pop pc =>
      obtain ⟨⟨pc', r⟩, hp, he⟩ := Option.map_eq_some_iff.1 hm
      cases he
      exact pop_inv hinv hc hp

/-- What a call may use is its own, or it looks at it. -/
theorem uses_cases {heap : ℕ → Option (StackNode α)} {c : Call α} {l : List ℕ} (hp : c.Private heap l)
    (hn : n ∈ c.uses) : c.holds = some n ∨ n ∈ l := by
  cases c with
  | push value pc =>
    cases pc with
    | load a =>
      rw [hp.1]
      exact .inr hn
    | cas a =>
      rw [hp.1]
      exact .inr hn
    | _ => cases hn
  | pop pc =>
    have hchain : ∀ {after : Option ℕ} {first last : ℕ},
        (∃ m, l = after.toList ++ m ∧ Linked (Function.update (nextOf heap) last 0) first m ∧ last ∈ m) →
        n ∈ after.toList ++ [first, last] → n ∈ l := by
      intro after first last hm hn
      obtain ⟨m, rfl, hm, hlast⟩ := hm
      have hfirst : first ∈ m := by
        cases m with
        | nil => cases hlast
        | cons p m =>
          rw [hm.1]
          exact List.mem_cons_self
      simp only [List.mem_append, List.mem_cons, List.not_mem_nil, or_false] at hn ⊢
      rcases hn with hn | rfl | rfl
      · exact .inl hn
      · exact .inr hfirst
      · exact .inr hlast
    have hrest : ∀ {p : ℕ} {m : List ℕ}, Linked (nextOf heap) p m → n ∈ (if p = 0 then [] else [p]) → n ∈ m := by
      intro p m hm hn
      split at hn
      · cases hn
      · rename_i hne
        obtain ⟨m', rfl, -⟩ := hm.uncons hne
        rw [List.mem_singleton.1 hn]
        exact List.mem_cons_self
    cases pc with
    | readNext a =>
      rw [List.mem_singleton.1 hn]
      exact .inl rfl
    | cas a next =>
      rw [List.mem_singleton.1 hn]
      exact .inl rfl
    | swap a =>
      rw [hp.1]
      exact .inr hn
    | check a res =>
      rw [show l = [a] from hp]
      exact .inr hn
    | exchange a res =>
      rw [show l = [a] from hp]
      exact .inr hn
    | dec a res toDelete =>
      obtain ⟨m, rfl, hm⟩ := hp
      exact .inr ((List.mem_cons.1 hn).elim (fun he => he ▸ List.mem_cons_self)
        fun hn => List.mem_cons_of_mem _ (hrest hm hn))
    | readDelete a res k =>
      obtain ⟨hne, m, rfl, hm⟩ := hp
      obtain ⟨m', rfl, -⟩ := hm.uncons hne
      simp only [Call.uses, List.mem_cons, List.not_mem_nil, or_false] at hn
      rcases hn with rfl | rfl <;> simp
    | delete a res k next =>
      obtain ⟨m, rfl, hm⟩ := hp
      rcases List.mem_cons.1 hn with rfl | hn
      · simp
      · rcases List.mem_cons.1 hn with rfl | hn
        · simp
        · exact .inr (by simp [hrest hm hn])
    | walk a res first last =>
      obtain ⟨m, rfl, hm, hlast⟩ := hp
      have hfirst : first ∈ m := by
        cases m with
        | nil => cases hlast
        | cons p m =>
          rw [hm.1]
          exact List.mem_cons_self
      simp only [Call.uses, List.mem_cons, List.not_mem_nil, or_false] at hn
      rcases hn with rfl | rfl | rfl
      · simp
      · simp [hfirst]
      · simp [hlast]
    | chainLoad after res first last => exact .inr (hchain hp hn)
    | chainStore after res first last next => exact .inr (hchain hp hn)
    | chainCas after res first last => exact .inr (hchain hp hn)
    | deleteOld a res =>
      rw [show l = [a] from hp]
      exact .inr hn
    | _ => cases hn

/-- What a call deletes is its own, and hidden. -/
theorem deletes_hidden {heap : ℕ → Option (StackNode α)} {c : Call α} {l : List ℕ} (hp : c.Private heap l)
    (hn : c.deletes = some n) : n ∈ l ∧ c.Hides n := by
  cases c with
  | push value pc => cases hn
  | pop pc =>
    cases pc with
    | delete a res k next =>
      cases hn
      obtain ⟨m, rfl, -⟩ := hp
      exact ⟨by simp, trivial⟩
    | deleteOld a res =>
      cases hn
      rw [show l = [n] from hp]
      exact ⟨List.mem_singleton.2 rfl, rfl⟩
    | _ => cases hn

theorem got_le_hand (heap : ℕ → Option (StackNode α)) (c : Call α) : c.got ≤ c.hand heap := by
  cases c with
  | push value pc => exact Multiset.zero_le _
  | pop pc =>
    cases pc with
    | returned res =>
      cases res with
      | none => exact Multiset.zero_le _
      | some v => exact le_refl _
    | _ => exact Multiset.zero_le _

theorem got_eq_hand {c : Call α} (heap : ℕ → Option (StackNode α)) (h : c.done = true) : c.got = c.hand heap := by
  cases c with
  | push value pc => rfl
  | pop pc =>
    cases pc with
    | returned res => cases res <;> rfl
    | _ => cases h

/-- **Deferred reclamation.** In every run a node that a call may still use is
there, and no other call is about to delete it; no value is given out more often
than it was pushed; and with no call under way the values pushed are those
popped and those reachable from `head_`. -/
theorem reclaimed {events : List (Event α)} {t : System α} (h : Run.run program.step start events = some t) :
    (∀ (i : ℕ) (c : Call α), t.calls[i]? = some c → c.isUndefined = false ∧ ∀ n ∈ c.uses, t.shared.heap n ≠ none ∧
      ∀ (j : ℕ) (d : Call α), j ≠ i → t.calls[j]? = some d → d.deletes ≠ some n) ∧
    Calls.total Call.got t.calls ≤ Calls.total Call.put t.calls ∧
    ((∀ c ∈ t.calls, c.done = true) → ∃ l, Linked (nextOf t.shared.heap) t.shared.head l ∧
      Calls.total Call.put t.calls = Calls.total Call.got t.calls + values t.shared.heap l) := by
  obtain ⟨owner, stack, pend, hinv⟩ := run_ok h
  refine ⟨fun i c hc => ⟨?_, fun n hn => ?_⟩, ?_, fun hdone => ⟨stack, hinv.stack_linked, ?_⟩⟩
  · obtain ⟨l, hp, -⟩ := hinv.own i c hc
    cases c with
    | push value pc => cases pc <;> first | rfl | exact hp.elim
    | pop pc => cases pc <;> first | rfl | exact hp.elim
  · obtain ⟨l, hp, -, hl⟩ := hinv.own i c hc
    have hdeletes : ∀ (j : ℕ) (d : Call α), t.calls[j]? = some d → d.deletes = some n →
        owner n = .call j ∧ d.Hides n := by
      intro j d hd hn
      obtain ⟨m, hq, -, hm⟩ := hinv.own j d hd
      obtain ⟨hmem, hhides⟩ := deletes_hidden hq hn
      exact ⟨(hm n).1 hmem, hhides⟩
    rcases uses_cases hp hn with hold | hmem
    · have hg := hinv.held c (List.mem_of_getElem? hc) n hold
      refine ⟨fun hnone => hg.allocated ((hinv.allocated n).1 hnone), fun j d _ hd hdel => ?_⟩
      obtain ⟨howner, hhides⟩ := hdeletes j d hd hdel
      exact hg.shown j d hd howner hhides
    · have howner := (hl n).1 hmem
      refine ⟨fun hnone => ?_, fun j d hji hd hdel => ?_⟩
      · rw [(hinv.allocated n).1 hnone] at howner
        cases howner
      · have hother := (hdeletes j d hd hdel).1
        rw [howner] at hother
        exact hji (Owner.call.inj hother).symm
  · rw [hinv.conserved]
    exact (Calls.total_le_total fun c _ => got_le_hand t.shared.heap c).trans (Multiset.le_add_right _ _)
  · rw [hinv.conserved, Calls.total_congr fun c hc => got_eq_hand t.shared.heap (hdone c hc)]

/-- One call after another: a value is pushed and popped, a second one stays. -/
def pushPop : List (Event ℕ) :=
  [.call (.push 5), .move 0 { address := 8 }, .move 0 {}, .move 0 {}, .call .pop] ++ List.replicate 9 (.move 1 {}) ++
    [.call (.push 6), .move 2 { address := 8 }, .move 2 {}, .move 2 { spurious := true }, .move 2 {}, .move 2 {}]

theorem reclaimed_pushPop :
    ∃ t, Run.run program.step start pushPop = some t ∧ (∀ c ∈ t.calls, c.done = true) ∧
      Calls.total Call.put t.calls = {5, 6} ∧ Calls.total Call.got t.calls = {5} ∧
      ∃ l, Linked (nextOf t.shared.heap) t.shared.head l ∧ ({5, 6} : Multiset ℕ) = {5} + values t.shared.heap l := by
  have heval : (Run.run program.step start pushPop).map (fun t => t.calls) =
      some [.push 5 .returned, .pop (.returned (some 5)), .push 6 .returned] := by decide +kernel
  obtain ⟨t, ht, hcalls⟩ := Option.map_eq_some_iff.1 heval
  have hdone : ∀ c ∈ t.calls, c.done = true := by
    rw [hcalls]
    decide
  have hput : Calls.total Call.put t.calls = {5, 6} := by
    rw [hcalls]
    rfl
  have hgot : Calls.total Call.got t.calls = {5} := by
    rw [hcalls]
    rfl
  obtain ⟨-, -, hrest⟩ := reclaimed ht
  rw [← hput, ← hgot]
  exact ⟨t, ht, hdone, rfl, rfl, hrest hdone⟩

end Learncc.ThreadsafeStackUk
