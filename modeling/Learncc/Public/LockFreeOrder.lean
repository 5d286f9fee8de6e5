/-
`lock_free_queue` as a queue. A push takes effect when `tail` moves past the node
it has put its value into, which may be a move of another push that helps it; a
pop when its exchange takes the head away, or when it finds the head last. If a
push that finds a node without a value finds it last, the calls are those of a
queue in the order in which they take effect.
-/
import Learncc.Public.LockFreeRun
import Learncc.Lib.Effect
import Learncc.Lib.LinkedQueue

namespace Learncc.LockFreeQueue

variable {α : Type} {s s' : LockFreeQueue α} {calls : List (Call α)} {pre post l : List ℕ} {c c' d : Call α}
  {i j n : ℕ} {x : Node α} {value : α} {choice : Choice} {heap heap' : ℕ → Option (Node α)} {a : List α}

/-- The value of a push. -/
def Op.pushed : Op α → Option α
  | .push value => some value
  | .pop => none

/-- The push has put its value into a node. -/
def PushPc.stored : PushPc → Bool
  | .loadNext .. | .casNext .. | .deleteNew .. | .setTail _ _ _ none | .drop _ _ _ none | .returned => true
  | _ => false

namespace Call

def op : Call α → Op α
  | .push value _ => .push value
  | .pop _ => .pop

def answer : Call α → Option (Option α)
  | .push _ .returned => some none
  | .pop (.returned res) => some res
  | _ => none

/-- The answer of a call that has taken effect. -/
def effect (s : LockFreeQueue α) : Call α → Option (Option α)
  | .push value pc => if pc.stored ∧ (Call.push value pc).fills ≠ some s.tail.ptr then some none else none
  | .pop pc =>
    match pc with
    | .exchange oldHead => some (valueOf s.heap oldHead.ptr)
    | .drop _ _ (.leave res) | .returned res => some res
    | _ => none

theorem effect_of_stored {pc : PushPc} (hstored : pc.stored = true)
    (hfills : (Call.push value pc).fills ≠ some s.tail.ptr) : effect s (.push value pc) = some none :=
  if_pos ⟨hstored, hfills⟩

theorem fills_held (h : c.fills = some n) : c.holds = some n := by
  cases c with
  | push value pc =>
    cases pc with
    | setTail newTail oldTail current after =>
      cases after with
      | none => exact h
      | some m => cases h
    | loadNext m oldTail => exact h
    | casNext m oldTail => exact h
    | deleteNew m newNext oldTail => exact h
    | _ => cases h
  | pop pc => cases h

end Call

/-- The values of the nodes from `head` to `tail`. -/
def Holds (s : LockFreeQueue α) (a : List α) : Prop :=
  Between (fun n => (nextOf s.heap n).ptr) (valueOf s.heap) s.head.ptr s.tail.ptr a

/-- The push whose value is in the last node is one, and a pop that has found a
node first finds it first as long as it is last. -/
structure Represents (s : LockFreeQueue α) (calls : List (Call α)) (a : List α) : Prop where
  ok : Ok s calls
  holds : s.Holds a
  filler : ∀ (i : ℕ) (c : Call α), calls[i]? = some c → c.fills = some s.tail.ptr →
    valueOf s.heap s.tail.ptr = c.op.pushed ∧
      ∀ (j : ℕ) (d : Call α), j ≠ i → calls[j]? = some d → d.fills ≠ some s.tail.ptr
  first : ∀ oldHead, Call.pop (.readTail oldHead) ∈ calls → oldHead.ptr = s.tail.ptr → oldHead.ptr = s.head.ptr

/-! ## Nodes that a move does not change -/

/-- The nodes before `tail`, `tail`, and the nodes from which other calls take the
value next. -/
def Kept (s : LockFreeQueue α) (calls : List (Call α)) (i : ℕ) (pre : List ℕ) (n : ℕ) : Prop :=
  n ∈ pre ∨ n = s.tail.ptr ∨ ∃ (j : ℕ) (d : Call α), j ≠ i ∧ calls[j]? = some d ∧ d.takes = some n

/-- Neither the values of these nodes change nor the links before `tail`. -/
structure Same (s : LockFreeQueue α) (calls : List (Call α)) (i : ℕ) (pre : List ℕ) (heap' : ℕ → Option (Node α)) :
    Prop where
  value : ∀ n, Kept s calls i pre n → valueOf heap' n = valueOf s.heap n
  next : ∀ n ∈ pre, nextOf heap' n = nextOf s.heap n

theorem Kept.there (hk : Kept s calls i pre n) (h : Inv s calls pre post) :
    (∃ x, s.heap n = some x) ∧ Calls.total (Call.places n) calls = 0 := by
  rcases hk with hpre | rfl | ⟨j, d, -, hd, htakes⟩
  · exact h.chained (List.mem_append_left _ hpre)
  · exact h.chained tail_mem
  · obtain ⟨hx, hzero, -⟩ := h.shared hd (Call.takes_held htakes)
    exact ⟨hx, hzero⟩

theorem Same.refl : Same s calls i pre s.heap := ⟨fun _ _ => rfl, fun _ _ => rfl⟩

/-- A node that is not one of these changes. -/
theorem Same.update (hn : ¬ Kept s calls i pre n) (b : Option (Node α)) :
    Same s calls i pre (Function.update s.heap n b) := by
  refine ⟨fun m hm => valueOf_congr ?_, fun m hm => nextOf_congr ?_⟩
  · refine Function.update_of_ne (fun he => hn ?_) _ _
    rw [← he]
    exact hm
  · refine Function.update_of_ne (fun he => hn (.inl ?_)) _ _
    rw [← he]
    exact hm

theorem Same.alloc (h : Inv s calls pre post) (hn : s.heap n = none) (b : Option (Node α)) :
    Same s calls i pre (Function.update s.heap n b) := by
  refine Same.update (fun hk => ?_) b
  obtain ⟨⟨x, hx⟩, -⟩ := hk.there h
  rw [hn] at hx
  cases hx

theorem Same.own (h : Inv s calls pre post) (hc : calls[i]? = some c) (hn : n ∈ c.owns) (b : Option (Node α)) :
    Same s calls i pre (Function.update s.heap n b) := by
  refine Same.update (fun hk => ?_) b
  obtain ⟨-, hzero⟩ := hk.there h
  have hone := Calls.le_total (f := Call.places n) hc
  have hpos := Call.places_pos hn
  omega

/-- The count of a node changes. -/
theorem Same.count {k : NodeCounter} (hx : s.heap n = some x) :
    Same s calls i pre (Function.update s.heap n (some { x with count := k })) := by
  refine ⟨fun m _ => ?_, fun m _ => ?_⟩
  · by_cases hmn : m = n
    · rw [hmn, valueOf_some hx, valueOf_some (Function.update_self ..)]
    · exact valueOf_congr (Function.update_of_ne hmn _ _)
  · by_cases hmn : m = n
    · rw [hmn, nextOf_some hx, nextOf_some (Function.update_self ..)]
    · exact nextOf_congr (Function.update_of_ne hmn _ _)

/-- The link of the last node changes. -/
theorem Same.link {p : CountedNodePtr} (h : Inv s calls pre post) (hx : s.heap s.tail.ptr = some x) :
    Same s calls i pre (Function.update s.heap s.tail.ptr (some { x with next := p })) := by
  refine ⟨fun m _ => ?_, fun m hm => nextOf_congr (Function.update_of_ne (fun he => ?_) _ _)⟩
  · by_cases hmn : m = s.tail.ptr
    · rw [hmn, valueOf_some hx, valueOf_some (Function.update_self ..)]
    · exact valueOf_congr (Function.update_of_ne hmn _ _)
  · rw [he] at hm
    exact h.tail_not_mem.1 hm

/-! ## What a move does -/

/-- The object is left alone. -/
structure Still (s s' : LockFreeQueue α) (calls : List (Call α)) (i : ℕ) (pre : List ℕ) (c c' : Call α) : Prop where
  head : s'.head.ptr = s.head.ptr
  tail : s'.tail.ptr = s.tail.ptr
  same : Same s calls i pre s'.heap
  effect : c'.effect s' = c.effect s
  fills : c'.fills = some s.tail.ptr → c.fills = some s.tail.ptr
  first : ∀ oldHead, c' = .pop (.readTail oldHead) → oldHead.ptr = s.head.ptr

/-- A push that looks at the queue only, or changes what is not seen. -/
theorem Still.push {pc pc' : PushPc} (hhead : s'.head = s.head) (htail : s'.tail.ptr = s.tail.ptr)
    (hsame : Same s calls i pre s'.heap) (hstored : pc'.stored = pc.stored)
    (hfills : (Call.push value pc').fills = (Call.push value pc).fills) :
    Still s s' calls i pre (.push value pc) (.push value pc') := by
  refine ⟨congrArg _ hhead, htail, hsame, ?_, fun he => by rw [← hfills]; exact he, fun _ he => by cases he⟩
  simp only [Call.effect, hstored, hfills, htail]

theorem drop_does {π : Type} {undefined done pc' : π} {pc : Drop → π} {ptr : ℕ} {dr : Drop} {f : π → Call α}
    (hd : Drops ptr (fun dr => f (pc dr)) (f done)) (h : Inv s calls pre post) (hc : calls[i]? = some (f (pc dr)))
    (hm : s.drop undefined ptr pc done dr = some (pc', s')) :
    (pc' = done ∨ ∃ dr', pc' = pc dr') ∧ s'.head = s.head ∧ s'.tail = s.tail ∧ Same s calls i pre s'.heap := by
  cases dr with
  | load ch =>
    obtain ⟨⟨x, hx⟩, -, -⟩ := h.shared hc (hd.load ch).1
    simp only [drop, onNode_some hx] at hm
    cases hm
    exact ⟨.inr ⟨_, rfl⟩, rfl, rfl, Same.refl⟩
  | cas ch old =>
    obtain ⟨⟨x, hx⟩, -, -⟩ := h.shared hc (hd.cas ch old).1
    simp only [drop, onNode_some hx] at hm
    split at hm
    · cases hm
      refine ⟨?_, rfl, rfl, Same.count hx⟩
      split
      · exact .inr ⟨_, rfl⟩
      · exact .inl rfl
    · cases hm
      exact ⟨.inr ⟨_, rfl⟩, rfl, rfl, Same.refl⟩
  | delete =>
    have howns : ptr ∈ (f (pc .delete)).owns := by
      rw [hd.delete.2.1]
      exact List.mem_cons_self
    obtain ⟨⟨x, hx⟩, -, -, -⟩ := h.own (n := ptr) hc howns
    simp only [drop, onNode_some hx] at hm
    cases hm
    exact ⟨.inl rfl, rfl, rfl, Same.own h hc howns none⟩

theorem push_does {pc pc' : PushPc} (h : Inv s calls pre post) (hc : calls[i]? = some (.push value pc))
    (hlast : ∀ n oldTail x, pc = .casData n oldTail → s.heap oldTail.ptr = some x → x.data = none →
      oldTail.ptr = s.tail.ptr)
    (hm : s.push value choice pc = some (pc', s')) :
    Still s s' calls i pre (.push value pc) (.push value pc') ∨
    (∃ n oldTail x, pc = .casData n oldTail ∧ pc' = .loadNext n oldTail ∧ oldTail.ptr = s.tail.ptr ∧
      s.heap s.tail.ptr = some x ∧ x.data = none ∧ s' = s.write s.tail.ptr { x with data := some value }) ∨
    ∃ newTail after, pc = .setTail newTail s.tail s.tail.ptr after ∧
      pc' = .drop s.tail.ptr (.load (.freeExternal s.tail.externalCount)) s.tail after ∧
      nextOf s.heap s.tail.ptr = newTail ∧ newTail.ptr ≠ 0 ∧ valueOf s.heap s.tail.ptr ≠ none ∧
      s' = { s with tail := newTail } := by
  have hk := h.knows _ (List.mem_of_getElem? hc)
  cases pc with
  | alloc =>
    simp only [push, alloc] at hm
    split at hm
    · rename_i hfree
      cases hm
      exact .inl (Still.push rfl rfl (Same.alloc h hfree.2 _) rfl rfl)
    · cases hm
  | loadTail n =>
    cases hm
    exact .inl (Still.push rfl rfl Same.refl rfl rfl)
  | increase n oldTail =>
    simp only [push] at hm
    split at hm
    · rename_i hsame
      subst hsame
      cases hm
      exact .inl (Still.push rfl rfl Same.refl rfl rfl)
    · cases hm
      exact .inl (Still.push rfl rfl Same.refl rfl rfl)
  | casData n oldTail =>
    obtain ⟨⟨x, hx⟩, -, -⟩ := h.shared (n := oldTail.ptr) hc rfl
    simp only [push, onNode_some hx] at hm
    cases hdata : x.data with
    | none =>
      simp only [hdata] at hm
      cases hm
      have htail := hlast n oldTail x rfl hx hdata
      rw [htail] at hx ⊢
      exact .inr (.inl ⟨n, oldTail, x, rfl, rfl, htail, hx, hdata, rfl⟩)
    | some v =>
      simp only [hdata] at hm
      cases hm
      exact .inl (Still.push rfl rfl Same.refl rfl rfl)
  | loadNext n oldTail =>
    obtain ⟨⟨x, hx⟩, -, -⟩ := h.shared (n := oldTail.ptr) hc rfl
    simp only [push, onNode_some hx] at hm
    cases hm
    exact .inl (Still.push rfl rfl Same.refl rfl rfl)
  | casNext n oldTail =>
    obtain ⟨⟨x, hx⟩, -, -⟩ := h.shared (n := oldTail.ptr) hc rfl
    simp only [push, onNode_some hx] at hm
    split at hm
    · rename_i hnext
      cases hm
      obtain ⟨htail, -⟩ := h.last_of_next (n := oldTail.ptr) hc rfl hx (by rw [hnext])
      refine .inl (Still.push rfl rfl ?_ rfl rfl)
      rw [htail] at hx ⊢
      exact Same.link h hx
    · cases hm
      exact .inl (Still.push rfl rfl Same.refl rfl rfl)
  | deleteNew n newNext oldTail =>
    obtain ⟨⟨x, hx⟩, -, -, -⟩ := h.own (n := n) hc List.mem_cons_self
    simp only [push, onNode_some hx] at hm
    cases hm
    exact .inl (Still.push rfl rfl (Same.own h hc List.mem_cons_self none) rfl rfl)
  | helpNext n oldTail =>
    obtain ⟨⟨x, hx⟩, -, -⟩ := h.shared (n := oldTail.ptr) hc rfl
    simp only [push, onNode_some hx] at hm
    split at hm
    · rename_i hnext
      cases hm
      obtain ⟨htail, -⟩ := h.last_of_next (n := oldTail.ptr) hc rfl hx (by rw [hnext])
      refine .inl (Still.push rfl rfl ?_ rfl rfl)
      rw [htail] at hx ⊢
      exact Same.link h hx
    · cases hm
      exact .inl (Still.push rfl rfl Same.refl rfl rfl)
  | allocNew oldNext oldTail =>
    simp only [push, alloc] at hm
    split at hm
    · rename_i hfree
      cases hm
      exact .inl (Still.push rfl rfl (Same.alloc h hfree.2 _) rfl rfl)
    · cases hm
  | setTail newTail oldTail current after =>
    obtain rfl : oldTail.ptr = current := hk.loops _ _ rfl
    obtain ⟨hnext, hne⟩ := hk.links _ _ rfl
    simp only [push] at hm
    split at hm
    · rename_i hsame
      obtain ⟨rfl, -⟩ := hsame
      cases hm
      refine .inr (.inr ⟨newTail, after, rfl, ?_, hnext, hne, hk.filled _ rfl rfl, rfl⟩)
      rw [PushPc.settled, if_pos rfl]
    · cases hm
      split
      · exact .inl (Still.push rfl rfl Same.refl (by cases after <;> rfl) (by cases after <;> rfl))
      · -- The node was not the last any more, so the push has taken effect.
        rename_i hptr
        rw [PushPc.settled, if_neg hptr]
        refine .inl ⟨rfl, rfl, Same.refl, ?_, fun he => (by cases he), fun _ he => (by cases he)⟩
        cases after with
        | none => simp [Call.effect, PushPc.stored, Call.fills, Ne.symm hptr]
        | some m => rfl
  | drop ptr dr oldTail after =>
    obtain ⟨hpc, hhead, htail, hsame⟩ := drop_does (f := Call.push value)
      (drops_push value ptr oldTail after) h hc hm
    refine .inl (Still.push hhead (congrArg _ htail) hsame ?_ ?_)
    · rcases hpc with rfl | ⟨dr', rfl⟩ <;> cases after <;> rfl
    · rcases hpc with rfl | ⟨dr', rfl⟩ <;> cases after <;> rfl
  | returned => cases hm
  | undefined => cases hm

/-- A pop that looks at the queue only, or changes what is not seen. -/
theorem Still.pop {pc pc' : PopPc α} (hhead : s'.head.ptr = s.head.ptr) (htail : s'.tail.ptr = s.tail.ptr)
    (hsame : Same s calls i pre s'.heap) (heffect : Call.effect s' (.pop pc') = Call.effect s (.pop pc))
    (hfirst : ∀ oldHead, pc' = .readTail oldHead → oldHead.ptr = s.head.ptr) :
    Still s s' calls i pre (.pop pc) (.pop pc') :=
  ⟨hhead, htail, hsame, heffect, fun he => (by cases he), fun oldHead he => hfirst oldHead (Call.pop.inj he)⟩

theorem pop_does {pc pc' : PopPc α} (h : Inv s calls pre post) (hc : calls[i]? = some (.pop pc))
    (hm : s.pop pc = some (pc', s')) :
    Still s s' calls i pre (.pop pc) (.pop pc') ∨
    (∃ oldHead, pc = .readTail oldHead ∧ oldHead.ptr = s.tail.ptr ∧
      pc' = .drop oldHead.ptr (.load .releaseRef) (.leave none) ∧ s' = s) ∨
    ∃ next, pc = .casHead s.head next ∧ pc' = .exchange s.head ∧ nextOf s.heap s.head.ptr = next ∧
      s.head.ptr ≠ s.tail.ptr ∧ s' = { s with head := next } := by
  have hk := h.knows _ (List.mem_of_getElem? hc)
  cases pc with
  | loadHead =>
    cases hm
    exact .inl (Still.pop rfl rfl Same.refl rfl fun _ he => (by cases he))
  | increase oldHead =>
    simp only [pop] at hm
    split at hm
    · rename_i hsame
      subst hsame
      cases hm
      refine .inl (Still.pop rfl rfl Same.refl rfl fun oldHead he => ?_)
      cases he
      rfl
    · cases hm
      exact .inl (Still.pop rfl rfl Same.refl rfl fun _ he => (by cases he))
  | readTail oldHead =>
    cases hm
    split
    · rename_i hlast
      exact .inr (.inl ⟨oldHead, rfl, hlast, rfl, rfl⟩)
    · exact .inl (Still.pop rfl rfl Same.refl rfl fun _ he => (by cases he))
  | loadNext oldHead =>
    obtain ⟨⟨x, hx⟩, -, -⟩ := h.shared (n := oldHead.ptr) hc rfl
    simp only [pop, onNode_some hx] at hm
    cases hm
    exact .inl (Still.pop rfl rfl Same.refl rfl fun _ he => (by cases he))
  | casHead oldHead next =>
    obtain ⟨hnext, -⟩ := hk.links _ _ rfl
    simp only [pop] at hm
    split at hm
    · rename_i hsame
      subst hsame
      cases hm
      exact .inr (.inr ⟨next, rfl, rfl, hnext, hk.beyond _ rfl, rfl⟩)
    · cases hm
      exact .inl (Still.pop rfl rfl Same.refl rfl fun _ he => (by cases he))
  | exchange oldHead =>
    obtain ⟨⟨x, hx⟩, -, -⟩ := h.shared (n := oldHead.ptr) hc rfl
    obtain ⟨hnot, -⟩ := hk.takes oldHead.ptr rfl
    simp only [pop, onNode_some hx] at hm
    cases hm
    have hkept : ¬ Kept s calls i pre oldHead.ptr := by
      rintro (hpre | htail | ⟨j, d, hji, hd, htakes⟩)
      · exact hnot (List.mem_append_left _ hpre)
      · rw [htail] at hnot
        exact hnot tail_mem
      · have htwo := Calls.add_le_total (f := Call.taken oldHead.ptr) hc hd hji.symm
        have hone : Call.taken oldHead.ptr (.pop (.exchange oldHead) : Call α) = 1 := if_pos rfl
        have hother : d.taken oldHead.ptr = 1 := if_pos htakes
        have hle := h.taken oldHead.ptr
        omega
    refine .inl (Still.pop rfl rfl (Same.update hkept _) ?_ fun _ he => (by cases he))
    exact congrArg some (valueOf_some hx).symm
  | drop ptr dr after =>
    obtain ⟨hpc, hhead, htail, hsame⟩ := drop_does (f := Call.pop) (drops_pop ptr after) h hc hm
    refine .inl (Still.pop (congrArg _ hhead) (congrArg _ htail) hsame ?_ fun oldHead he => ?_)
    · rcases hpc with rfl | ⟨dr', rfl⟩ <;> cases after <;> rfl
    · rcases hpc with rfl | ⟨dr', rfl⟩
      · cases after <;> cases he
      · cases he
  | returned res => cases hm
  | undefined => cases hm

/-! ## The queue -/

/-- What can be seen of a call depends on the node it takes the value from and on
whether it fills the last one. -/
theorem Call.effect_congr (hvalue : ∀ n, d.takes = some n → valueOf s'.heap n = valueOf s.heap n)
    (hfills : d.fills = some s'.tail.ptr ↔ d.fills = some s.tail.ptr) : d.effect s' = d.effect s := by
  cases d with
  | push value pc => simp only [Call.effect, ne_eq, hfills]
  | pop pc =>
    cases pc with
    | exchange oldHead => exact congrArg some (hvalue oldHead.ptr rfl)
    | drop ptr dr after => cases after <;> rfl
    | _ => rfl

theorem Represents.still (h : Represents s calls a) (hinv : Inv s calls pre post) (hc : calls[i]? = some c)
    (hst : Still s s' calls i pre c c') (hop : c'.op = c.op) (hok : Ok s' (calls.set i c')) :
    (∀ j, Calls.effectAt Call.effect s' (calls.set i c') j = Calls.effectAt Call.effect s calls j) ∧
      Represents s' (calls.set i c') a := by
  obtain ⟨hhead, htail, hsame, heffect, hfills, hfirst⟩ := hst
  have hlast := hsame.value s.tail.ptr (.inr (.inl rfl))
  refine ⟨fun j => ?_, hok, ?_, fun k e hk hf => ?_, fun oldHead hmem hptr => ?_⟩
  · by_cases hji : j = i
    · rw [hji, Calls.effectAt_set_self hc, heffect, Calls.effectAt, hc]
      rfl
    · refine Calls.effectAt_set_ne hji fun d hd => Call.effect_congr (fun n hn => ?_) (by rw [htail])
      exact hsame.value n (.inr (.inr ⟨j, d, hji, hd, hn⟩))
  · unfold Holds
    rw [hhead, htail]
    refine h.holds.congr (LinkPath.of_linked hinv.linked) fun n hn => ⟨?_, hsame.value n (.inl hn)⟩
    exact congrArg CountedNodePtr.ptr (hsame.next n hn)
  · rw [htail] at hf ⊢
    rw [hlast]
    rcases Calls.getElem?_set_cases hk with ⟨rfl, rfl⟩ | ⟨hki, hk⟩
    · obtain ⟨hv, hothers⟩ := h.filler k c hc (hfills hf)
      refine ⟨hv.trans (congrArg Op.pushed hop.symm), fun j d hji hd => hothers j d hji ?_⟩
      rwa [List.getElem?_set_ne hji.symm] at hd
    · obtain ⟨hv, hothers⟩ := h.filler k e hk hf
      refine ⟨hv, fun j d hjk hd hdf => ?_⟩
      rcases Calls.getElem?_set_cases hd with ⟨rfl, rfl⟩ | ⟨-, hd⟩
      · exact hothers j c hjk hc (hfills hdf)
      · exact hothers j d hjk hd hdf
  · rw [htail] at hptr
    rw [hhead]
    rcases Calls.mem_set hmem with he | ⟨j, -, hj⟩
    · exact hfirst oldHead he.symm
    · exact h.first oldHead (List.mem_of_getElem? hj) hptr

/-- A push puts its value into the last node, which the queue does not show yet. -/
theorem Represents.fill {oldTail : CountedNodePtr} {m : ℕ} (h : Represents s calls a) (hinv : Inv s calls pre post)
    (hc : calls[i]? = some (.push value (.casData m oldTail))) (htail : oldTail.ptr = s.tail.ptr)
    (hx : s.heap s.tail.ptr = some x) (hdata : x.data = none)
    (hs : s' = s.write s.tail.ptr { x with data := some value })
    (hok : Ok s' (calls.set i (.push value (.loadNext m oldTail)))) :
    (∀ j, Calls.effectAt Call.effect s' (calls.set i (.push value (.loadNext m oldTail))) j =
        Calls.effectAt Call.effect s calls j) ∧
      Represents s' (calls.set i (.push value (.loadNext m oldTail))) a := by
  subst hs
  have hnone : ∀ (j : ℕ) (d : Call α), calls[j]? = some d → d.fills ≠ some s.tail.ptr := by
    intro j d hd hf
    have hv := (h.filler j d hd hf).1
    rw [valueOf_some hx, hdata] at hv
    cases d with
    | push v pc => cases hv
    | pop pc => cases hf
  refine ⟨fun j => ?_, hok, ?_, fun k e hk hf => ?_, fun oldHead hmem hptr => ?_⟩
  · by_cases hji : j = i
    · rw [hji, Calls.effectAt_set_self hc, Calls.effectAt, hc]
      exact if_neg fun hnot => hnot.2 (congrArg some htail)
    · refine Calls.effectAt_set_ne hji fun d hd => Call.effect_congr (fun n hn => ?_) Iff.rfl
      refine valueOf_congr (write_heap_ne fun he => ?_)
      have hnot := ((hinv.knows d (List.mem_of_getElem? hd)).takes n hn).1
      rw [he] at hnot
      exact hnot tail_mem
  · refine h.holds.congr (LinkPath.of_linked hinv.linked) fun n hn => ?_
    have hne : n ≠ s.tail.ptr := fun he => hinv.tail_not_mem.1 (by rw [← he]; exact hn)
    exact ⟨congrArg CountedNodePtr.ptr (nextOf_congr (write_heap_ne hne)), valueOf_congr (write_heap_ne hne)⟩
  · rcases Calls.getElem?_set_cases hk with ⟨rfl, rfl⟩ | ⟨-, hk⟩
    · refine ⟨valueOf_some write_heap_self, fun j d hji hd => hnone j d ?_⟩
      rwa [List.getElem?_set_ne hji.symm] at hd
    · exact absurd hf (hnone k e hk)
  · rcases Calls.mem_set hmem with he | ⟨j, -, hj⟩
    · cases he
    · exact h.first oldHead (List.mem_of_getElem? hj) hptr

/-- A push whose value is in a node has taken effect once the node is not the last. -/
theorem Call.effect_of_fills (h : c.fills = some n) : c.effect s = if n = s.tail.ptr then none else some none := by
  cases c with
  | push value pc =>
    have hstored : pc.stored = true := by
      cases pc with
      | setTail newTail oldTail current after =>
        cases after with
        | none => rfl
        | some m => cases h
      | loadNext m oldTail => rfl
      | casNext m oldTail => rfl
      | deleteNew m newNext oldTail => rfl
      | _ => cases h
    simp only [Call.effect, hstored, h]
    split <;> simp_all
  | pop pc => cases h

/-- `tail` moves past the last node: the push that has filled it takes effect. -/
theorem Represents.advance {newTail : CountedNodePtr} {after : Option ℕ} {pc' : PushPc} (h : Represents s calls a)
    (hinv : Inv s calls pre post) (hc : calls[i]? = some (.push value (.setTail newTail s.tail s.tail.ptr after)))
    (hpc : pc' = .drop s.tail.ptr (.load (.freeExternal s.tail.externalCount)) s.tail after)
    (hnext : nextOf s.heap s.tail.ptr = newTail) (hne : newTail.ptr ≠ 0) (hfilled : valueOf s.heap s.tail.ptr ≠ none)
    (hs : s' = { s with tail := newTail }) (hok : Ok s' (calls.set i (.push value pc'))) :
    ∃ k d r a', calls[k]? = some d ∧ Call.effect s d = none ∧
      Calls.effectAt Call.effect s' (calls.set i (.push value pc')) k = some r ∧
      (∀ j, j ≠ k → Calls.effectAt Call.effect s' (calls.set i (.push value pc')) j =
        Calls.effectAt Call.effect s calls j) ∧
      Fifo d.op.pushed a r a' ∧ Represents s' (calls.set i (.push value pc')) a' := by
  subst hs
  -- The node behind the last one is new, so no call holds it.
  have hlinked : Linked (fun n => (nextOf s.heap n).ptr) (nextOf s.heap s.tail.ptr).ptr post := hinv.linked.of_append
  rw [hnext] at hlinked
  obtain ⟨rest, rfl, -⟩ := hlinked.uncons hne
  have hunheld : ∀ (j : ℕ) (d : Call α), calls[j]? = some d → d.holds ≠ some newTail.ptr := by
    intro j d hd hheld
    have hzero := (hinv.fresh newTail.ptr List.mem_cons_self).2
    have hpos := (hinv.shared hd hheld).2.2
    omega
  have hnodup := hinv.linked.nodup
  rw [chain, List.nodup_append] at hnodup
  have hnot : newTail.ptr ∉ pre := fun hmem => hnodup.2.2 _ hmem _ (List.mem_cons_of_mem _ List.mem_cons_self) rfl
  have hmoved : newTail.ptr ≠ s.tail.ptr := by
    intro he
    rw [he] at hnodup
    exact (List.nodup_cons.1 hnodup.2.1).1 List.mem_cons_self
  obtain ⟨d, hd, hfills⟩ := hinv.busy hfilled
  obtain ⟨k, hk⟩ := List.mem_iff_getElem?.1 hd
  obtain ⟨hv, hunique⟩ := h.filler k d hk hfills
  obtain ⟨v, hpushed⟩ := Option.ne_none_iff_exists'.1 hfilled
  refine ⟨k, d, none, a ++ [v], hk, ?_, ?_, fun j hjk => ?_, ?_, hok, ?_, fun m e hm hf => ?_,
    fun oldHead hmem hptr => ?_⟩
  · rw [Call.effect_of_fills hfills, if_pos rfl]
  · by_cases hki : k = i
    · rw [hki] at hk ⊢
      rw [hc] at hk
      cases hk
      rw [Calls.effectAt_set_self hc, hpc]
      cases after with
      | none =>
        refine Call.effect_of_stored rfl fun he => ?_
        cases he
      | some m => cases hfills
    · rw [Calls.effectAt, List.getElem?_set_ne (Ne.symm hki), hk]
      exact (Call.effect_of_fills hfills).trans (if_neg hmoved.symm)
  · by_cases hji : j = i
    · -- A push that helps has not taken effect itself.
      rw [hji] at hjk ⊢
      rw [Calls.effectAt_set_self hc, Calls.effectAt, hc, hpc]
      cases after with
      | none => exact absurd rfl (hunique i _ hjk hc)
      | some m => rfl
    · refine Calls.effectAt_set_ne hji fun e he => Call.effect_congr (fun _ _ => rfl) ?_
      exact ⟨fun hf => absurd (Call.fills_held hf) (hunheld j e he), fun hf => absurd hf (hunique j e hjk he)⟩
  · rw [← hv, hpushed]
    exact .push v a
  · exact h.holds.snoc (LinkPath.of_linked hinv.linked) hpushed (congrArg CountedNodePtr.ptr hnext) hmoved hnot
  · rcases Calls.getElem?_set_cases hm with ⟨-, rfl⟩ | ⟨-, hm⟩
    · rw [hpc] at hf
      cases hf
    · exact absurd (Call.fills_held hf) (hunheld m e hm)
  · rcases Calls.mem_set hmem with he | ⟨j, -, hj⟩
    · cases he
    · exact absurd (congrArg some hptr) (hunheld j _ hj)

/-- A call that goes on to fill no node is none of those that fill the last one. -/
theorem Represents.others (h : Represents s calls a) (hnone : c'.fills = none) {k : ℕ}
    (hk : (calls.set i c')[k]? = some d) (hf : d.fills = some s.tail.ptr) :
    valueOf s.heap s.tail.ptr = d.op.pushed ∧
      ∀ (j : ℕ) (e : Call α), j ≠ k → (calls.set i c')[j]? = some e → e.fills ≠ some s.tail.ptr := by
  rcases Calls.getElem?_set_cases hk with ⟨-, rfl⟩ | ⟨-, hk⟩
  · rw [hnone] at hf
    cases hf
  · obtain ⟨hv, hothers⟩ := h.filler k d hk hf
    refine ⟨hv, fun j e hjk he hef => ?_⟩
    rcases Calls.getElem?_set_cases he with ⟨-, rfl⟩ | ⟨-, he⟩
    · rw [hnone] at hef
      cases hef
    · exact hothers j e hjk he hef

/-- A pop that finds the head last finds the queue empty. -/
theorem Represents.empty {oldHead : CountedNodePtr} {pc' : PopPc α} (h : Represents s calls a)
    (hc : calls[i]? = some (.pop (.readTail oldHead))) (hlast : oldHead.ptr = s.tail.ptr)
    (hpc : pc' = .drop oldHead.ptr (.load .releaseRef) (.leave none)) (hok : Ok s (calls.set i (.pop pc'))) :
    Fifo none a none a ∧ Represents s (calls.set i (.pop pc')) a := by
  have hfirst := h.first oldHead (List.mem_of_getElem? hc) hlast
  have hnil : a = [] := by
    have hholds := h.holds
    unfold Holds at hholds
    rw [← hfirst, ← hlast] at hholds
    exact hholds.eq_nil
  refine ⟨by rw [hnil]; exact .empty, hok, h.holds, fun k e hk hf => ?_, fun oldHead' hmem hptr => ?_⟩
  · exact h.others (by rw [hpc]; rfl) hk hf
  · rcases Calls.mem_set hmem with he | ⟨j, -, hj⟩
    · rw [hpc] at he
      cases he
    · exact h.first oldHead' (List.mem_of_getElem? hj) hptr

/-- A pop takes the head away. -/
theorem Represents.take {next : CountedNodePtr} (h : Represents s calls a)
    (hnext : nextOf s.heap s.head.ptr = next) (hne : s.head.ptr ≠ s.tail.ptr)
    (hs : s' = { s with head := next })
    (hok : Ok s' (calls.set i (.pop (.exchange s.head)))) :
    ∃ r a', Call.effect s' (.pop (.exchange s.head)) = some r ∧ Fifo none a r a' ∧
      Represents s' (calls.set i (.pop (.exchange s.head))) a' := by
  subst hs
  obtain ⟨v, rest, rfl, hv, hrest⟩ := h.holds.pop hne
  refine ⟨some v, rest, congrArg some hv, .pop v rest, hok, ?_, fun k e hk hf => h.others rfl hk hf,
    fun oldHead hmem hptr => ?_⟩
  · rw [hnext] at hrest
    exact hrest
  · rcases Calls.mem_set hmem with he | ⟨j, -, hj⟩
    · cases he
    · exact absurd ((h.first oldHead (List.mem_of_getElem? hj) hptr).symm.trans hptr) hne

theorem helpedIn : Calls.HelpedIn (program (α := α)) (fun s e => FillsTail s e = true) Call.op Call.effect Call.answer
    (fun o => Fifo o.pushed) Represents where
  enter o := by
    cases o with
    | push value => exact ⟨rfl, fun _ => rfl⟩
    | pop => exact ⟨rfl, fun _ => rfl⟩
  answered := fun {s c r} hr => by
    cases c with
    | push value pc =>
      cases pc with
      | returned =>
        rw [← hr]
        refine Call.effect_of_stored rfl fun he => ?_
        cases he
      | _ => cases hr
    | pop pc =>
      cases pc with
      | returned res => exact hr
      | _ => cases hr
  call := fun {s calls a o} h => by
    obtain ⟨pre, post, hinv⟩ := h.ok
    have hnone : ∀ n ∈ ([] : List ℕ), n ≠ 0 ∧ s.heap n = some Node.new := fun _ hm => (List.not_mem_nil hm).elim
    have hfills : (program.enter o : Call α).fills = none := by cases o <;> rfl
    have hok : Ok s (calls ++ [program.enter o]) := by
      cases o with
      | push value =>
        exact ⟨pre, post, hinv.enter rfl rfl rfl rfl (Call.Knows.bare rfl hnone rfl rfl rfl rfl rfl) rfl rfl⟩
      | pop => exact ⟨pre, post, hinv.enter rfl rfl rfl rfl (Call.Knows.bare rfl hnone rfl rfl rfl rfl rfl) rfl rfl⟩
    have hold : ∀ (j : ℕ) (d : Call α), (calls ++ [program.enter o])[j]? = some d → d.fills ≠ none →
        calls[j]? = some d := by
      intro j d hd hne
      rcases Calls.getElem?_concat_cases hd with hd | ⟨-, rfl⟩
      · exact hd
      · exact absurd hfills hne
    refine ⟨hok, h.holds, fun k e hk hf => ?_, fun oldHead hmem hptr => ?_⟩
    · obtain ⟨hv, hothers⟩ := h.filler k e (hold k e hk (by rw [hf]; simp)) hf
      exact ⟨hv, fun j d hjk hd hdf => hothers j d hjk (hold j d hd (by rw [hdf]; simp)) hdf⟩
    · rcases List.mem_append.1 hmem with hmem | hmem
      · exact h.first oldHead hmem hptr
      · cases o <;> cases List.mem_singleton.1 hmem
  move := fun {s calls a i c choice c' s'} h hf hc hm => by
    obtain ⟨pre, post, hinv⟩ := h.ok
    cases c with
    | push value pc =>
      obtain ⟨⟨pc', t⟩, hp, he⟩ := Option.map_eq_some_iff.1 hm
      cases he
      refine ⟨rfl, ?_⟩
      have hlast : ∀ n oldTail x, pc = .casData n oldTail → s.heap oldTail.ptr = some x → x.data = none →
          oldTail.ptr = s.tail.ptr := by
        intro n oldTail x hpc hx hnone
        subst hpc
        simp only [FillsTail, hc, hx, hnone, Option.isSome_none, Bool.false_or, beq_iff_eq] at hf
        exact hf
      have hok := push_inv hinv hc hlast hp
      rcases push_does hinv hc hlast hp with hst | ⟨n, oldTail, x, rfl, rfl, htail, hx, hdata, rfl⟩ |
        ⟨newTail, after, rfl, rfl, hnext, hne, hfilled, rfl⟩
      · exact .inl (h.still hinv hc hst rfl hok)
      · exact .inl (h.fill hinv hc htail hx hdata rfl hok)
      · exact .inr (h.advance hinv hc rfl hnext hne hfilled rfl hok)
    | pop pc =>
      obtain ⟨⟨pc', t⟩, hp, he⟩ := Option.map_eq_some_iff.1 hm
      cases he
      refine ⟨rfl, ?_⟩
      have hok := pop_inv hinv hc hp
      rcases pop_does hinv hc hp with hst | ⟨oldHead, rfl, hlast, rfl, rfl⟩ | ⟨next, rfl, rfl, hnext, hne, rfl⟩
      · exact .inl (h.still hinv hc hst rfl hok)
      · obtain ⟨hspec, hrep⟩ := h.empty hc hlast rfl hok
        refine .inr ⟨i, _, none, a, hc, rfl, Calls.effectAt_set_self hc, fun j hji => ?_, hspec, hrep⟩
        exact Calls.effectAt_set_ne hji fun _ _ => rfl
      · obtain ⟨r, a', hr, hspec, hrep⟩ := h.take hnext hne rfl hok
        refine .inr ⟨i, _, r, a', hc, rfl, (Calls.effectAt_set_self hc).trans hr, fun j hji => ?_, hspec, hrep⟩
        exact Calls.effectAt_set_ne hji fun d _ => Call.effect_congr (fun _ _ => rfl) Iff.rfl

/-- **A queue.** If a push that finds a node without a value finds it last, the
calls have an order, consistent with real time, in which each is a push or a pop of
one queue with the answer it returns, and the nodes from `head` to `tail` hold that
queue. -/
theorem linked_fifo {events : List (Event α)} {t : System α}
    (hfills : Run.Along program.step (fun s e => FillsTail s e = true) start events)
    (h : Run.run program.step start events = some t) :
    ∃ log l, t.shared.Holds l ∧
      Calls.Linearized program (Calls.View.plain Call.op Call.answer) (fun o => Fifo o.pushed) start [] events t log
        l := by
  have hstart : Represents (init : LockFreeQueue α) [] [] :=
    ⟨⟨[], [], inv_start⟩, Between.nil, fun i c hc => (by cases hc), fun _ hmem => (List.not_mem_nil hmem).elim⟩
  obtain ⟨log, l, hrep, hlin⟩ := helpedIn.linearized hstart hfills h
  exact ⟨log, l, hrep.holds, hlin⟩

/-- The first push takes effect in a move of the second, which only then puts its
own value in. -/
theorem linked_fifo_helped :
    ∃ t, Run.run program.step start helped = some t ∧
      t.calls = [.push 5 .returned, .push 6 .returned, .pop (.returned (some 5))] ∧
      ∃ log l, t.shared.Holds l ∧ Calls.Linearized program (Calls.View.plain Call.op Call.answer)
        (fun o => Fifo o.pushed) start [] helped t log l := by
  have heval : (Run.run program.step start helped).map (fun t => t.calls) =
      some [.push 5 .returned, .push 6 .returned, .pop (.returned (some 5))] := by decide +kernel
  obtain ⟨t, ht, hcalls⟩ := Option.map_eq_some_iff.1 heval
  exact ⟨t, ht, hcalls, linked_fifo (by decide +kernel) ht⟩

end Learncc.LockFreeQueue
