/-
Who holds which lock of a `threadsafe_list`, whose the nodes outside the chain
are, and what every call knows from the locks it holds. `link` is the chain as
it is meant: it differs from the nodes' `next_` only after a node whose lock the
call that changes its `next_` holds.

`Inv.touch` keeps the invariant over a move that touches nodes that are the
mover's to touch.
-/
import Learncc.Public.TsList

namespace Learncc.ThreadsafeList

variable {α : Type}

def present (heap : ℕ → Option (ListNode α)) (n : ℕ) : ℕ := if (heap n).isSome then 1 else 0

def locked (heap : ℕ → Option (ListNode α)) (n : ℕ) : ℕ := ((heap n).map fun x => x.mtx.toNat).getD 0

def values (heap : ℕ → Option (ListNode α)) (l : List ℕ) : Multiset α := (l.filterMap (valueOf heap) : Multiset α)

/-- The pointer to the last node is right. -/
def Last (s : ThreadsafeList α) (link : ℕ → ℕ) (l : List ℕ) : Prop := s.lastNodePtr ∈ l ∧ link s.lastNodePtr = 0

namespace Call

/-- The nodes whose locks the call holds. -/
def holds : Call α → List ℕ
  | .pushFront _ pc =>
    match pc with
    | .moveNext _ | .linkNew _ | .testNext _ | .lockLast _ | .setLast _ | .unlockLast | .unlockHead => [head]
    | _ => []
  | .pushBack _ pc =>
    match pc with
    | .lockLast _ m | .append _ m | .setLast _ m | .unlockLast m | .unlockNode m => [m]
    | _ => []
  | .remove _ _ _ pc =>
    match pc with
    | .readNext cur | .lockNext cur _ | .destroyOld _ cur | .unlockCur cur _ => [cur]
    | .test cur next | .takeOld cur next | .relink cur next _ | .unlockPrev cur next => [cur, next]
    | .testLast cur next _ | .lockLast cur next _ | .setLast cur next _ => [cur, next]
    | .unlockLast cur next _ | .unlockNext cur next _ => [cur, next]
    | _ => []

/-- The node that is the call's own: not linked yet, or no longer. -/
def owns : Call α → Option ℕ
  | .pushFront _ pc =>
    match pc with
    | .lockHead n | .moveNext n | .linkNew n => some n
    | _ => none
  | .pushBack _ pc =>
    match pc with
    | .readLast n | .lockNode n _ | .lockLast n _ | .append n _ => some n
    | _ => none
  | .remove _ _ _ pc =>
    match pc with
    | .testLast _ next _ | .lockLast _ next _ | .setLast _ next _ | .unlockLast _ next _ | .unlockNext _ next _ =>
      some next
    | .destroyOld p _ => some p
    | _ => none

/-- The node no other call can come to, since the call holds the one before. -/
def guards : Call α → Option ℕ
  | .pushFront _ (.testNext n) | .pushFront _ (.lockLast n) | .pushFront _ (.setLast n) => some n
  | .pushBack _ (.setLast n _) => some n
  | _ => none

/-- The node whose `next_` is not what it is linked to. -/
def opens : Call α → Option ℕ
  | .pushFront _ (.linkNew _) => some head
  | .remove _ _ _ (.relink cur _ _) => some cur
  | _ => none

def locks (n : ℕ) (c : Call α) : ℕ := c.holds.count n

def places (n : ℕ) (c : Call α) : ℕ := if c.owns = some n then 1 else 0

def lastLocks : Call α → ℕ
  | .pushFront _ (.setLast _) | .pushFront _ .unlockLast => 1
  | .pushBack _ (.append ..) | .pushBack _ (.setLast ..) | .pushBack _ (.unlockLast _) => 1
  | .remove _ _ _ (.setLast ..) | .remove _ _ _ (.unlockLast ..) => 1
  | _ => 0

/-- The value a push has linked. -/
def added : Call α → Multiset α
  | .pushFront value pc =>
    match pc with
    | .testNext _ | .lockLast _ | .setLast _ | .unlockLast | .unlockHead | .returned => {value}
    | _ => 0
  | .pushBack value pc =>
    match pc with
    | .setLast .. | .unlockLast _ | .unlockNode _ | .returned => {value}
    | _ => 0
  | _ => 0

/-- The call has changed the end of the chain, and not yet the pointer to it. -/
def Pending (link : ℕ → ℕ) : Call α → Prop
  | .pushFront _ (.testNext n) => link n = 0
  | .pushFront _ (.lockLast _) | .pushFront _ (.setLast _) | .pushBack _ (.setLast ..) => True
  | .remove _ _ _ (.testLast cur _ _) => link cur = 0
  | .remove _ _ _ (.lockLast ..) | .remove _ _ _ (.setLast ..) => True
  | _ => False

/-- What the call knows. `lk` counts the locks held of a node. -/
def Knows (s : ThreadsafeList α) (link : ℕ → ℕ) (l : List ℕ) (lk : ℕ → ℕ) : Call α → Prop
  | .pushFront value pc =>
    match pc with
    | .alloc | .unlockLast | .unlockHead | .returned => True
    | .lockHead n | .moveNext n => n ≠ 0 ∧ s.heap n = some ⟨false, some value, 0⟩
    | .linkNew n => n ≠ 0 ∧ s.heap n = some ⟨false, some value, link head⟩ ∧ nextOf s.heap head = 0
    | .testNext n => link head = n ∧ n ≠ 0 ∧ lk n = 0 ∧ (link n = 0 → s.lastNodePtr = head)
    | .lockLast n | .setLast n => link head = n ∧ n ≠ 0 ∧ lk n = 0 ∧ s.lastNodePtr = head ∧ link n = 0
    | .destroyOld .. | .undefined => False
  | .pushBack value pc =>
    match pc with
    | .alloc | .returned => True
    | .readLast n | .lockNode n _ => n ≠ 0 ∧ s.heap n = some ⟨false, some value, 0⟩
    | .lockLast n m | .append n m =>
      n ≠ 0 ∧ s.heap n = some ⟨false, some value, 0⟩ ∧ m ∈ l ∧ s.lastNodePtr = m ∧ link m = 0
    | .setLast n m => link m = n ∧ n ≠ 0 ∧ lk n = 0 ∧ m ∈ l ∧ s.lastNodePtr = m ∧ link n = 0
    | .unlockLast m | .unlockNode m => m ∈ l
    | .destroyOld .. | .undefined => False
  | .remove _ p _ pc =>
    match pc with
    | .lockHead | .returned _ => True
    | .readNext cur | .unlockCur cur _ => cur ∈ l
    | .lockNext cur next | .test cur next | .unlockPrev cur next => cur ∈ l ∧ link cur = next ∧ next ≠ 0
    | .takeOld cur next => cur ∈ l ∧ link cur = next ∧ next ≠ 0 ∧ ∃ v, valueOf s.heap next = some v ∧ p v = true
    | .relink cur next old =>
      cur ∈ l ∧ link cur = next ∧ next ≠ 0 ∧ (∃ v, valueOf s.heap next = some v ∧ p v = true) ∧ old = next ∧
        nextOf s.heap cur = 0
    | .testLast cur next old =>
      cur ∈ l ∧ old = next ∧ next ≠ 0 ∧ nextOf s.heap next = 0 ∧ (link cur = 0 → s.lastNodePtr = next)
    | .lockLast cur next old | .setLast cur next old =>
      cur ∈ l ∧ old = next ∧ next ≠ 0 ∧ nextOf s.heap next = 0 ∧ s.lastNodePtr = next ∧ link cur = 0
    | .unlockLast cur next old | .unlockNext cur next old =>
      cur ∈ l ∧ old = next ∧ next ≠ 0 ∧ nextOf s.heap next = 0
    | .destroyOld q cur => cur ∈ l ∧ nextOf s.heap q = 0
    | .destroyNext .. | .undefined => False

end Call

structure Inv (s : ThreadsafeList α) (calls : List (Call α)) (link : ℕ → ℕ) (l : List ℕ) : Prop where
  linked : Linked link head l
  place : ∀ n, l.count n + Calls.total (Call.places n) calls = present s.heap n
  lock : ∀ n, Calls.total (Call.locks n) calls = locked s.heap n
  lastLock : Calls.total Call.lastLocks calls = s.lastPtrMtx.toNat
  value : ∀ n ∈ l, valueOf s.heap n = none ↔ n = head
  next : ∀ n ∈ l, (∀ c ∈ calls, c.opens ≠ some n) → nextOf s.heap n = link n
  knows : ∀ c ∈ calls, c.Knows s link l fun n => Calls.total (Call.locks n) calls
  last : (∃ c ∈ calls, c.Pending link) ∨ Last s link l
  chosen : ∀ c ∈ calls, c.Chosen
  conserved : Calls.total Call.added calls = Calls.total (fun c => (c.removed : Multiset α)) calls + values s.heap l

variable {s s' : ThreadsafeList α} {calls : List (Call α)} {link link' : ℕ → ℕ} {l l' : List ℕ} {lk lk' : ℕ → ℕ}
  {c c' d : Call α} {i j n m : ℕ} {heap heap' : ℕ → Option (ListNode α)} {x : ListNode α}

theorem inv_start : Inv (init : ThreadsafeList α) [] (fun _ => 0) [head] where
  linked := ⟨rfl, Nat.one_ne_zero, rfl⟩
  place := fun n => by
    by_cases hn : n = head
    · subst hn
      rfl
    · simp [present, init, Function.update_of_ne hn, Ne.symm hn]
  lock := fun n => by
    by_cases hn : n = head
    · subst hn
      rfl
    · simp [locked, init, Function.update_of_ne hn]
  lastLock := rfl
  value := fun n hn => by
    rw [List.mem_singleton.1 hn]
    exact ⟨fun _ => rfl, fun _ => rfl⟩
  next := fun n hn _ => by
    rw [List.mem_singleton.1 hn]
    rfl
  knows := fun c hc => (List.not_mem_nil hc).elim
  last := .inr ⟨List.mem_singleton.2 rfl, rfl⟩
  chosen := fun c hc => (List.not_mem_nil hc).elim
  conserved := rfl

/-! ## One node -/

theorem nextOf_congr (h : heap' n = heap n) : nextOf heap' n = nextOf heap n := by rw [nextOf, h]; rfl

theorem valueOf_congr (h : heap' n = heap n) : valueOf heap' n = valueOf heap n := by rw [valueOf, h]; rfl

theorem nextOf_some (h : heap n = some x) : nextOf heap n = x.next := by rw [nextOf, h]; rfl

theorem valueOf_some (h : heap n = some x) : valueOf heap n = x.data := by rw [valueOf, h]; rfl

theorem locked_some (h : heap n = some x) : locked heap n = x.mtx.toNat := by rw [locked, h]; rfl

theorem locked_none (h : heap n = none) : locked heap n = 0 := by rw [locked, h]; rfl

theorem present_some (h : heap n = some x) : present heap n = 1 := by rw [present, h]; rfl

theorem present_none (h : heap n = none) : present heap n = 0 := by rw [present, h]; rfl

theorem present_le (heap : ℕ → Option (ListNode α)) (n : ℕ) : present heap n ≤ 1 := by
  unfold present
  split <;> omega

theorem exists_of_present (h : present heap n ≠ 0) : ∃ x, heap n = some x := by
  cases hx : heap n with
  | none => exact absurd (present_none hx) h
  | some x => exact ⟨x, rfl⟩

theorem locked_le (heap : ℕ → Option (ListNode α)) (n : ℕ) : locked heap n ≤ 1 := by
  cases hx : heap n with
  | none => rw [locked_none hx]; omega
  | some x => rw [locked_some hx]; exact Bool.toNat_le _

theorem values_congr (h : ∀ n ∈ l, valueOf heap' n = valueOf heap n) : values heap' l = values heap l := by
  unfold values
  rw [List.filterMap_congr h]

theorem values_perm (h : l'.Perm l) : values heap l' = values heap l :=
  Multiset.coe_eq_coe.2 (h.filterMap _)

namespace Call

theorem locks_pos (h : n ∈ c.holds) : 0 < c.locks n := List.count_pos_iff.2 h

theorem places_self (h : c.owns = some n) : c.places n = 1 := if_pos h

theorem opens_held (h : c.opens = some n) : n ∈ c.holds := by
  cases c with
  | pushFront value pc =>
    cases pc with
    | linkNew m =>
      cases h
      exact List.mem_singleton.2 rfl
    | _ => cases h
  | pushBack value pc => cases h
  | remove once p removed pc =>
    cases pc with
    | relink cur next old =>
      cases h
      exact List.mem_cons_self
    | _ => cases h

end Call

/-! ## What a call knows -/

/-- Only the nodes the call holds, owns or guards matter, and the pointer to the
last node if its node is held. -/
theorem Call.Knows.congr (h : c.Knows s link l lk) (howns : ∀ n, c.owns = some n → s'.heap n = s.heap n)
    (hholds : ∀ n ∈ c.holds, nextOf s'.heap n = nextOf s.heap n ∧ valueOf s'.heap n = valueOf s.heap n ∧
      link' n = link n ∧ (n ∈ l → n ∈ l'))
    (hguards : ∀ n, c.guards = some n → link' n = link n ∧ lk' n = lk n)
    (hlast : s.lastNodePtr ∈ c.holds → s'.lastNodePtr = s.lastNodePtr) : c.Knows s' link' l' lk' := by
  cases c with
  | pushFront value pc =>
    cases pc with
    | alloc => trivial
    | lockHead n => exact ⟨h.1, (howns n rfl).trans h.2⟩
    | moveNext n => exact ⟨h.1, (howns n rfl).trans h.2⟩
    | linkNew n =>
      obtain ⟨hn, hnode, hnext⟩ := h
      obtain ⟨hnext', -, hlink, -⟩ := hholds head List.mem_cons_self
      refine ⟨hn, ?_, hnext'.trans hnext⟩
      rw [howns n rfl, hnode, hlink]
    | testNext n =>
      obtain ⟨hlink, hn, hlk, hend⟩ := h
      obtain ⟨-, -, hlink', -⟩ := hholds head List.mem_cons_self
      obtain ⟨hg, hlk'⟩ := hguards n rfl
      refine ⟨hlink'.trans hlink, hn, hlk'.trans hlk, fun hzero => ?_⟩
      have hhead := hend (hg.symm.trans hzero)
      rw [hlast (by rw [hhead]; exact List.mem_cons_self), hhead]
    | lockLast n =>
      obtain ⟨hlink, hn, hlk, hhead, hend⟩ := h
      obtain ⟨-, -, hlink', -⟩ := hholds head List.mem_cons_self
      obtain ⟨hg, hlk'⟩ := hguards n rfl
      refine ⟨hlink'.trans hlink, hn, hlk'.trans hlk, ?_, hg.trans hend⟩
      rw [hlast (by rw [hhead]; exact List.mem_cons_self), hhead]
    | setLast n =>
      obtain ⟨hlink, hn, hlk, hhead, hend⟩ := h
      obtain ⟨-, -, hlink', -⟩ := hholds head List.mem_cons_self
      obtain ⟨hg, hlk'⟩ := hguards n rfl
      refine ⟨hlink'.trans hlink, hn, hlk'.trans hlk, ?_, hg.trans hend⟩
      rw [hlast (by rw [hhead]; exact List.mem_cons_self), hhead]
    | unlockLast => trivial
    | unlockHead => trivial
    | returned => trivial
    | destroyOld p n => exact h.elim
    | undefined => exact h.elim
  | pushBack value pc =>
    have hnode : ∀ {n m : ℕ},
        (n ≠ 0 ∧ s.heap n = some ⟨false, some value, 0⟩ ∧ m ∈ l ∧ s.lastNodePtr = m ∧ link m = 0) →
        (Call.pushBack value pc).owns = some n → m ∈ (Call.pushBack value pc).holds →
        n ≠ 0 ∧ s'.heap n = some ⟨false, some value, 0⟩ ∧ m ∈ l' ∧ s'.lastNodePtr = m ∧ link' m = 0 := by
      intro n m hm hown hheld
      obtain ⟨hn, hx, hmem, hptr, hend⟩ := hm
      obtain ⟨-, -, hlink, hmem'⟩ := hholds m hheld
      refine ⟨hn, (howns n hown).trans hx, hmem' hmem, ?_, hlink.trans hend⟩
      rw [hlast (by rw [hptr]; exact hheld), hptr]
    cases pc with
    | alloc => trivial
    | readLast n => exact ⟨h.1, (howns n rfl).trans h.2⟩
    | lockNode n m => exact ⟨h.1, (howns n rfl).trans h.2⟩
    | lockLast n m => exact hnode h rfl List.mem_cons_self
    | append n m => exact hnode h rfl List.mem_cons_self
    | setLast n m =>
      obtain ⟨hlink, hn, hlk, hmem, hptr, hend⟩ := h
      obtain ⟨-, -, hlink', hmem'⟩ := hholds m List.mem_cons_self
      obtain ⟨hg, hlk'⟩ := hguards n rfl
      refine ⟨hlink'.trans hlink, hn, hlk'.trans hlk, hmem' hmem, ?_, hg.trans hend⟩
      rw [hlast (by rw [hptr]; exact List.mem_cons_self), hptr]
    | unlockLast m => exact (hholds m List.mem_cons_self).2.2.2 h
    | unlockNode m => exact (hholds m List.mem_cons_self).2.2.2 h
    | returned => trivial
    | destroyOld p n m => exact h.elim
    | undefined => exact h.elim
  | remove once p removed pc =>
    have hpair : ∀ {cur next : ℕ}, cur ∈ (Call.remove once p removed pc).holds →
        (cur ∈ l ∧ link cur = next ∧ next ≠ 0) → cur ∈ l' ∧ link' cur = next ∧ next ≠ 0 := by
      intro cur next hheld hp
      obtain ⟨-, -, hlink, hmem⟩ := hholds cur hheld
      exact ⟨hmem hp.1, hlink.trans hp.2.1, hp.2.2⟩
    have hold : ∀ {cur next old : ℕ}, cur ∈ (Call.remove once p removed pc).holds →
        (Call.remove once p removed pc).owns = some next → (cur ∈ l ∧ old = next ∧ next ≠ 0 ∧ nextOf s.heap next = 0) →
        cur ∈ l' ∧ old = next ∧ next ≠ 0 ∧ nextOf s'.heap next = 0 := by
      intro cur next old hheld hown ho
      obtain ⟨hcur, he, hne, hnext⟩ := ho
      exact ⟨(hholds cur hheld).2.2.2 hcur, he, hne, (nextOf_congr (howns next hown)).trans hnext⟩
    have hptr : ∀ {next : ℕ}, next ∈ (Call.remove once p removed pc).holds → s.lastNodePtr = next →
        s'.lastNodePtr = next := by
      intro next hheld he
      rw [hlast (by rw [he]; exact hheld), he]
    have hfirst : ∀ {cur next : ℕ}, cur ∈ [cur, next] := List.mem_cons_self
    have hsecond : ∀ {cur next : ℕ}, next ∈ [cur, next] := List.mem_cons_of_mem _ List.mem_cons_self
    cases pc with
    | lockHead => trivial
    | readNext cur => exact (hholds cur List.mem_cons_self).2.2.2 h
    | lockNext cur next => exact hpair List.mem_cons_self h
    | test cur next => exact hpair hfirst h
    | takeOld cur next =>
      obtain ⟨hcur, hlink, hne, v, hv, hpv⟩ := h
      obtain ⟨hcur', hlink', -⟩ := hpair hfirst ⟨hcur, hlink, hne⟩
      exact ⟨hcur', hlink', hne, v, (hholds next hsecond).2.1.trans hv, hpv⟩
    | relink cur next old =>
      obtain ⟨hcur, hlink, hne, hv, he, hnext⟩ := h
      obtain ⟨v, hv, hpv⟩ := hv
      obtain ⟨hcur', hlink', -⟩ := hpair hfirst ⟨hcur, hlink, hne⟩
      exact ⟨hcur', hlink', hne, ⟨v, (hholds next hsecond).2.1.trans hv, hpv⟩, he, (hholds cur hfirst).1.trans hnext⟩
    | testLast cur next old =>
      obtain ⟨hcur, he, hne, hnext, hend⟩ := h
      obtain ⟨hcur', -, -, hnext'⟩ := hold hfirst rfl ⟨hcur, he, hne, hnext⟩
      exact ⟨hcur', he, hne, hnext', fun hzero => hptr hsecond (hend ((hholds cur hfirst).2.2.1.symm.trans hzero))⟩
    | lockLast cur next old =>
      obtain ⟨hcur, he, hne, hnext, hlast, hend⟩ := h
      obtain ⟨hcur', -, -, hnext'⟩ := hold hfirst rfl ⟨hcur, he, hne, hnext⟩
      exact ⟨hcur', he, hne, hnext', hptr hsecond hlast, (hholds cur hfirst).2.2.1.trans hend⟩
    | setLast cur next old =>
      obtain ⟨hcur, he, hne, hnext, hlast, hend⟩ := h
      obtain ⟨hcur', -, -, hnext'⟩ := hold hfirst rfl ⟨hcur, he, hne, hnext⟩
      exact ⟨hcur', he, hne, hnext', hptr hsecond hlast, (hholds cur hfirst).2.2.1.trans hend⟩
    | unlockLast cur next old => exact hold hfirst rfl h
    | unlockNext cur next old => exact hold hfirst rfl h
    | destroyOld q cur =>
      exact ⟨(hholds cur List.mem_cons_self).2.2.2 h.1, (nextOf_congr (howns q rfl)).trans h.2⟩
    | unlockPrev cur next => exact hpair hfirst h
    | unlockCur cur res => exact (hholds cur List.mem_cons_self).2.2.2 h
    | returned res => trivial
    | destroyNext q cur next old => exact h.elim
    | undefined => exact h.elim

theorem Call.Pending.congr (h : c.Pending link) (hholds : ∀ n ∈ c.holds, link' n = link n)
    (hguards : ∀ n, c.guards = some n → link' n = link n) : c.Pending link' := by
  cases c with
  | pushFront value pc =>
    cases pc with
    | testNext n => exact (hguards n rfl).trans h
    | lockLast n => trivial
    | setLast n => trivial
    | _ => exact h.elim
  | pushBack value pc =>
    cases pc with
    | setLast n m => trivial
    | _ => exact h.elim
  | remove once p removed pc =>
    cases pc with
    | testLast cur next old => exact (hholds cur List.mem_cons_self).trans h
    | lockLast cur next old => trivial
    | setLast cur next old => trivial
    | _ => exact h.elim

/-- A held node is in the chain, or the holder's own. -/
theorem Call.Knows.held (h : c.Knows s link l lk) (hl : Linked link head l) (hn : n ∈ c.holds) :
    n ∈ l ∨ c.owns = some n := by
  have hhead : head ∈ l := by
    obtain ⟨m, rfl, -⟩ := hl.uncons Nat.one_ne_zero
    exact List.mem_cons_self
  have hpair : ∀ {cur next : ℕ}, (cur ∈ l ∧ link cur = next ∧ next ≠ 0) → n ∈ [cur, next] → n ∈ l := by
    intro cur next hp hn
    obtain ⟨hcur, rfl, hne⟩ := hp
    simp only [List.mem_cons, List.not_mem_nil, or_false] at hn
    rcases hn with rfl | rfl
    · exact hcur
    · exact hl.next_mem hcur hne
  have hold : ∀ {cur next : ℕ}, cur ∈ l → n ∈ [cur, next] → n ∈ l ∨ some next = some n := by
    intro cur next hcur hn
    simp only [List.mem_cons, List.not_mem_nil, or_false] at hn
    rcases hn with rfl | rfl
    · exact .inl hcur
    · exact .inr rfl
  cases c with
  | pushFront value pc =>
    cases pc with
    | alloc => cases hn
    | lockHead m => cases hn
    | destroyOld p m => cases hn
    | returned => cases hn
    | undefined => cases hn
    | _ =>
      rw [List.mem_singleton.1 hn]
      exact .inl hhead
  | pushBack value pc =>
    cases pc with
    | lockLast m k => rw [List.mem_singleton.1 hn]; exact .inl h.2.2.1
    | append m k => rw [List.mem_singleton.1 hn]; exact .inl h.2.2.1
    | setLast m k => rw [List.mem_singleton.1 hn]; exact .inl h.2.2.2.1
    | unlockLast k => rw [List.mem_singleton.1 hn]; exact .inl h
    | unlockNode k => rw [List.mem_singleton.1 hn]; exact .inl h
    | _ => cases hn
  | remove once p removed pc =>
    cases pc with
    | readNext cur => rw [List.mem_singleton.1 hn]; exact .inl h
    | lockNext cur next => rw [List.mem_singleton.1 hn]; exact .inl h.1
    | test cur next => exact .inl (hpair h hn)
    | takeOld cur next => exact .inl (hpair ⟨h.1, h.2.1, h.2.2.1⟩ hn)
    | relink cur next old => exact .inl (hpair ⟨h.1, h.2.1, h.2.2.1⟩ hn)
    | testLast cur next old => exact hold h.1 hn
    | lockLast cur next old => exact hold h.1 hn
    | setLast cur next old => exact hold h.1 hn
    | unlockLast cur next old => exact hold h.1 hn
    | unlockNext cur next old => exact hold h.1 hn
    | destroyOld q cur => rw [List.mem_singleton.1 hn]; exact .inl h.1
    | unlockPrev cur next => exact .inl (hpair h hn)
    | unlockCur cur res => rw [List.mem_singleton.1 hn]; exact .inl h
    | _ => cases hn

/-- The node before a guarded one is held, and so is the last one as the pointer
has it, if the guarded one is the end. -/
theorem Call.Knows.guarded (h : c.Knows s link l lk) (hl : Linked link head l) (hn : c.guards = some n) :
    n ≠ 0 ∧ lk n = 0 ∧ (link n = 0 → s.lastNodePtr ∈ c.holds) ∧ ∃ a ∈ c.holds, a ∈ l ∧ link a = n := by
  have hhead : head ∈ l := by
    obtain ⟨m, rfl, -⟩ := hl.uncons Nat.one_ne_zero
    exact List.mem_cons_self
  cases c with
  | pushFront value pc =>
    cases pc with
    | testNext m =>
      cases hn
      obtain ⟨hlink, hne, hlk, hend⟩ := h
      exact ⟨hne, hlk, fun hz => by rw [hend hz]; exact List.mem_cons_self, head, List.mem_cons_self, hhead, hlink⟩
    | lockLast m =>
      cases hn
      obtain ⟨hlink, hne, hlk, hptr, -⟩ := h
      exact ⟨hne, hlk, fun _ => by rw [hptr]; exact List.mem_cons_self, head, List.mem_cons_self, hhead, hlink⟩
    | setLast m =>
      cases hn
      obtain ⟨hlink, hne, hlk, hptr, -⟩ := h
      exact ⟨hne, hlk, fun _ => by rw [hptr]; exact List.mem_cons_self, head, List.mem_cons_self, hhead, hlink⟩
    | _ => cases hn
  | pushBack value pc =>
    cases pc with
    | setLast k m =>
      cases hn
      obtain ⟨hlink, hne, hlk, hm, hptr, -⟩ := h
      exact ⟨hne, hlk, fun _ => by rw [hptr]; exact List.mem_cons_self, m, List.mem_cons_self, hm, hlink⟩
    | _ => cases hn
  | remove once p removed pc => cases hn

/-- A pending call holds the node the pointer points to, and the end of the
chain or the node before it. -/
theorem Call.Pending.spot (hp : c.Pending link) (h : c.Knows s link l lk) (hl : Linked link head l) :
    s.lastNodePtr ∈ c.holds ∧ ∃ a ∈ c.holds, a ∈ l ∧ (link a = 0 ∨ link (link a) = 0) := by
  have hhead : head ∈ l := by
    obtain ⟨m, rfl, -⟩ := hl.uncons Nat.one_ne_zero
    exact List.mem_cons_self
  have hsecond : ∀ {cur next : ℕ}, next ∈ [cur, next] := List.mem_cons_of_mem _ List.mem_cons_self
  cases c with
  | pushFront value pc =>
    cases pc with
    | testNext n =>
      obtain ⟨rfl, -, -, hend⟩ := h
      exact ⟨by rw [hend hp]; exact List.mem_cons_self, head, List.mem_cons_self, hhead, .inr hp⟩
    | lockLast n =>
      obtain ⟨rfl, -, -, hptr, hend⟩ := h
      exact ⟨by rw [hptr]; exact List.mem_cons_self, head, List.mem_cons_self, hhead, .inr hend⟩
    | setLast n =>
      obtain ⟨rfl, -, -, hptr, hend⟩ := h
      exact ⟨by rw [hptr]; exact List.mem_cons_self, head, List.mem_cons_self, hhead, .inr hend⟩
    | _ => exact hp.elim
  | pushBack value pc =>
    cases pc with
    | setLast n m =>
      obtain ⟨rfl, -, -, hm, hptr, hend⟩ := h
      exact ⟨by rw [hptr]; exact List.mem_cons_self, m, List.mem_cons_self, hm, .inr hend⟩
    | _ => exact hp.elim
  | remove once p removed pc =>
    cases pc with
    | testLast cur next old =>
      obtain ⟨hcur, -, -, -, hend⟩ := h
      exact ⟨by rw [hend hp]; exact hsecond, cur, List.mem_cons_self, hcur, .inl hp⟩
    | lockLast cur next old =>
      obtain ⟨hcur, -, -, -, hptr, hend⟩ := h
      exact ⟨by rw [hptr]; exact hsecond, cur, List.mem_cons_self, hcur, .inl hend⟩
    | setLast cur next old =>
      obtain ⟨hcur, -, -, -, hptr, hend⟩ := h
      exact ⟨by rw [hptr]; exact hsecond, cur, List.mem_cons_self, hcur, .inl hend⟩
    | _ => exact hp.elim

/-! ## Whose a node is -/

theorem Inv.head_mem (h : Inv s calls link l) : head ∈ l := by
  obtain ⟨m, rfl, -⟩ := h.linked.uncons Nat.one_ne_zero
  exact List.mem_cons_self

theorem Inv.mem_present (h : Inv s calls link l) (hn : n ∈ l) :
    (∃ x, s.heap n = some x) ∧ ∀ c ∈ calls, c.owns ≠ some n := by
  have hplace := h.place n
  have hcount := List.count_pos_iff.2 hn
  have hle := present_le s.heap n
  refine ⟨exists_of_present (by omega), fun c hc ho => ?_⟩
  obtain ⟨i, hi⟩ := List.mem_iff_getElem?.1 hc
  have hone := Calls.le_total (f := Call.places n) hi
  rw [Call.places_self ho] at hone
  omega

theorem Inv.own_present (h : Inv s calls link l) (hc : calls[i]? = some c) (hn : c.owns = some n) :
    (∃ x, s.heap n = some x) ∧ n ∉ l ∧ ∀ j d, j ≠ i → calls[j]? = some d → d.owns ≠ some n := by
  have hplace := h.place n
  have hle := present_le s.heap n
  have hone := Calls.le_total (f := Call.places n) hc
  rw [Call.places_self hn] at hone
  refine ⟨exists_of_present (by omega), fun hmem => ?_, fun j d hji hd ho => ?_⟩
  · have hcount := List.count_pos_iff.2 hmem
    omega
  · have htwo := Calls.add_le_total (f := Call.places n) hc hd hji.symm
    rw [Call.places_self hn, Call.places_self ho] at htwo
    omega

/-- A held node is there, and locked by its holder only. -/
theorem Inv.held (h : Inv s calls link l) (hc : calls[i]? = some c) (hn : n ∈ c.holds) :
    (∃ x, s.heap n = some x ∧ x.mtx = true) ∧ (n ∈ l ∨ c.owns = some n) ∧
      ∀ j d, j ≠ i → calls[j]? = some d → n ∉ d.holds := by
  have hlock := h.lock n
  have hle := locked_le s.heap n
  have hone := Calls.le_total (f := Call.locks n) hc
  have hpos := Call.locks_pos hn
  refine ⟨?_, (h.knows c (List.mem_of_getElem? hc)).held h.linked hn, fun j d hji hd hdn => ?_⟩
  · cases hx : s.heap n with
    | none =>
      rw [locked_none hx] at hlock
      omega
    | some x =>
      refine ⟨x, rfl, ?_⟩
      rw [locked_some hx] at hlock
      cases hm : x.mtx with
      | true => rfl
      | false =>
        rw [hm] at hlock
        have hz : Calls.total (Call.locks n) calls = 0 := hlock
        omega
  · have htwo := Calls.add_le_total (f := Call.locks n) hc hd hji.symm
    have hpos' := Call.locks_pos hdn
    omega

/-- A held node is linked to what its `next_` says, unless the holder is changing it. -/
theorem Inv.next_held (h : Inv s calls link l) (hc : calls[i]? = some c) (hn : n ∈ c.holds) (hl : n ∈ l)
    (ho : c.opens ≠ some n) : nextOf s.heap n = link n := by
  refine h.next n hl fun d hd hdo => ?_
  obtain ⟨j, hj⟩ := List.mem_iff_getElem?.1 hd
  by_cases hji : j = i
  · rw [hji, hc] at hj
    cases hj
    exact ho hdo
  · exact (h.held hc hn).2.2 j d hji hj (Call.opens_held hdo)

/-! ## Over a move -/

/-- A node the mover may touch: one whose lock it holds, its own, one that is
not there yet, or one nobody has locked and nobody guards. -/
def Call.Mine (s : ThreadsafeList α) (calls : List (Call α)) (l : List ℕ) (c : Call α) (n : ℕ) : Prop :=
  n ∈ c.holds ∨ c.owns = some n ∨ s.heap n = none ∨
    n ∈ l ∧ Calls.total (Call.locks n) calls = 0 ∧ ∀ d ∈ calls, d.guards ≠ some n

/-- A move from `c` to `c'` that touches the nodes `ns`. -/
structure Touch (s s' : ThreadsafeList α) (calls : List (Call α)) (i : ℕ) (c c' : Call α) (link link' : ℕ → ℕ)
    (l l' ns : List ℕ) : Prop where
  frame : ∀ n, n ∉ ns → s'.heap n = s.heap n ∧ link' n = link n ∧ l'.count n = l.count n
  calm : ∀ n, n ∉ ns → c'.locks n = c.locks n ∧ c'.places n = c.places n ∧ (c.opens = some n → c'.opens = some n)
  mine : ∀ n ∈ ns, c.Mine s calls l n
  place : ∀ n ∈ ns, l'.count n + c'.places n + present s.heap n = l.count n + c.places n + present s'.heap n
  lock : ∀ n ∈ ns, c'.locks n + locked s.heap n = c.locks n + locked s'.heap n
  node : ∀ n ∈ ns, n ∈ l' →
    (valueOf s'.heap n = none ↔ n = head) ∧ (c'.opens ≠ some n → nextOf s'.heap n = link' n)
  linked : Linked link' head l'
  lastLock : c'.lastLocks + s.lastPtrMtx.toNat = c.lastLocks + s'.lastPtrMtx.toNat
  lastPtr : s'.lastNodePtr = s.lastNodePtr ∨ s.lastNodePtr ∈ c.holds
  knows : c'.Knows s' link' l' fun n => Calls.total (Call.locks n) (calls.set i c')
  pending : c.Pending link → c'.Pending link' ∨ Last s' link' l'
  last : Last s link l → c'.Pending link' ∨ Last s' link' l'
  chosen : c'.Chosen
  values : c'.added + (c.removed : Multiset α) + values s.heap l =
    c.added + (c'.removed : Multiset α) + values s'.heap l'

/-- What is the mover's to touch, no other call knows of. -/
theorem Inv.apart (h : Inv s calls link l) (hc : calls[i]? = some c) (hn : c.Mine s calls l n) (hji : j ≠ i)
    (hd : calls[j]? = some d) : n ∉ d.holds ∧ d.owns ≠ some n ∧ d.guards ≠ some n := by
  have hknows := h.knows d (List.mem_of_getElem? hd)
  have hguard : d.guards = some n → n ∈ l ∧ Calls.total (Call.locks n) calls = 0 := by
    intro hg
    obtain ⟨hne, hzero, -, a, -, ha, rfl⟩ := hknows.guarded h.linked hg
    exact ⟨h.linked.next_mem ha hne, hzero⟩
  rcases hn with hheld | hown | hnone | ⟨hmem, hzero, hfree⟩
  · obtain ⟨-, hwhere, hother⟩ := h.held hc hheld
    refine ⟨hother j d hji hd, fun ho => ?_, fun hg => ?_⟩
    · rcases hwhere with hmem | hown
      · exact (h.mem_present hmem).2 d (List.mem_of_getElem? hd) ho
      · exact (h.own_present hc hown).2.2 j d hji hd ho
    · have hone := Calls.le_total (f := Call.locks n) hc
      have hpos := Call.locks_pos hheld
      have hzero := (hguard hg).2
      omega
  · obtain ⟨-, hnot, hother⟩ := h.own_present hc hown
    refine ⟨fun hheld => ?_, hother j d hji hd, fun hg => hnot (hguard hg).1⟩
    rcases (h.held hd hheld).2.1 with hmem | ho
    · exact hnot hmem
    · exact hother j d hji hd ho
  · refine ⟨fun hheld => ?_, fun ho => ?_, fun hg => ?_⟩
    · obtain ⟨⟨x, hx, -⟩, -⟩ := h.held hd hheld
      rw [hnone] at hx
      cases hx
    · obtain ⟨⟨x, hx⟩, -⟩ := h.own_present hd ho
      rw [hnone] at hx
      cases hx
    · obtain ⟨⟨x, hx⟩, -⟩ := h.mem_present (hguard hg).1
      rw [hnone] at hx
      cases hx
  · refine ⟨fun hheld => ?_, (h.mem_present hmem).2 d (List.mem_of_getElem? hd), hfree d (List.mem_of_getElem? hd)⟩
    have hone := Calls.le_total (f := Call.locks n) hd
    have hpos := Call.locks_pos hheld
    omega

theorem Inv.touch (h : Inv s calls link l) (hc : calls[i]? = some c) (ns : List ℕ)
    (t : Touch s s' calls i c c' link link' l l' ns) : Inv s' (calls.set i c') link' l' := by
  obtain ⟨hlt, -⟩ := List.getElem?_eq_some_iff.1 hc
  have hself : (calls.set i c')[i]? = some c' := List.getElem?_set_self hlt
  have hmem : ∀ n, n ∉ ns → (n ∈ l' ↔ n ∈ l) := by
    intro n hn
    rw [← List.count_pos_iff, ← List.count_pos_iff, (t.frame n hn).2.2]
  -- No other call knows of a node that is touched.
  have hholds : ∀ j d, j ≠ i → calls[j]? = some d → ∀ n ∈ d.holds, n ∉ ns :=
    fun j d hji hd n hn hns => (h.apart hc (t.mine n hns) hji hd).1 hn
  have howns : ∀ j d, j ≠ i → calls[j]? = some d → ∀ n, d.owns = some n → n ∉ ns :=
    fun j d hji hd n hn hns => (h.apart hc (t.mine n hns) hji hd).2.1 hn
  have hguards : ∀ j d, j ≠ i → calls[j]? = some d → ∀ n, d.guards = some n → n ∉ ns :=
    fun j d hji hd n hn hns => (h.apart hc (t.mine n hns) hji hd).2.2 hn
  refine ⟨t.linked, fun n => ?_, fun n => ?_, ?_, fun n hn => ?_, fun n hn hopen => ?_, fun d hd => ?_, ?_,
    Calls.forall_mem_set h.chosen t.chosen,
    Calls.conserved_move h.conserved (Calls.total_set hc) (Calls.total_set hc) t.values⟩
  · have hold := h.place n
    have hset : Calls.total (Call.places n) (calls.set i c') + _ = _ := Calls.total_set hc
    by_cases hns : n ∈ ns
    · have hnew := t.place n hns
      omega
    · obtain ⟨hheap, -, hcount⟩ := t.frame n hns
      rw [(t.calm n hns).2.1] at hset
      rw [hcount, present, hheap]
      rw [present] at hold
      omega
  · have hold := h.lock n
    have hset : Calls.total (Call.locks n) (calls.set i c') + _ = _ := Calls.total_set hc
    by_cases hns : n ∈ ns
    · have hnew := t.lock n hns
      omega
    · rw [(t.calm n hns).1] at hset
      rw [locked, (t.frame n hns).1]
      rw [locked] at hold
      omega
  · have hold := h.lastLock
    have hset : Calls.total Call.lastLocks (calls.set i c') + _ = _ := Calls.total_set hc
    have hnew := t.lastLock
    omega
  · by_cases hns : n ∈ ns
    · exact (t.node n hns hn).1
    · rw [valueOf_congr (t.frame n hns).1]
      exact h.value n ((hmem n hns).1 hn)
  · by_cases hns : n ∈ ns
    · exact (t.node n hns hn).2 (hopen c' (List.mem_of_getElem? hself))
    · rw [nextOf_congr (t.frame n hns).1, (t.frame n hns).2.1]
      refine h.next n ((hmem n hns).1 hn) fun d hd hdo => ?_
      obtain ⟨j, hj⟩ := List.mem_iff_getElem?.1 hd
      by_cases hji : j = i
      · rw [hji, hc] at hj
        cases hj
        exact hopen c' (List.mem_of_getElem? hself) ((t.calm n hns).2.2 hdo)
      · exact hopen d (List.mem_of_getElem? (by rw [List.getElem?_set_ne (Ne.symm hji), hj])) hdo
  · rcases Calls.mem_set hd with rfl | ⟨j, hji, hj⟩
    · exact t.knows
    · refine (h.knows d (List.mem_of_getElem? hj)).congr (fun n hn => (t.frame n (howns j d hji hj n hn)).1)
        (fun n hn => ?_) (fun n hn => ?_) fun hlast => ?_
      · have hns := hholds j d hji hj n hn
        obtain ⟨hheap, hlink, -⟩ := t.frame n hns
        exact ⟨nextOf_congr hheap, valueOf_congr hheap, hlink, (hmem n hns).2⟩
      · have hns := hguards j d hji hj n hn
        exact ⟨(t.frame n hns).2.1, Calls.total_set_same hc (t.calm n hns).1⟩
      · rcases t.lastPtr with he | hheld
        · exact he
        · exact absurd hlast ((h.held hc hheld).2.2 j d hji hj)
  · have hmine : c'.Pending link' ∨ Last s' link' l' → (∃ d ∈ calls.set i c', d.Pending link') ∨ Last s' link' l' :=
      fun hor => hor.imp (fun hp => ⟨c', List.mem_of_getElem? hself, hp⟩) id
    rcases h.last with ⟨d, hd, hp⟩ | hlast
    · obtain ⟨j, hj⟩ := List.mem_iff_getElem?.1 hd
      by_cases hji : j = i
      · rw [hji, hc] at hj
        cases hj
        exact hmine (t.pending hp)
      · refine .inl ⟨d, List.mem_of_getElem? (by rw [List.getElem?_set_ne (Ne.symm hji), hj]), ?_⟩
        exact hp.congr (fun n hn => (t.frame n (hholds j d hji hj n hn)).2.1)
          fun n hn => (t.frame n (hguards j d hji hj n hn)).2.1
    · exact hmine (t.last hlast)

/-- A call that has nothing yet. -/
theorem Inv.enter (h : Inv s calls link l) (hholds : c.holds = []) (howns : c.owns = none) (hopens : c.opens = none)
    (hlast : c.lastLocks = 0) (hknows : ∀ lk, c.Knows s link l lk) (hadded : c.added = 0) (hremoved : c.removed = [])
    (hchosen : c.Chosen) : Inv s (calls ++ [c]) link l := by
  have hlocks : ∀ n, Calls.total (Call.locks n) (calls ++ [c]) = Calls.total (Call.locks n) calls := by
    intro n
    rw [Calls.total_concat, Call.locks, hholds]
    rfl
  have hcases : ∀ {d}, d ∈ calls ++ [c] → d ∈ calls ∨ d = c := fun hd =>
    (List.mem_append.1 hd).imp id List.mem_singleton.1
  refine ⟨h.linked, fun n => ?_, fun n => ?_, ?_, h.value, fun n hn hopen => ?_, fun d hd => ?_, ?_, fun d hd => ?_, ?_⟩
  · rw [Calls.total_concat, Call.places, howns]
    exact h.place n
  · rw [hlocks]
    exact h.lock n
  · rw [Calls.total_concat, hlast]
    exact h.lastLock
  · exact h.next n hn fun d hd => hopen d (List.mem_append_left _ hd)
  · rcases hcases hd with hd | rfl
    · exact (h.knows d hd).congr (fun _ _ => rfl) (fun _ _ => ⟨rfl, rfl, rfl, id⟩) (fun n _ => ⟨rfl, hlocks n⟩)
        fun _ => rfl
    · exact hknows _
  · rcases h.last with ⟨d, hd, hp⟩ | hlast
    · exact .inl ⟨d, List.mem_append_left _ hd, hp⟩
    · exact .inr hlast
  · rcases hcases hd with hd | rfl
    · exact h.chosen d hd
    · exact hchosen
  · rw [Calls.total_concat, Calls.total_concat, h.conserved, hadded, hremoved]
    simp

end Learncc.ThreadsafeList
