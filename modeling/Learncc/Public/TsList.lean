/-
`threadsafe_list` (inc/public/ts_list.h): a list with one lock in every node and
one for the pointer to the last node. Taking a lock, giving it back and every
statement between is one step; a call that waits for a lock has no step. What a
statement replaces in a `next_` it destroys, node by node.

An address may be given out again once its node is destroyed. What a call does
at an address without a node is `undefined`, and so is destroying a node whose
lock is held.
-/
import Learncc.Lib.Calls
import Learncc.Lib.Linked
import Mathlib.Data.Multiset.OrderedMonoid

namespace Learncc

structure ListNode (α : Type) where
  mtx : Bool
  data : Option α
  next : ℕ
deriving Repr, DecidableEq

structure ThreadsafeList (α : Type) where
  heap : ℕ → Option (ListNode α)
  lastNodePtr : ℕ
  lastPtrMtx : Bool

namespace ThreadsafeList

variable {α π : Type}

/-- The address of `head_`. -/
def head : ℕ := 1

def init : ThreadsafeList α :=
  { heap := Function.update (fun _ => none) head (some ⟨false, none, 0⟩), lastNodePtr := head, lastPtrMtx := false }

def write (s : ThreadsafeList α) (n : ℕ) (node : ListNode α) : ThreadsafeList α :=
  { s with heap := Function.update s.heap n (some node) }

def free (s : ThreadsafeList α) (n : ℕ) : ThreadsafeList α := { s with heap := Function.update s.heap n none }

/-! ## Steps of all operations

`undefined` is where the call is after it has used what is not there. -/

def onNode (s : ThreadsafeList α) (undefined : π) (n : ℕ) (f : ListNode α → Option (π × ThreadsafeList α)) :
    Option (π × ThreadsafeList α) :=
  match s.heap n with
  | none => some (undefined, s)
  | some x => f x

def alloc (s : ThreadsafeList α) (address : ℕ) (value : α) (pc : π) : Option (π × ThreadsafeList α) :=
  if address ≠ 0 ∧ s.heap address = none then some (pc, s.write address ⟨false, some value, 0⟩) else none

def lockNode (s : ThreadsafeList α) (undefined : π) (n : ℕ) (pc : π) : Option (π × ThreadsafeList α) :=
  s.onNode undefined n fun x => if x.mtx then none else some (pc, s.write n { x with mtx := true })

def unlockNode (s : ThreadsafeList α) (undefined : π) (n : ℕ) (pc : π) : Option (π × ThreadsafeList α) :=
  s.onNode undefined n fun x => some (pc, s.write n { x with mtx := false })

def lockLast (s : ThreadsafeList α) (pc : π) : Option (π × ThreadsafeList α) :=
  if s.lastPtrMtx then none else some (pc, { s with lastPtrMtx := true })

def unlockLast (s : ThreadsafeList α) (pc : π) : Option (π × ThreadsafeList α) :=
  some (pc, { s with lastPtrMtx := false })

/-- One node of a `unique_ptr` that is destroyed. `pc` is told which is next. -/
def destroyNode (s : ThreadsafeList α) (undefined : π) (n : ℕ) (pc : ℕ → π) : Option (π × ThreadsafeList α) :=
  s.onNode undefined n fun x => some (if x.mtx then undefined else pc x.next, s.free n)

/-! ## push_front -/

/-- `n` is the new node. -/
inductive PushFrontPc
  | alloc
  | lockHead (n : ℕ)
  | moveNext (n : ℕ)
  | linkNew (n : ℕ)
  | destroyOld (p n : ℕ)
  | testNext (n : ℕ)
  | lockLast (n : ℕ)
  | setLast (n : ℕ)
  | unlockLast
  | unlockHead
  | returned
  | undefined
deriving Repr, DecidableEq

def PushFrontPc.afterOld (p n : ℕ) : PushFrontPc := if p = 0 then .testNext n else .destroyOld p n

def pushFront (s : ThreadsafeList α) (value : α) (address : ℕ) :
    PushFrontPc → Option (PushFrontPc × ThreadsafeList α)
  | .alloc => s.alloc address value (.lockHead address)
  | .lockHead n => s.lockNode .undefined head (.moveNext n)
  | .moveNext n => s.onNode .undefined n fun x => s.onNode .undefined head fun h =>
      some (.linkNew n, (s.write n { x with next := h.next }).write head { h with next := 0 })
  | .linkNew n => s.onNode .undefined head fun h => some (.afterOld h.next n, s.write head { h with next := n })
  | .destroyOld p n => s.destroyNode .undefined p fun q => .afterOld q n
  | .testNext n => s.onNode .undefined head fun h => s.onNode .undefined h.next fun x =>
      some (if x.next = 0 then .lockLast n else .unlockHead, s)
  | .lockLast n => s.lockLast (.setLast n)
  | .setLast _ => s.onNode .undefined head fun h => some (.unlockLast, { s with lastNodePtr := h.next })
  | .unlockLast => s.unlockLast .unlockHead
  | .unlockHead => s.unlockNode .undefined head .returned
  | .returned | .undefined => none

/-! ## push_back -/

/-- `n` is the new node, `m` the one that was last when it was asked for. -/
inductive PushBackPc
  | alloc
  | readLast (n : ℕ)
  | lockNode (n m : ℕ)
  | lockLast (n m : ℕ)
  | append (n m : ℕ)
  | destroyOld (p n m : ℕ)
  | setLast (n m : ℕ)
  | unlockLast (m : ℕ)
  | unlockNode (m : ℕ)
  | returned
  | undefined
deriving Repr, DecidableEq

def PushBackPc.afterOld (p n m : ℕ) : PushBackPc := if p = 0 then .setLast n m else .destroyOld p n m

/-- `last_node_ptr_` is read without its lock, and again under it. -/
def pushBack (s : ThreadsafeList α) (value : α) (address : ℕ) : PushBackPc → Option (PushBackPc × ThreadsafeList α)
  | .alloc => s.alloc address value (.readLast address)
  | .readLast n => some (.lockNode n s.lastNodePtr, s)
  | .lockNode n m => s.lockNode .undefined m (.lockLast n m)
  | .lockLast n m => s.lockLast (.append n m)
  | .append n m => s.onNode .undefined s.lastNodePtr fun x =>
      some (.afterOld x.next n m, s.write s.lastNodePtr { x with next := n })
  | .destroyOld p n m => s.destroyNode .undefined p fun q => .afterOld q n m
  | .setLast _ m => s.onNode .undefined s.lastNodePtr fun x =>
      some (.unlockLast m, { s with lastNodePtr := x.next })
  | .unlockLast m => s.unlockLast (.unlockNode m)
  | .unlockNode m => s.unlockNode .undefined m .returned
  | .returned | .undefined => none

/-! ## remove_if and remove_first -/

inductive RemovePc
  | lockHead
  | readNext (cur : ℕ)
  | lockNext (cur next : ℕ)
  | test (cur next : ℕ)
  | takeOld (cur next : ℕ)
  | relink (cur next old : ℕ)
  | destroyNext (p cur next old : ℕ)
  | testLast (cur next old : ℕ)
  | lockLast (cur next old : ℕ)
  | setLast (cur next old : ℕ)
  | unlockLast (cur next old : ℕ)
  | unlockNext (cur next old : ℕ)
  | destroyOld (p cur : ℕ)
  | unlockPrev (cur next : ℕ)
  | unlockCur (cur : ℕ) (res : Bool)
  | returned (res : Bool)
  | undefined
deriving Repr, DecidableEq

/-- After what `cur->next_` had is destroyed. -/
def RemovePc.afterNext (p cur next old : ℕ) : RemovePc :=
  if p = 0 then .testLast cur next old else .destroyNext p cur next old

/-- After `old` is destroyed: `remove_first` returns, `remove_if` goes on. -/
def RemovePc.afterOld (once : Bool) (p cur : ℕ) : RemovePc :=
  if p = 0 then (if once then .unlockCur cur true else .readNext cur) else .destroyOld p cur

/-- The loop of both: `once` is for `remove_first`. `remove_if` has no result. -/
def removeLoop (s : ThreadsafeList α) (once : Bool) (p : α → Bool) : RemovePc → Option (RemovePc × ThreadsafeList α)
  | .lockHead => s.lockNode .undefined head (.readNext head)
  | .readNext cur => s.onNode .undefined cur fun x =>
      some (if x.next = 0 then .unlockCur cur false else .lockNext cur x.next, s)
  | .lockNext cur next => s.lockNode .undefined next (.test cur next)
  | .test cur next => s.onNode .undefined next fun x =>
      some (match x.data with
        | none => .undefined
        | some data => if p data then .takeOld cur next else .unlockPrev cur next, s)
  | .takeOld cur next => s.onNode .undefined cur fun x =>
      some (.relink cur next x.next, s.write cur { x with next := 0 })
  | .relink cur next old => s.onNode .undefined cur fun x => s.onNode .undefined next fun y =>
      some (.afterNext x.next cur next old, (s.write next { y with next := 0 }).write cur { x with next := y.next })
  | .destroyNext q cur next old => s.destroyNode .undefined q fun q => .afterNext q cur next old
  | .testLast cur next old => s.onNode .undefined cur fun x =>
      some (if x.next = 0 then .lockLast cur next old else .unlockNext cur next old, s)
  | .lockLast cur next old => s.lockLast (.setLast cur next old)
  | .setLast cur next old => some (.unlockLast cur next old, { s with lastNodePtr := cur })
  | .unlockLast cur next old => s.unlockLast (.unlockNext cur next old)
  | .unlockNext cur next old => s.unlockNode .undefined next (.afterOld once old cur)
  | .destroyOld q cur => s.destroyNode .undefined q fun q => .afterOld once q cur
  | .unlockPrev cur next => s.unlockNode .undefined cur (.readNext next)
  | .unlockCur cur res => s.unlockNode .undefined cur (.returned res)
  | .returned _ | .undefined => none

def removeIf (s : ThreadsafeList α) (p : α → Bool) : RemovePc → Option (RemovePc × ThreadsafeList α) :=
  s.removeLoop false p

def removeFirst (s : ThreadsafeList α) (p : α → Bool) : RemovePc → Option (RemovePc × ThreadsafeList α) :=
  s.removeLoop true p

def nextOf (heap : ℕ → Option (ListNode α)) (n : ℕ) : ℕ := ((heap n).map ListNode.next).getD 0

def valueOf (heap : ℕ → Option (ListNode α)) (n : ℕ) : Option α := (heap n).bind ListNode.data

/-- The value that goes when `next` is taken out of the chain. -/
def taken (s : ThreadsafeList α) : RemovePc → List α
  | .relink _ next _ => (valueOf s.heap next).toList
  | _ => []

/-! ## Calls -/

/-- `remove` is `remove_first` if `once`, else `remove_if`; `removed` are the
values it has taken out so far. -/
inductive Call (α : Type)
  | pushFront (value : α) (pc : PushFrontPc)
  | pushBack (value : α) (pc : PushBackPc)
  | remove (once : Bool) (p : α → Bool) (removed : List α) (pc : RemovePc)

inductive Op (α : Type)
  | pushFront (value : α)
  | pushBack (value : α)
  | removeIf (p : α → Bool)
  | removeFirst (p : α → Bool)

/-- The address chosen for a new node is the input of a move. -/
def program : Calls.Program (ThreadsafeList α) (Call α) (Op α) ℕ where
  enter
    | .pushFront value => .pushFront value .alloc
    | .pushBack value => .pushBack value .alloc
    | .removeIf p => .remove false p [] .lockHead
    | .removeFirst p => .remove true p [] .lockHead
  move
    | .pushFront value pc, address, s => (s.pushFront value address pc).map fun r => (.pushFront value r.1, r.2)
    | .pushBack value pc, address, s => (s.pushBack value address pc).map fun r => (.pushBack value r.1, r.2)
    | .remove once p removed pc, _, s =>
      (if once then s.removeFirst p pc else s.removeIf p pc).map fun r =>
        (.remove once p (removed ++ s.taken pc) r.1, r.2)

abbrev System (α : Type) : Type := Calls (ThreadsafeList α) (Call α)

abbrev Event (α : Type) : Type := Calls.Event (Op α) ℕ

def start : System α := ⟨init, []⟩

namespace Call

def done : Call α → Bool
  | .pushFront _ .returned | .pushBack _ .returned | .remove _ _ _ (.returned _) => true
  | _ => false

/-- The call has used what is not there. -/
def isUndefined : Call α → Bool
  | .pushFront _ .undefined | .pushBack _ .undefined | .remove _ _ _ .undefined => true
  | _ => false

/-- The value a push has put in. -/
def put : Call α → Multiset α
  | .pushFront value .returned | .pushBack value .returned => {value}
  | _ => 0

def removed : Call α → List α
  | .remove _ _ removed _ => removed
  | _ => []

/-- What a call has taken out its predicate is true of. -/
def Chosen : Call α → Prop
  | .remove _ p removed _ => ∀ data ∈ removed, p data = true
  | _ => True

end Call

/-- A push_back that is about to lock a node locks the last one. -/
def LocksLast (s : System α) : Event α → Bool
  | .call _ => true
  | .move i _ =>
    match s.calls[i]? with
    | some (.pushBack _ (.lockNode _ m)) => m == s.shared.lastNodePtr
    | _ => true

end ThreadsafeList

end Learncc
