/-
`lock_free_queue` (inc/public/ts_queue.h): a queue without locks. The last node
is a dummy; a push puts its value into it, links a new dummy and moves `tail`
on, and a push that comes too late helps with that. Two pointers are to a node,
`tail` and `head` (or a `next` that `head` will be set to), each with a count of
the references taken through it; the node counts the references given back and
the pointers left. Every atomic operation is one step, and so is every `new` and
`delete`.

An address may be given out again once its node is deleted. What a call does at
an address without a node is `undefined`.
-/
import Learncc.Lib.Calls
import Learncc.Lib.Linked
import Mathlib.Data.Int.Notation
import Mathlib.Data.Multiset.OrderedMonoid

namespace Learncc

namespace LockFreeQueue

structure CountedNodePtr where
  externalCount : ℤ
  ptr : ℕ
deriving Repr, DecidableEq

structure NodeCounter where
  internalCount : ℤ
  externalCounters : ℤ
deriving Repr, DecidableEq

structure Node (α : Type) where
  data : Option α
  count : NodeCounter
  next : CountedNodePtr
deriving Repr, DecidableEq

/-- What `new node` makes. -/
def Node.new {α : Type} : Node α := { data := none, count := ⟨0, 2⟩, next := ⟨0, 0⟩ }

end LockFreeQueue

open LockFreeQueue in
structure LockFreeQueue (α : Type) where
  heap : ℕ → Option (Node α)
  head : CountedNodePtr
  tail : CountedNodePtr

namespace LockFreeQueue

variable {α π : Type}

def init : LockFreeQueue α :=
  { heap := Function.update (fun _ => none) 1 (some Node.new), head := ⟨1, 1⟩, tail := ⟨1, 1⟩ }

/-- What the environment chooses: the address of a new node, and whether a
weak exchange fails although it could succeed. -/
structure Choice where
  address : ℕ := 1
  spurious : Bool := false

def write (s : LockFreeQueue α) (n : ℕ) (node : Node α) : LockFreeQueue α :=
  { s with heap := Function.update s.heap n (some node) }

def free (s : LockFreeQueue α) (n : ℕ) : LockFreeQueue α := { s with heap := Function.update s.heap n none }

def onNode (s : LockFreeQueue α) (undefined : π) (n : ℕ) (f : Node α → Option (π × LockFreeQueue α)) :
    Option (π × LockFreeQueue α) :=
  match s.heap n with
  | none => some (undefined, s)
  | some x => f x

def alloc (s : LockFreeQueue α) (address : ℕ) (pc : π) : Option (π × LockFreeQueue α) :=
  if address ≠ 0 ∧ s.heap address = none then some (pc, s.write address Node.new) else none

/-! ## release_ref and free_external_counter -/

/-- What becomes of the counts: `freeExternal` is told the count of the pointer
that is no more. -/
inductive Change
  | releaseRef
  | freeExternal (externalCount : ℤ)
deriving Repr, DecidableEq

def Change.apply : Change → NodeCounter → NodeCounter
  | .releaseRef, c => { c with internalCount := c.internalCount - 1 }
  | .freeExternal externalCount, c =>
    { internalCount := c.internalCount + (externalCount - 2), externalCounters := c.externalCounters - 1 }

inductive Drop
  | load (change : Change)
  | cas (change : Change) (old : NodeCounter)
  | delete
deriving Repr, DecidableEq

def drop (s : LockFreeQueue α) (undefined : π) (ptr : ℕ) (pc : Drop → π) (done : π) :
    Drop → Option (π × LockFreeQueue α)
  | .load change => s.onNode undefined ptr fun x => some (pc (.cas change x.count), s)
  | .cas change old => s.onNode undefined ptr fun x =>
      if x.count = old then
        some (if change.apply old = ⟨0, 0⟩ then pc .delete else done, s.write ptr { x with count := change.apply old })
      else some (pc (.cas change x.count), s)
  | .delete => s.onNode undefined ptr fun _ => some (done, s.free ptr)

/-! ## push -/

/-- `n` is the node of `new_next`, `after` the one for the next turn of the loop,
if there is one. -/
inductive PushPc
  | alloc
  | loadTail (n : ℕ)
  | increase (n : ℕ) (oldTail : CountedNodePtr)
  | casData (n : ℕ) (oldTail : CountedNodePtr)
  | loadNext (n : ℕ) (oldTail : CountedNodePtr)
  | casNext (n : ℕ) (oldTail : CountedNodePtr)
  | deleteNew (n : ℕ) (newNext oldTail : CountedNodePtr)
  | helpNext (n : ℕ) (oldTail : CountedNodePtr)
  | allocNew (oldNext oldTail : CountedNodePtr)
  | setTail (newTail oldTail : CountedNodePtr) (current : ℕ) (after : Option ℕ)
  | drop (ptr : ℕ) (drop : Drop) (oldTail : CountedNodePtr) (after : Option ℕ)
  | returned
  | undefined
deriving Repr, DecidableEq

def PushPc.next (oldTail : CountedNodePtr) : Option ℕ → PushPc
  | none => .returned
  | some n => .increase n oldTail

/-- After the loop of `set_new_tail`: the node is done with if `oldTail` is still
it. -/
def PushPc.settled (oldTail : CountedNodePtr) (current : ℕ) (after : Option ℕ) : PushPc :=
  if oldTail.ptr = current then .drop current (.load (.freeExternal oldTail.externalCount)) oldTail after
  else .drop current (.load .releaseRef) oldTail after

def push (s : LockFreeQueue α) (value : α) (choice : Choice) : PushPc → Option (PushPc × LockFreeQueue α)
  | .alloc => s.alloc choice.address (.loadTail choice.address)
  | .loadTail n => some (.increase n s.tail, s)
  | .increase n oldTail =>
    if s.tail = oldTail then
      let newCounter := { oldTail with externalCount := oldTail.externalCount + 1 }
      some (.casData n newCounter, { s with tail := newCounter })
    else some (.increase n s.tail, s)
  | .casData n oldTail => s.onNode .undefined oldTail.ptr fun x =>
      match x.data with
      | none => some (.loadNext n oldTail, s.write oldTail.ptr { x with data := some value })
      | some _ => some (.helpNext n oldTail, s)
  | .loadNext n oldTail => s.onNode .undefined oldTail.ptr fun _ => some (.casNext n oldTail, s)
  | .casNext n oldTail => s.onNode .undefined oldTail.ptr fun x =>
      if x.next = ⟨0, 0⟩ then
        some (.setTail ⟨1, n⟩ oldTail oldTail.ptr none, s.write oldTail.ptr { x with next := ⟨1, n⟩ })
      else some (.deleteNew n x.next oldTail, s)
  | .deleteNew n newNext oldTail => s.onNode .undefined n fun _ =>
      some (.setTail newNext oldTail oldTail.ptr none, s.free n)
  | .helpNext n oldTail => s.onNode .undefined oldTail.ptr fun x =>
      if x.next = ⟨0, 0⟩ then
        some (.allocNew ⟨1, n⟩ oldTail, s.write oldTail.ptr { x with next := ⟨1, n⟩ })
      else some (.setTail x.next oldTail oldTail.ptr (some n), s)
  | .allocNew oldNext oldTail =>
    s.alloc choice.address (.setTail oldNext oldTail oldTail.ptr (some choice.address))
  | .setTail newTail oldTail current after =>
    if s.tail = oldTail ∧ choice.spurious = false then
      some (.settled oldTail current after, { s with tail := newTail })
    else some (if s.tail.ptr = current then .setTail newTail s.tail current after
      else .settled s.tail current after, s)
  | .drop ptr drop oldTail after => s.drop .undefined ptr (.drop ptr · oldTail after) (.next oldTail after) drop
  | .returned | .undefined => none

/-! ## pop -/

/-- After a node is given up: the end, or the next turn of the loop. -/
inductive PopAfter (α : Type)
  | leave (res : Option α)
  | again (oldHead : CountedNodePtr)
deriving Repr, DecidableEq

inductive PopPc (α : Type)
  | loadHead
  | increase (oldHead : CountedNodePtr)
  | readTail (oldHead : CountedNodePtr)
  | loadNext (oldHead : CountedNodePtr)
  | casHead (oldHead next : CountedNodePtr)
  | exchange (oldHead : CountedNodePtr)
  | drop (ptr : ℕ) (drop : Drop) (after : PopAfter α)
  | returned (res : Option α)
  | undefined
deriving Repr, DecidableEq

def PopPc.next : PopAfter α → PopPc α
  | .leave res => .returned res
  | .again oldHead => .increase oldHead

def pop (s : LockFreeQueue α) : PopPc α → Option (PopPc α × LockFreeQueue α)
  | .loadHead => some (.increase s.head, s)
  | .increase oldHead =>
    if s.head = oldHead then
      let newCounter := { oldHead with externalCount := oldHead.externalCount + 1 }
      some (.readTail newCounter, { s with head := newCounter })
    else some (.increase s.head, s)
  | .readTail oldHead =>
    some (if oldHead.ptr = s.tail.ptr then .drop oldHead.ptr (.load .releaseRef) (.leave none)
      else .loadNext oldHead, s)
  | .loadNext oldHead => s.onNode .undefined oldHead.ptr fun x => some (.casHead oldHead x.next, s)
  | .casHead oldHead next =>
    if s.head = oldHead then some (.exchange oldHead, { s with head := next })
    else some (.drop oldHead.ptr (.load .releaseRef) (.again s.head), s)
  | .exchange oldHead => s.onNode .undefined oldHead.ptr fun x =>
      some (.drop oldHead.ptr (.load (.freeExternal oldHead.externalCount)) (.leave x.data),
        s.write oldHead.ptr { x with data := none })
  | .drop ptr drop after => s.drop .undefined ptr (.drop ptr · after) (.next after) drop
  | .returned _ | .undefined => none

/-! ## Calls -/

inductive Call (α : Type)
  | push (value : α) (pc : PushPc)
  | pop (pc : PopPc α)
deriving Repr, DecidableEq

inductive Op (α : Type)
  | push (value : α)
  | pop

def program : Calls.Program (LockFreeQueue α) (Call α) (Op α) Choice where
  enter
    | .push value => .push value .alloc
    | .pop => .pop .loadHead
  move
    | .push value pc, choice, s => (s.push value choice pc).map fun r => (.push value r.1, r.2)
    | .pop pc, _, s => (s.pop pc).map fun r => (.pop r.1, r.2)

abbrev System (α : Type) : Type := Calls (LockFreeQueue α) (Call α)

abbrev Event (α : Type) : Type := Calls.Event (Op α) Choice

def start : System α := ⟨init, []⟩

namespace Call

def done : Call α → Bool
  | .push _ .returned | .pop (.returned _) => true
  | _ => false

/-- The call has used what is not there. -/
def isUndefined : Call α → Bool
  | .push _ .undefined | .pop .undefined => true
  | _ => false

/-- The value of a push that has put it into a node. -/
def put : Call α → Multiset α
  | .push value (.loadNext ..) | .push value (.casNext ..) | .push value (.deleteNew ..) => {value}
  | .push value (.setTail _ _ _ none) | .push value (.drop _ _ _ none) | .push value .returned => {value}
  | _ => 0

/-- The value a pop has returned. -/
def got : Call α → Multiset α
  | .pop (.returned res) => (res.toList : Multiset α)
  | _ => 0

end Call

/-- A push that finds a node without a value finds it last. -/
def FillsTail (s : System α) : Event α → Bool
  | .call _ => true
  | .move i _ =>
    match s.calls[i]? with
    | some (.push _ (.casData _ oldTail)) =>
      match s.shared.heap oldTail.ptr with
      | none => true
      | some x => x.data.isSome || oldTail.ptr == s.shared.tail.ptr
    | _ => true

end LockFreeQueue

end Learncc
