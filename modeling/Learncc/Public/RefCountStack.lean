/-
`ref_count_stack` (inc/public/ts_stack.h): a stack without locks that counts the
references to a node in two places. The pointer to the node has how many have
been taken through it, the node how many were given back, below 0 until the
node is popped and the two are added up. Every atomic operation is one step,
and so is every access to a node that other calls may know.

An address may be given out again once its node is deleted. What a call does at
an address without a node is `undefined`.
-/
import Learncc.Lib.Calls
import Learncc.Lib.Linked
import Mathlib.Data.Int.Notation
import Mathlib.Data.Multiset.OrderedMonoid

namespace Learncc

structure CountedNodePtr where
  externalCount : ℤ
  ptr : ℕ
deriving Repr, DecidableEq

/-- The `data` of a node is null once it has been swapped out. -/
structure CountNode (α : Type) where
  data : Option α
  internalCount : ℤ
  next : CountedNodePtr
deriving Repr, DecidableEq

structure RefCountStack (α : Type) where
  heap : ℕ → Option (CountNode α)
  head : CountedNodePtr

namespace RefCountStack

variable {α : Type}

def init : RefCountStack α := { heap := fun _ => none, head := ⟨0, 0⟩ }

/-- What the environment chooses: the address of a new node, and whether a
weak exchange fails although it could succeed. -/
structure Choice where
  address : ℕ := 1
  spurious : Bool := false

def write (s : RefCountStack α) (n : ℕ) (node : CountNode α) : RefCountStack α :=
  { s with heap := Function.update s.heap n (some node) }

def free (s : RefCountStack α) (n : ℕ) : RefCountStack α := { s with heap := Function.update s.heap n none }

/-! ## push -/

inductive PushPc
  | alloc
  | load (n : ℕ)
  | cas (n : ℕ)
  | returned
  | undefined
deriving Repr, DecidableEq

/-- An exchange that fails has read `head` into the new node's `next`. -/
def push (s : RefCountStack α) (data : α) (choice : Choice) : PushPc → Option (PushPc × RefCountStack α)
  | .alloc =>
    if choice.address ≠ 0 ∧ s.heap choice.address = none then
      some (.load choice.address, s.write choice.address ⟨some data, 0, ⟨0, 0⟩⟩)
    else none
  | .load n =>
    match s.heap n with
    | none => some (.undefined, s)
    | some node => some (.cas n, s.write n { node with next := s.head })
  | .cas n =>
    match s.heap n with
    | none => some (.undefined, s)
    | some node =>
      if s.head = node.next ∧ choice.spurious = false then some (.returned, { s with head := ⟨1, n⟩ })
      else some (.cas n, s.write n { node with next := s.head })
  | .returned | .undefined => none

/-! ## pop -/

/-- `again` is what `old_head` is for the next turn of the loop. -/
inductive PopPc (α : Type)
  | loadHead
  | increase (oldHead : CountedNodePtr)
  | readNext (oldHead : CountedNodePtr)
  | casHead (oldHead next : CountedNodePtr)
  | swap (oldHead : CountedNodePtr)
  | add (oldHead : CountedNodePtr) (res : α)
  | delete (ptr : ℕ) (res : α)
  | release (ptr : ℕ) (again : CountedNodePtr)
  | loadCount (ptr : ℕ) (again : CountedNodePtr)
  | deleteAgain (ptr : ℕ) (again : CountedNodePtr)
  | returned (res : Option α)
  | thrown
  | undefined
deriving Repr, DecidableEq

def pop (s : RefCountStack α) : PopPc α → Option (PopPc α × RefCountStack α)
  | .loadHead => some (.increase s.head, s)
  | .increase oldHead =>
    if s.head = oldHead then
      let newCounter := { oldHead with externalCount := oldHead.externalCount + 1 }
      some (if newCounter.ptr = 0 then .returned none else .readNext newCounter, { s with head := newCounter })
    else some (.increase s.head, s)
  | .readNext oldHead =>
    match s.heap oldHead.ptr with
    | none => some (.undefined, s)
    | some node => some (.casHead oldHead node.next, s)
  | .casHead oldHead next =>
    if s.head = oldHead then some (.swap oldHead, { s with head := next })
    else some (.release oldHead.ptr s.head, s)
  | .swap oldHead =>
    match s.heap oldHead.ptr with
    | none => some (.undefined, s)
    | some node =>
      some (match node.data with
        | none => .thrown
        | some res => .add oldHead res, s.write oldHead.ptr { node with data := none })
  | .add oldHead res =>
    match s.heap oldHead.ptr with
    | none => some (.undefined, s)
    | some node =>
      let countIncrease := oldHead.externalCount - 2
      some (if node.internalCount = -countIncrease then .delete oldHead.ptr res else .returned (some res),
        s.write oldHead.ptr { node with internalCount := node.internalCount + countIncrease })
  | .delete ptr res =>
    match s.heap ptr with
    | none => some (.undefined, s)
    | some _ => some (.returned (some res), s.free ptr)
  | .release ptr again =>
    match s.heap ptr with
    | none => some (.undefined, s)
    | some node =>
      some (if node.internalCount = 1 then .loadCount ptr again else .increase again,
        s.write ptr { node with internalCount := node.internalCount - 1 })
  | .loadCount ptr again =>
    match s.heap ptr with
    | none => some (.undefined, s)
    | some _ => some (.deleteAgain ptr again, s)
  | .deleteAgain ptr again =>
    match s.heap ptr with
    | none => some (.undefined, s)
    | some _ => some (.increase again, s.free ptr)
  | .returned _ | .thrown | .undefined => none

inductive Call (α : Type)
  | push (data : α) (pc : PushPc)
  | pop (pc : PopPc α)
deriving Repr, DecidableEq

inductive Op (α : Type)
  | push (data : α)
  | pop

def program : Calls.Program (RefCountStack α) (Call α) (Op α) Choice where
  enter
    | .push data => .push data .alloc
    | .pop => .pop .loadHead
  move
    | .push data pc, choice, s => (s.push data choice pc).map fun r => (.push data r.1, r.2)
    | .pop pc, _, s => (s.pop pc).map fun r => (.pop r.1, r.2)

abbrev System (α : Type) : Type := Calls (RefCountStack α) (Call α)

abbrev Event (α : Type) : Type := Calls.Event (Op α) Choice

def start : System α := ⟨init, []⟩

/-! ## What the calls know and have -/

namespace Call

def done : Call α → Bool
  | .push _ .returned | .pop (.returned _) => true
  | _ => false

/-- The call has used what is not there, or has thrown `empty_stack`. -/
def failed : Call α → Bool
  | .push _ .undefined | .pop .undefined | .pop .thrown => true
  | _ => false

/-- The address whose node the call may still read, write or delete. -/
def uses : Call α → Option ℕ
  | .push _ (.load n) | .push _ (.cas n) => some n
  | .pop (.readNext oldHead) | .pop (.casHead oldHead _) | .pop (.swap oldHead) | .pop (.add oldHead _) =>
    some oldHead.ptr
  | .pop (.delete ptr _) | .pop (.release ptr _) | .pop (.loadCount ptr _) | .pop (.deleteAgain ptr _) => some ptr
  | _ => none

/-- The node its next step deletes. -/
def deletes : Call α → Option ℕ
  | .pop (.delete ptr _) | .pop (.deleteAgain ptr _) => some ptr
  | _ => none

/-- The value a push has put on the stack. -/
def put : Call α → Multiset α
  | .push data .returned => {data}
  | _ => 0

/-- The value a pop has returned. -/
def got : Call α → Multiset α
  | .pop (.returned (some res)) => {res}
  | _ => 0

end Call

end RefCountStack

end Learncc
