/-
`threadsafe_stack_uk` (inc/public/ts_stack.h): a stack without locks whose
popped nodes are deleted when no pop can still look at them. Every atomic
operation is one step, and so is every access to a node that other calls may
know.

An address may be given out again once its node is deleted. What a call does at
an address without a node is `undefined`.
-/
import Learncc.Lib.Calls
import Learncc.Lib.Linked
import Mathlib.Data.Multiset.OrderedMonoid
import Mathlib.Data.Int.Notation

namespace Learncc

/-- The `data_` of a node is null once it has been swapped out. -/
structure StackNode (α : Type) where
  data : Option α
  next : ℕ
deriving Repr, DecidableEq

structure ThreadsafeStackUk (α : Type) where
  heap : ℕ → Option (StackNode α)
  head : ℕ
  toBeDeleted : ℕ
  threadsInPop : ℤ

namespace ThreadsafeStackUk

variable {α : Type}

/-- The three atomics start null and 0. -/
def init : ThreadsafeStackUk α := { heap := fun _ => none, head := 0, toBeDeleted := 0, threadsInPop := 0 }

/-- What the environment chooses: the address of a new node, and whether a
weak exchange fails although it could succeed. -/
structure Choice where
  address : ℕ := 1
  spurious : Bool := false

def write (s : ThreadsafeStackUk α) (n : ℕ) (node : StackNode α) : ThreadsafeStackUk α :=
  { s with heap := Function.update s.heap n (some node) }

def free (s : ThreadsafeStackUk α) (n : ℕ) : ThreadsafeStackUk α := { s with heap := Function.update s.heap n none }

/-! ## push -/

inductive PushPc
  | alloc
  | load (n : ℕ)
  | cas (n : ℕ)
  | returned
  | undefined
deriving Repr, DecidableEq

def push (s : ThreadsafeStackUk α) (value : α) (choice : Choice) : PushPc → Option (PushPc × ThreadsafeStackUk α)
  | .alloc =>
    if choice.address ≠ 0 ∧ s.heap choice.address = none then
      some (.load choice.address, s.write choice.address ⟨some value, 0⟩)
    else none
  | .load n =>
    match s.heap n with
    | none => some (.undefined, s)
    | some node => some (.cas n, s.write n { node with next := s.head })
  | .cas n =>
    match s.heap n with
    | none => some (.undefined, s)
    | some node =>
      if s.head = node.next ∧ choice.spurious = false then some (.returned, { s with head := n })
      else some (.load n, s.write n { node with next := s.head })
  | .returned | .undefined => none

/-! ## pop -/

/-- The chain `first` to `last` is put back into the list of nodes to be
deleted: for `some old`, what was taken from there, and `old` is deleted
afterwards; for `none`, the popped node itself. -/
inductive PopPc (α : Type)
  | enter
  | load
  | leaveEmpty
  | readNext (old : ℕ)
  | cas (old next : ℕ)
  | swap (old : ℕ)
  | check (old : ℕ) (res : Option α)
  | exchange (old : ℕ) (res : Option α)
  | dec (old : ℕ) (res : Option α) (toDelete : ℕ)
  | readDelete (old : ℕ) (res : Option α) (n : ℕ)
  | delete (old : ℕ) (res : Option α) (n next : ℕ)
  | walk (old : ℕ) (res : Option α) (first last : ℕ)
  | chainLoad (old : Option ℕ) (res : Option α) (first last : ℕ)
  | chainStore (old : Option ℕ) (res : Option α) (first last next : ℕ)
  | chainCas (old : Option ℕ) (res : Option α) (first last : ℕ)
  | deleteOld (old : ℕ) (res : Option α)
  | leave (res : Option α)
  | returned (res : Option α)
  | undefined
deriving Repr, DecidableEq

/-- `delete_nodes(n)`, with `delete old` after it. -/
def deleteNodes (old : ℕ) (res : Option α) (n : ℕ) : PopPc α :=
  if n = 0 then .deleteOld old res else .readDelete old res n

/-- What comes after `chain_pending_nodes`. -/
def chained (res : Option α) : Option ℕ → PopPc α
  | some old => .deleteOld old res
  | none => .leave res

def pop (s : ThreadsafeStackUk α) (choice : Choice) : PopPc α → Option (PopPc α × ThreadsafeStackUk α)
  | .enter => some (.load, { s with threadsInPop := s.threadsInPop + 1 })
  | .load => if s.head = 0 then some (.leaveEmpty, s) else some (.readNext s.head, s)
  | .leaveEmpty => some (.returned none, { s with threadsInPop := s.threadsInPop - 1 })
  | .readNext old =>
    match s.heap old with
    | none => some (.undefined, s)
    | some node => some (.cas old node.next, s)
  | .cas old next =>
    if s.head = old ∧ choice.spurious = false then some (.swap old, { s with head := next }) else some (.load, s)
  | .swap old =>
    match s.heap old with
    | none => some (.undefined, s)
    | some node => some (.check old node.data, s.write old { node with data := none })
  | .check old res =>
    if s.threadsInPop = 1 then some (.exchange old res, s) else some (.chainLoad none res old old, s)
  | .exchange old res => some (.dec old res s.toBeDeleted, { s with toBeDeleted := 0 })
  | .dec old res toDelete =>
    some (if s.threadsInPop - 1 = 0 then deleteNodes old res toDelete
      else if toDelete ≠ 0 then .walk old res toDelete toDelete else .deleteOld old res,
      { s with threadsInPop := s.threadsInPop - 1 })
  | .readDelete old res n =>
    match s.heap n with
    | none => some (.undefined, s)
    | some node => some (.delete old res n node.next, s)
  | .delete old res n next =>
    match s.heap n with
    | none => some (.undefined, s)
    | some _ => some (deleteNodes old res next, s.free n)
  | .walk old res first last =>
    match s.heap last with
    | none => some (.undefined, s)
    | some node =>
      if node.next ≠ 0 then some (.walk old res first node.next, s) else some (.chainLoad (some old) res first last, s)
  | .chainLoad old res first last => some (.chainStore old res first last s.toBeDeleted, s)
  | .chainStore old res first last next =>
    match s.heap last with
    | none => some (.undefined, s)
    | some node => some (.chainCas old res first last, s.write last { node with next })
  | .chainCas old res first last =>
    match s.heap last with
    | none => some (.undefined, s)
    | some node =>
      if s.toBeDeleted = node.next ∧ choice.spurious = false then
        some (chained res old, { s with toBeDeleted := first })
      else some (.chainCas old res first last, s.write last { node with next := s.toBeDeleted })
  | .deleteOld old res =>
    match s.heap old with
    | none => some (.undefined, s)
    | some _ => some (.returned res, s.free old)
  | .leave res => some (.returned res, { s with threadsInPop := s.threadsInPop - 1 })
  | .returned _ | .undefined => none

inductive Call (α : Type)
  | push (value : α) (pc : PushPc)
  | pop (pc : PopPc α)
deriving Repr, DecidableEq

inductive Op (α : Type)
  | push (value : α)
  | pop

def program : Calls.Program (ThreadsafeStackUk α) (Call α) (Op α) Choice where
  enter
    | .push value => .push value .alloc
    | .pop => .pop .enter
  move
    | .push value pc, choice, s => (s.push value choice pc).map fun r => (.push value r.1, r.2)
    | .pop pc, choice, s => (s.pop choice pc).map fun r => (.pop r.1, r.2)

abbrev System (α : Type) : Type := Calls (ThreadsafeStackUk α) (Call α)

abbrev Event (α : Type) : Type := Calls.Event (Op α) Choice

def start : System α := ⟨init, []⟩

/-! ## What the calls know and have -/

namespace Call

def done : Call α → Bool
  | .push _ .returned | .pop (.returned _) => true
  | _ => false

def isUndefined : Call α → Bool
  | .push _ .undefined | .pop .undefined => true
  | _ => false

/-- The addresses whose nodes the call may still read, write or delete. -/
def uses : Call α → List ℕ
  | .push _ (.load n) | .push _ (.cas n) => [n]
  | .pop (.readNext old) | .pop (.cas old _) | .pop (.swap old) | .pop (.check old _) | .pop (.exchange old _) => [old]
  | .pop (.dec old _ toDelete) => old :: if toDelete = 0 then [] else [toDelete]
  | .pop (.readDelete old _ n) => [old, n]
  | .pop (.delete old _ n next) => old :: n :: if next = 0 then [] else [next]
  | .pop (.walk old _ first last) => [old, first, last]
  | .pop (.chainLoad old _ first last) | .pop (.chainStore old _ first last _) | .pop (.chainCas old _ first last) =>
    old.toList ++ [first, last]
  | .pop (.deleteOld old _) => [old]
  | _ => []

/-- The node its next step deletes. -/
def deletes : Call α → Option ℕ
  | .pop (.delete _ _ n _) | .pop (.deleteOld n _) => some n
  | _ => none

/-- The value a push has put on the stack. -/
def put : Call α → Multiset α
  | .push value .returned => {value}
  | _ => 0

/-- The value a pop has returned. -/
def got : Call α → Multiset α
  | .pop (.returned (some value)) => {value}
  | _ => 0

end Call

end ThreadsafeStackUk

end Learncc
