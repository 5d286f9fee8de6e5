/-
`threadsafe_queue_s` (inc/concurrent/threadsafe_queue.h): a linked list behind a
dummy, with one mutex for its head and one for its tail. `push` has only the tail's,
a pop the head's and for a moment the tail's, `try_steal` both. Each pop stands for
its two overloads, and a wait may end at any time.

`queue_atomic`: the calls take effect one at a time, on a sequence to which `push`
adds at the back; the pops take the front, `try_steal` the back.
-/
import Learncc.Lib.Linearize

namespace Learncc.ThreadsafeQueue

/-- A pointer is an address, 0 the null pointer; `prev` is not initialised. -/
structure Node (α : Type) where
  data : Option α
  next : ℕ
  prev : Option ℕ

structure Queue (α : Type) where
  heap : ℕ → Option (Node α)
  head : ℕ
  tail : ℕ
  headMutex : Bool
  tailMutex : Bool

inductive Op (α : Type)
  | push (value : α)
  | tryPop
  | waitAndPop
  | waitAndPopTimeout
  | trySteal

inductive Answer (α : Type)
  | done
  | item (value : α)
  | empty

/-- What a call does next. In a push `n` is the new node; in a pop `timeout` is true
when the timed wait has run out, and `old` is the node taken out. -/
inductive Pc (α : Type)
  | start
  | lockTail (value : α) (n : ℕ)
  | setData (value : α) (n : ℕ)
  | setPrev (value : α) (n : ℕ)
  | setNext (value : α) (n : ℕ)
  | setTail (value : α) (n : ℕ)
  | unlockTail
  | lockHead (timeout : Bool)
  | test (timeout : Bool)
  | asleep
  | value
  | moveHead (value : α)
  | unlockHead (answer : Answer α) (old : Option ℕ)
  | destroy (old : ℕ) (answer : Answer α)
  | returned (answer : Answer α)
  | undefined

structure Call (α : Type) where
  op : Op α
  pc : Pc α

/-- The address a new node gets, and whether a wait ends by its timeout. -/
structure Input where
  address : ℕ
  timeout : Bool

variable {α : Type}

/-- The queue with its dummy, at address 1. -/
def init : Queue α :=
  { heap := fun n => if n = 1 then some ⟨none, 0, none⟩ else none, head := 1, tail := 1, headMutex := false,
    tailMutex := false }

namespace Queue

variable (s : Queue α)

/-- An access to a node; without one the behaviour is undefined. -/
def onNode (n : ℕ) (f : Node α → Option (Pc α × Queue α)) : Option (Pc α × Queue α) :=
  match s.heap n with
  | some x => f x
  | none => some (.undefined, s)

def write (n : ℕ) (x : Node α) : Queue α := { s with heap := Function.update s.heap n (some x) }

def free (n : ℕ) : Queue α := { s with heap := Function.update s.heap n none }

/-- `new node`. -/
def alloc (n : ℕ) (pc : Pc α) : Option (Pc α × Queue α) :=
  if n ≠ 0 ∧ s.heap n = none then some (pc, s.write n ⟨none, 0, none⟩) else none

/-- `try_steal`, which has both mutexes throughout. Should the link it cuts lead to
another node than the last, nodes in use would be destroyed. -/
def trySteal : Option (Pc α × Queue α) :=
  if s.headMutex ∨ s.tailMutex then none
  else if s.head = s.tail then some (.returned .empty, s)
  else s.onNode s.tail fun last =>
    match last.prev with
    | none => some (.undefined, s)
    | some p => s.onNode p fun x =>
      match x.data with
      | none => some (.undefined, s)
      | some value =>
        if x.next = s.tail ∧ last.next = 0 then
          some (.returned (.item value), { (s.write p { x with next := 0 }).free s.tail with tail := p })
        else some (.undefined, s)

/-- A pop that finds the queue empty. -/
def testEmpty (timeout : Bool) : Op α → Option (Pc α × Queue α)
  | .waitAndPop => some (.asleep, { s with headMutex := false })
  | .waitAndPopTimeout =>
    if timeout then some (.unlockHead .empty none, s) else some (.asleep, { s with headMutex := false })
  | .push _ | .tryPop | .trySteal => some (.unlockHead .empty none, s)

/-- Takes the first node out; `wait_and_pop_timeout` destroys it at once. -/
def moveHead (value : α) : Op α → Option (Pc α × Queue α)
  | .waitAndPopTimeout => s.onNode s.head fun x =>
    some (.unlockHead (.item value) none, { s.free s.head with head := x.next })
  | .push _ | .tryPop | .waitAndPop | .trySteal => s.onNode s.head fun x =>
    some (.unlockHead (.item value) (some s.head), { s.write s.head { x with next := 0 } with head := x.next })

/-- The next move of a call. `bstop` is false: only `Exit` and the destructor set it. -/
def move (op : Op α) (input : Input) : Pc α → Option (Pc α × Queue α)
  | .start =>
    match op with
    | .push value => s.alloc input.address (.lockTail value input.address)
    | .tryPop | .waitAndPop | .waitAndPopTimeout => some (.lockHead false, s)
    | .trySteal => s.trySteal
  | .lockTail value n => if s.tailMutex then none else some (.setData value n, { s with tailMutex := true })
  | .setData value n => s.onNode s.tail fun y => some (.setPrev value n, s.write s.tail { y with data := some value })
  | .setPrev value n => s.onNode n fun x => some (.setNext value n, s.write n { x with prev := some s.tail })
  | .setNext value n => s.onNode s.tail fun y =>
    -- a node linked there would be destroyed
    if y.next = 0 then some (.setTail value n, s.write s.tail { y with next := n }) else some (.undefined, s)
  | .setTail _ n => some (.unlockTail, { s with tail := n })
  | .unlockTail => some (.returned .done, { s with tailMutex := false })
  | .lockHead timeout => if s.headMutex then none else some (.test timeout, { s with headMutex := true })
  -- `get_tail` has the tail mutex for this move only
  | .test timeout =>
    if s.tailMutex then none
    else if s.head = s.tail then s.testEmpty timeout op
    else some (.value, s)
  | .asleep => some (.lockHead input.timeout, s)
  | .value => s.onNode s.head fun x =>
    match x.data with
    | some value => some (.moveHead value, s)
    | none => some (.undefined, s)
  | .moveHead value => s.moveHead value op
  | .unlockHead answer old =>
    match old with
    | none => some (.returned answer, { s with headMutex := false })
    | some n => some (.destroy n answer, { s with headMutex := false })
  | .destroy n answer => s.onNode n fun x =>
    if x.next = 0 then some (.returned answer, s.free n) else some (.undefined, s)
  | .returned _ | .undefined => none

end Queue

def move (c : Call α) (input : Input) (s : Queue α) : Option (Call α × Queue α) :=
  (s.move c.op input c.pc).map fun r => (⟨c.op, r.1⟩, r.2)

def program : Calls.Program (Queue α) (Call α) (Op α) Input := { enter := fun op => ⟨op, .start⟩, move := move }

/-! ## The sequence -/

/-- What the calls are on a sequence. -/
inductive Spec : Op α → List α → Answer α → List α → Prop
  | push (value : α) (l : List α) : Spec (.push value) l .done (l ++ [value])
  | tryPop (value : α) (l : List α) : Spec .tryPop (value :: l) (.item value) l
  | tryPopEmpty : Spec .tryPop [] .empty []
  | waitAndPop (value : α) (l : List α) : Spec .waitAndPop (value :: l) (.item value) l
  | waitAndPopTimeout (value : α) (l : List α) : Spec .waitAndPopTimeout (value :: l) (.item value) l
  | waitAndPopTimeoutEmpty : Spec .waitAndPopTimeout [] .empty []
  | trySteal (value : α) (l : List α) : Spec .trySteal (l ++ [value]) (.item value) l
  | tryStealEmpty : Spec .trySteal [] .empty []

/-- The answer of a call that has taken effect: a push when it has moved the tail, a
pop when it has moved the head or found the queue empty. -/
def Pc.effect : Pc α → Option (Answer α)
  | .unlockTail => some .done
  | .unlockHead answer _ | .destroy _ answer | .returned answer => some answer
  | .start | .lockTail .. | .setData .. | .setPrev .. | .setNext .. | .setTail .. | .lockHead _ | .test _ | .asleep
  | .value | .moveHead _ | .undefined => none

def Pc.answer : Pc α → Option (Answer α)
  | .returned answer => some answer
  | .start | .lockTail .. | .setData .. | .setPrev .. | .setNext .. | .setTail .. | .unlockTail | .lockHead _ | .test _
  | .asleep | .value | .moveHead _ | .unlockHead .. | .destroy .. | .undefined => none

def view : Calls.View (Call α) (Op α) (Answer α) :=
  { op := Call.op, effect := fun c => c.pc.effect, answer := fun c => c.pc.answer }

/-! ## The list -/

/-- From node `p` on, the nodes with their values up to the last one, whose value does
not count. -/
def Chain (heap : ℕ → Option (Node α)) (tail : ℕ) : ℕ → List (ℕ × α) → Prop
  | p, [] => p = tail
  | p, (n, value) :: cells =>
    p = n ∧ ∃ x, heap n = some x ∧ x.data = some value ∧ (∃ y, heap x.next = some y ∧ y.prev = some n) ∧
      Chain heap tail x.next cells

section

variable {heap heap' : ℕ → Option (Node α)} {tail p n : ℕ} {value : α} {cells : List (ℕ × α)} {x y : Node α}

/-- A chain uses its nodes, and of the last one where it leads back. -/
theorem Chain.congr (h : Chain heap tail p cells) (hcells : ∀ n ∈ cells.map Prod.fst, heap' n = heap n)
    (htail : ∀ y, heap tail = some y → ∃ y', heap' tail = some y' ∧ y'.prev = y.prev) : Chain heap' tail p cells := by
  induction cells generalizing p with
  | nil => exact h
  | cons e cells ih =>
    obtain ⟨n, value⟩ := e
    obtain ⟨hp, x, hx, hdata, ⟨y, hy, hprev⟩, hrest⟩ := h
    have hcells' : ∀ m ∈ cells.map Prod.fst, heap' m = heap m := fun m hm => hcells m (List.mem_cons_of_mem _ hm)
    refine ⟨hp, x, ?_, hdata, ?_, ih hrest hcells'⟩
    · rw [hcells n List.mem_cons_self]
      exact hx
    · cases cells with
      | nil =>
        have hlast : x.next = tail := hrest
        rw [hlast] at hy ⊢
        obtain ⟨y', hy', hsame⟩ := htail y hy
        exact ⟨y', hy', hsame.trans hprev⟩
      | cons e cells =>
        obtain ⟨hnext, -⟩ := hrest
        rw [hnext] at hy ⊢
        exact ⟨y, (hcells' _ List.mem_cons_self).trans hy, hprev⟩

/-- The last node gets a value, and another one behind it. -/
theorem Chain.concat (h : Chain heap tail p cells) (hy : heap tail = some y) (hdata : y.data = some value)
    (hx : heap y.next = some x) (hprev : x.prev = some tail) : Chain heap y.next p (cells ++ [(tail, value)]) := by
  induction cells generalizing p with
  | nil => exact ⟨h, y, hy, hdata, ⟨x, hx, hprev⟩, rfl⟩
  | cons e cells ih =>
    obtain ⟨hp, z, hz, hzdata, hback, hrest⟩ := h
    exact ⟨hp, z, hz, hzdata, hback, ih hrest⟩

/-- What is behind the last value, and how to get back from there. -/
theorem Chain.last (h : Chain heap tail p (cells ++ [(n, value)])) :
    Chain heap n p cells ∧ (∃ x, heap n = some x ∧ x.data = some value ∧ x.next = tail) ∧
      ∃ y, heap tail = some y ∧ y.prev = some n := by
  induction cells generalizing p with
  | nil =>
    obtain ⟨hp, x, hx, hdata, ⟨y, hy, hprev⟩, hlast⟩ := h
    have hlast' : x.next = tail := hlast
    rw [hlast'] at hy
    exact ⟨hp, ⟨x, hx, hdata, hlast'⟩, y, hy, hprev⟩
  | cons e cells ih =>
    obtain ⟨hp, z, hz, hzdata, hback, hrest⟩ := h
    obtain ⟨hchain, hlast⟩ := ih hrest
    exact ⟨⟨hp, z, hz, hzdata, hback, hchain⟩, hlast⟩

end

/-! ## What holds throughout -/

/-- The node that is the call's own. -/
def Pc.node : Pc α → Option ℕ
  | .lockTail _ n | .setData _ n | .setPrev _ n | .setNext _ n | .setTail _ n | .unlockHead _ (some n) | .destroy n _ =>
    some n
  | .start | .unlockTail | .lockHead _ | .test _ | .asleep | .value | .moveHead _ | .unlockHead _ none | .returned _
  | .undefined => none

def Pc.owns (n : ℕ) (pc : Pc α) : ℕ := if pc.node = some n then 1 else 0

def Pc.holdsTail : Pc α → ℕ
  | .setData .. | .setPrev .. | .setNext .. | .setTail .. | .unlockTail => 1
  | .start | .lockTail .. | .lockHead _ | .test _ | .asleep | .value | .moveHead _ | .unlockHead .. | .destroy ..
  | .returned _ | .undefined => 0

def Pc.holdsHead : Pc α → ℕ
  | .test _ | .value | .moveHead _ | .unlockHead .. => 1
  | .start | .lockTail .. | .setData .. | .setPrev .. | .setNext .. | .setTail .. | .unlockTail | .lockHead _ | .asleep
  | .destroy .. | .returned _ | .undefined => 0

/-- There is a node, and it is as it should be. -/
def Queue.Has (s : Queue α) (n : ℕ) (P : Node α → Prop) : Prop := ∃ x, s.heap n = some x ∧ P x

/-- What a call knows of the nodes it uses; `cells` are the nodes with values. -/
def Pc.Knows (s : Queue α) (cells : List (ℕ × α)) : Pc α → Prop
  | .lockTail _ n | .unlockHead _ (some n) | .destroy n _ => s.Has n fun x => x.next = 0
  | .setData _ n => s.Has n (fun x => x.next = 0) ∧ s.Has s.tail fun y => y.next = 0
  | .setPrev v n => s.Has n (fun x => x.next = 0) ∧ s.Has s.tail fun y => y.next = 0 ∧ y.data = some v
  | .setNext v n => s.Has n (fun x => x.next = 0 ∧ x.prev = some s.tail) ∧
    s.Has s.tail fun y => y.next = 0 ∧ y.data = some v
  | .setTail v n => s.Has n (fun x => x.next = 0 ∧ x.prev = some s.tail) ∧
    s.Has s.tail fun y => y.next = n ∧ y.data = some v
  | .unlockTail => s.Has s.tail fun y => y.next = 0
  | .value => ∃ e, cells.head? = some e
  | .moveHead v => ∃ n, cells.head? = some (n, v)
  | .start | .lockHead _ | .test _ | .asleep | .unlockHead _ none | .returned _ => True
  | .undefined => False

/-- The calls that are in a push are pushes, those in a pop are pops. -/
def Call.Fits (c : Call α) : Prop :=
  match c.pc with
  | .lockTail value _ | .setData value _ | .setPrev value _ | .setNext value _ | .setTail value _ => c.op = .push value
  | .lockHead _ | .test _ | .asleep | .value | .moveHead _ =>
    c.op = .tryPop ∨ c.op = .waitAndPop ∨ c.op = .waitAndPopTimeout
  | .start | .unlockTail | .unlockHead .. | .destroy .. | .returned _ | .undefined => True

/-- The nodes of the queue. -/
def nodes (s : Queue α) (cells : List (ℕ × α)) : List ℕ := cells.map Prod.fst ++ [s.tail]

structure Inv (s : Queue α) (calls : List (Call α)) (cells : List (ℕ × α)) : Prop where
  chain : Chain s.heap s.tail s.head cells
  -- a node there is belongs to the queue or to one call
  nodes : ∀ n, Calls.total (fun c => c.pc.owns n) calls + (nodes s cells).count n = (s.heap n).isSome.toNat
  heads : Calls.total (fun c => c.pc.holdsHead) calls = s.headMutex.toNat
  tails : Calls.total (fun c => c.pc.holdsTail) calls = s.tailMutex.toNat
  idle : s.tailMutex = false → s.Has s.tail fun y => y.next = 0
  fits : ∀ c ∈ calls, c.Fits
  knows : ∀ c ∈ calls, c.pc.Knows s cells

section

variable {s s' : Queue α} {calls : List (Call α)} {cells cells' : List (ℕ × α)} {i n : ℕ} {c : Call α} {pc pc' : Pc α}

theorem Queue.Has.mono {P Q : Node α → Prop} (h : s.Has n P) (hheap : s'.heap n = s.heap n) (hPQ : ∀ x, P x → Q x) :
    s'.Has n Q := by
  obtain ⟨x, hx, hP⟩ := h
  exact ⟨x, hheap.trans hx, hPQ x hP⟩

/-- A call relies on its own node, on the last one while it has the tail mutex, and on
the first one while it has the head mutex. -/
theorem Pc.Knows.frame (h : pc.Knows s cells) (hown : ∀ n, pc.node = some n → s'.heap n = s.heap n)
    (htail : pc.holdsTail = 1 → s'.tail = s.tail ∧ s'.heap s.tail = s.heap s.tail)
    (hhead : pc.holdsHead = 1 → ∀ e, cells.head? = some e → cells'.head? = some e) : pc.Knows s' cells' := by
  cases pc with
  | start | lockHead _ | test _ | asleep | returned _ => trivial
  | undefined => exact h
  | lockTail _ n | destroy n _ => exact h.mono (hown n rfl) fun x hx => hx
  | unlockHead _ old =>
    cases old with
    | none => trivial
    | some n => exact h.mono (hown n rfl) fun x hx => hx
  | setData _ n | setPrev _ n | setNext _ n | setTail _ n =>
    obtain ⟨hsame, hnode⟩ := htail rfl
    obtain ⟨hn, hy⟩ := h
    refine ⟨hn.mono (hown n rfl) fun x hx => ?_, ?_⟩
    · first | exact hx | exact ⟨hx.1, by rw [hsame]; exact hx.2⟩
    · rw [hsame]
      exact hy.mono hnode fun y hy => hy
  | unlockTail =>
    obtain ⟨hsame, hnode⟩ := htail rfl
    show s'.Has s'.tail _
    rw [hsame]
    exact Queue.Has.mono h hnode fun y hy => hy
  | value =>
    obtain ⟨e, he⟩ := h
    exact ⟨e, hhead rfl e he⟩
  | moveHead value =>
    obtain ⟨n, hn⟩ := h
    exact ⟨n, hhead rfl _ hn⟩

theorem Pc.owns_of_node (h : pc.node = some n) : pc.owns n = 1 := if_pos h

theorem Inv.count_le (h : Inv s calls cells) (n : ℕ) :
    Calls.total (fun c => c.pc.owns n) calls + (ThreadsafeQueue.nodes s cells).count n ≤ 1 := by
  rw [h.nodes]
  exact Bool.toNat_le _

theorem Inv.tail_not_mem (h : Inv s calls cells) : s.tail ∉ cells.map Prod.fst := by
  intro hmem
  have hle := h.count_le s.tail
  have hpos := List.count_pos_iff.2 hmem
  rw [ThreadsafeQueue.nodes, List.count_append, List.count_singleton_self] at hle
  omega

/-- A node of a call is not one of the queue. -/
theorem Inv.node_not_mem (h : Inv s calls cells) (hc : c ∈ calls) (hn : c.pc.node = some n) :
    n ∉ ThreadsafeQueue.nodes s cells := by
  intro hmem
  obtain ⟨i, hi⟩ := List.mem_iff_getElem?.1 hc
  have hown := Calls.le_total (f := fun c : Call α => c.pc.owns n) hi
  have hle := h.count_le n
  have hpos := List.count_pos_iff.2 hmem
  have hone := Pc.owns_of_node hn
  omega

theorem Inv.tail_ne (h : Inv s calls cells) (hc : c ∈ calls) (hn : c.pc.node = some n) : s.tail ≠ n := by
  intro he
  exact h.node_not_mem hc hn (List.mem_append_right _ (List.mem_singleton.2 he.symm))

/-- A mutex that a call holds is taken. -/
theorem locked_of_holds {f : Call α → ℕ} {mutex : Bool} (htotal : Calls.total f calls = mutex.toNat) (hc : c ∈ calls)
    (hholds : f c = 1) : mutex = true := by
  obtain ⟨i, hi⟩ := List.mem_iff_getElem?.1 hc
  have hle := Calls.le_total (f := f) hi
  cases mutex with
  | true => rfl
  | false =>
    rw [htotal, hholds, Bool.toNat_false] at hle
    omega

theorem Inv.tailMutex_of_holds (h : Inv s calls cells) (hc : c ∈ calls) (hholds : c.pc.holdsTail = 1) :
    s.tailMutex = true := locked_of_holds h.tails hc hholds

theorem Inv.headMutex_of_holds (h : Inv s calls cells) (hc : c ∈ calls) (hholds : c.pc.holdsHead = 1) :
    s.headMutex = true := locked_of_holds h.heads hc hholds

/-- One call moves. It changes no node but its own, those of the queue and a new one;
the last node only with the tail mutex, the first one only with the head mutex. -/
theorem Inv.change (h : Inv s calls cells) (hi : calls[i]? = some c) (hpc : c.pc = pc)
    (hchain : Chain s'.heap s'.tail s'.head cells')
    (hnodes : ∀ n, pc'.owns n + (ThreadsafeQueue.nodes s' cells').count n + (s.heap n).isSome.toNat =
      pc.owns n + (ThreadsafeQueue.nodes s cells).count n + (s'.heap n).isSome.toNat)
    (hheads : pc'.holdsHead + s.headMutex.toNat = pc.holdsHead + s'.headMutex.toNat)
    (htails : pc'.holdsTail + s.tailMutex.toNat = pc.holdsTail + s'.tailMutex.toNat)
    (hidle : s'.tailMutex = false → s'.Has s'.tail fun y => y.next = 0)
    (hfits : (⟨c.op, pc'⟩ : Call α).Fits) (hknows : pc'.Knows s' cells')
    (hheap : ∀ n, s'.heap n = s.heap n ∨ pc.node = some n ∨ n ∈ ThreadsafeQueue.nodes s cells ∨ s.heap n = none)
    (htail : pc.holdsTail = 1 ∨ s.tailMutex = false ∨ s'.tail = s.tail ∧ s'.heap s.tail = s.heap s.tail)
    (hhead : pc.holdsHead = 1 ∨ s.headMutex = false ∨ ∀ e, cells.head? = some e → cells'.head? = some e) :
    Inv s' (calls.set i ⟨c.op, pc'⟩) cells' := by
  subst hpc
  have hset : ∀ f : Call α → ℕ, Calls.total f (calls.set i ⟨c.op, pc'⟩) + f c = Calls.total f calls + f ⟨c.op, pc'⟩ :=
    fun f => Calls.total_set hi
  refine ⟨hchain, fun n => ?_, ?_, ?_, hidle, Calls.forall_mem_set h.fits hfits, fun d hd => ?_⟩
  · have htotal := hset fun c => c.pc.owns n
    have hbefore := h.nodes n
    have hn := hnodes n
    dsimp only at htotal
    omega
  · have htotal := hset fun c => c.pc.holdsHead
    have hbefore := h.heads
    dsimp only at htotal
    omega
  · have htotal := hset fun c => c.pc.holdsTail
    have hbefore := h.tails
    dsimp only at htotal
    omega
  · rcases Calls.mem_set hd with rfl | ⟨j, hji, hj⟩
    · exact hknows
    · have htwo : ∀ f : Call α → ℕ, f c + f d ≤ Calls.total f calls := fun f => Calls.add_le_total hi hj (Ne.symm hji)
      refine (h.knows d (List.mem_of_getElem? hj)).frame (fun n hn => ?_) (fun hholds => ?_) fun hholds => ?_
      · have hle := h.count_le n
        have hboth := htwo fun c => c.pc.owns n
        have hone := Pc.owns_of_node hn
        rcases hheap n with hsame | hmine | hmem | hnone
        · exact hsame
        · have hone' := Pc.owns_of_node hmine
          omega
        · have hpos := List.count_pos_iff.2 hmem
          omega
        · have hzero := h.nodes n
          rw [hnone, Option.isSome_none, Bool.toNat_false] at hzero
          omega
      · have hboth := htwo fun c => c.pc.holdsTail
        have hle := Bool.toNat_le s.tailMutex
        have htotal := h.tails
        rcases htail with hmine | hfree | hsame
        · omega
        · rw [hfree, Bool.toNat_false] at htotal
          omega
        · exact hsame
      · have hboth := htwo fun c => c.pc.holdsHead
        have hle := Bool.toNat_le s.headMutex
        have htotal := h.heads
        rcases hhead with hmine | hfree | hsame
        · omega
        · rw [hfree, Bool.toNat_false] at htotal
          omega
        · exact hsame

/-- The nodes stay as they are. -/
theorem Inv.goto (h : Inv s calls cells) (hi : calls[i]? = some c) (hpc : c.pc = pc) (hheap : s'.heap = s.heap)
    (htail : s'.tail = s.tail) (hhead : s'.head = s.head) (hnode : pc'.node = pc.node)
    (hheads : pc'.holdsHead + s.headMutex.toNat = pc.holdsHead + s'.headMutex.toNat)
    (htails : pc'.holdsTail + s.tailMutex.toNat = pc.holdsTail + s'.tailMutex.toNat)
    (hidle : s'.tailMutex = false → s.Has s.tail fun y => y.next = 0)
    (hfits : (⟨c.op, pc'⟩ : Call α).Fits) (hknows : pc'.Knows s' cells) :
    Inv s' (calls.set i ⟨c.op, pc'⟩) cells := by
  refine h.change hi hpc ?_ (fun n => ?_) hheads htails (fun hfree => ?_) hfits hknows (fun n => .inl (by rw [hheap]))
    (.inr (.inr ⟨htail, by rw [hheap]⟩)) (.inr (.inr fun e he => he))
  · rw [hheap, htail, hhead]
    exact h.chain
  · rw [Pc.owns, hnode, ThreadsafeQueue.nodes, htail, hheap]
    rfl
  · rw [htail]
    exact (hidle hfree).mono (by rw [hheap]) fun y hy => hy

/-- A push, with the tail mutex, writes into its node or into the last one. -/
theorem Inv.write (h : Inv s calls cells) (hi : calls[i]? = some c) (hpc : c.pc = pc) {x x' : Node α}
    (hn : s.heap n = some x)
    (hmine : pc.node = some n ∨ n = s.tail ∧ x'.prev = x.prev) (hholds : pc.holdsTail = 1)
    (hholds' : pc'.holdsTail = 1) (hnode : pc'.node = pc.node) (hheads : pc'.holdsHead = pc.holdsHead)
    (hfits : (⟨c.op, pc'⟩ : Call α).Fits) (hknows : pc'.Knows (s.write n x') cells) :
    Inv (s.write n x') (calls.set i ⟨c.op, pc'⟩) cells := by
  subst hpc
  have hmem := List.mem_of_getElem? hi
  have hlocked := h.tailMutex_of_holds hmem hholds
  have hother : ∀ m, m ≠ n → (s.write n x').heap m = s.heap m := fun m hm => Function.update_of_ne hm _ _
  have hself : (s.write n x').heap n = some x' := Function.update_self ..
  have hnot : n ∉ cells.map Prod.fst := by
    rcases hmine with hnode' | ⟨rfl, -⟩
    · exact fun hm => h.node_not_mem hmem hnode' (List.mem_append_left _ hm)
    · exact h.tail_not_mem
  refine h.change hi rfl (h.chain.congr (fun m hm => hother m fun he => hnot (he ▸ hm)) fun y hy => ?_) (fun m => ?_)
    (by rw [hheads]; rfl) (by rw [hholds, hholds']; rfl) (fun hfree => ?_) hfits hknows (fun m => ?_) (.inl hholds)
    (.inr (.inr fun e he => he))
  · show ∃ y', (s.write n x').heap s.tail = some y' ∧ y'.prev = y.prev
    by_cases htail : s.tail = n
    · rw [htail] at hy ⊢
      rw [hy] at hn
      cases hn
      refine ⟨x', hself, ?_⟩
      rcases hmine with hnode' | ⟨-, hprev⟩
      · exact absurd (List.mem_append_right _ (List.mem_singleton.2 htail.symm)) (h.node_not_mem hmem hnode')
      · exact hprev
    · rw [hother _ htail]
      exact ⟨y, hy, rfl⟩
  · have hsome : ((s.write n x').heap m).isSome = (s.heap m).isSome := by
      by_cases hm : m = n
      · rw [hm, hself, hn]
        rfl
      · rw [hother m hm]
    rw [Pc.owns, hnode, hsome]
    rfl
  · rw [show (s.write n x').tailMutex = s.tailMutex from rfl, hlocked] at hfree
    cases hfree
  · by_cases hm : m = n
    · rcases hmine with hnode' | ⟨he, -⟩
      · exact .inr (.inl (hm ▸ hnode'))
      · exact .inr (.inr (.inl (List.mem_append_right _ (List.mem_singleton.2 (hm.trans he)))))
    · exact .inl (hother m hm)

/-! ## One move -/

theorem Inv.head_eq_tail (h : Inv s calls cells) : s.head = s.tail ↔ cells = [] := by
  have hchain := h.chain
  cases cells with
  | nil => exact iff_of_true hchain rfl
  | cons e cells =>
    obtain ⟨hhead, -⟩ := hchain
    refine iff_of_false (fun hsame => h.tail_not_mem ?_) (by simp)
    rw [← hsame, hhead]
    exact List.mem_cons_self

theorem Inv.fresh (h : Inv s calls cells) (hn : s.heap n = none) : n ∉ ThreadsafeQueue.nodes s cells := by
  intro hmem
  have hzero := h.nodes n
  have hpos := List.count_pos_iff.2 hmem
  rw [hn, Option.isSome_none, Bool.toNat_false] at hzero
  omega

/-- The chain after a change elsewhere. -/
theorem Inv.chain_update (h : Inv s calls cells) (hn : n ∉ ThreadsafeQueue.nodes s cells) (x : Option (Node α)) :
    Chain (Function.update s.heap n x) s.tail s.head cells := by
  have hother : ∀ m ∈ ThreadsafeQueue.nodes s cells, Function.update s.heap n x m = s.heap m := by
    intro m hm
    exact Function.update_of_ne (fun he : m = n => hn (he ▸ hm)) _ _
  refine h.chain.congr (fun m hm => hother m (List.mem_append_left _ hm)) fun y hy => ?_
  rw [hother _ (List.mem_append_right _ (List.mem_singleton.2 rfl))]
  exact ⟨y, hy, rfl⟩

theorem Inv.alloc (h : Inv s calls cells) (hi : calls[i]? = some c) (hpc : c.pc = .start) {value : α}
    (hop : c.op = .push value) (hn : s.heap n = none) :
    Inv (s.write n ⟨none, 0, none⟩) (calls.set i ⟨c.op, .lockTail value n⟩) cells := by
  have hfresh := h.fresh hn
  have hother : ∀ m, m ≠ n → (s.write n ⟨none, 0, none⟩).heap m = s.heap m := fun m hm => Function.update_of_ne hm _ _
  have hself : (s.write n ⟨none, 0, none⟩).heap n = some ⟨none, 0, none⟩ := Function.update_self ..
  have htail : s.tail ≠ n := by
    intro he
    exact hfresh (List.mem_append_right _ (List.mem_singleton.2 he.symm))
  refine h.change hi hpc (h.chain_update hfresh _) (fun m => ?_) rfl rfl (fun hfree => ?_) hop
    ⟨_, hself, rfl⟩ (fun m => ?_) (.inr (.inr ⟨rfl, hother _ htail⟩)) (.inr (.inr fun e he => he))
  · by_cases hm : m = n
    · rw [hm, hself, hn]
      simp [Pc.owns, Pc.node, ThreadsafeQueue.nodes, Queue.write, Nat.add_comm]
    · rw [hother m hm]
      simp [Pc.owns, Pc.node, ThreadsafeQueue.nodes, Queue.write, Ne.symm hm]
  · exact (h.idle hfree).mono (hother _ htail) fun y hy => hy
  · by_cases hm : m = n
    · exact .inr (.inr (.inr (hm ▸ hn)))
    · exact .inl (hother m hm)

/-- A push moves the tail: its value is in the queue. -/
theorem Inv.setTail (h : Inv s calls cells) (hi : calls[i]? = some c) {value : α} (hpc : c.pc = .setTail value n) :
    Inv { s with tail := n } (calls.set i ⟨c.op, .unlockTail⟩) (cells ++ [(s.tail, value)]) := by
  have hmem := List.mem_of_getElem? hi
  have hknows := h.knows c hmem
  rw [hpc] at hknows
  obtain ⟨⟨x, hx, hxnext, hprev⟩, y, hy, hynext, hdata⟩ := hknows
  have hlocked := h.tailMutex_of_holds hmem (by rw [hpc]; rfl)
  refine h.change hi hpc ?_ (fun m => ?_) rfl rfl (fun hfree => ?_) trivial ⟨x, hx, hxnext⟩
    (fun m => .inl rfl) (.inl rfl) (.inr (.inr fun e he => ?_))
  · have hconcat := h.chain.concat hy hdata (by rw [hynext]; exact hx) hprev
    rw [hynext] at hconcat
    exact hconcat
  · simp [Pc.owns, Pc.node, ThreadsafeQueue.nodes, List.count_cons, List.count_append]
    omega
  · have hfree' : s.tailMutex = false := hfree
    rw [hlocked] at hfree'
    cases hfree'
  · cases cells with
    | nil => cases he
    | cons d cells => exact he

/-- The first node goes to the pop, or is destroyed. -/
theorem Inv.takeHead (h : Inv s calls cells) (hi : calls[i]? = some c) {value : α} (hpc : c.pc = .moveHead value)
    {x : Node α} (hx : s.heap s.head = some x) (left : Option (Node α)) (hleft : ∀ z, left = some z → z.next = 0) :
    ∃ rest, cells = (s.head, value) :: rest ∧ Inv { s with heap := Function.update s.heap s.head left, head := x.next }
      (calls.set i ⟨c.op, .unlockHead (.item value) (left.map fun _ => s.head)⟩) rest := by
  have hknows := h.knows c (List.mem_of_getElem? hi)
  rw [hpc] at hknows
  obtain ⟨n, hhead⟩ := hknows
  obtain ⟨rest, rfl⟩ := List.head?_eq_some_iff.1 hhead
  obtain ⟨rfl, x', hx', -, -, hrest⟩ := h.chain
  rw [hx] at hx'
  cases hx'
  have hle := h.count_le s.head
  rw [ThreadsafeQueue.nodes, List.map_cons, List.cons_append, List.count_cons_self] at hle
  have hnot : s.head ∉ rest.map Prod.fst ++ [s.tail] := List.count_eq_zero.1 (by omega)
  have hother : ∀ m ∈ rest.map Prod.fst ++ [s.tail], Function.update s.heap s.head left m = s.heap m := by
    intro m hm
    exact Function.update_of_ne (fun he : m = s.head => hnot (he ▸ hm)) _ _
  have htail := hother s.tail (List.mem_append_right _ (List.mem_singleton.2 rfl))
  refine ⟨rest, rfl, h.change hi hpc ?_ (fun m => ?_) rfl rfl (fun hfree => ?_) trivial ?_
    (fun m => ?_) (.inr (.inr ⟨rfl, htail⟩)) (.inl rfl)⟩
  · refine hrest.congr (fun m hm => hother m (List.mem_append_left _ hm)) fun y hy => ?_
    exact ⟨y, htail.trans hy, rfl⟩
  · by_cases hm : m = s.head
    · rw [hm]
      show _ + _ + _ = _ + _ + (Function.update s.heap s.head left s.head).isSome.toNat
      rw [Function.update_self, hx]
      cases left with
      | none => simp [Pc.owns, Pc.node, ThreadsafeQueue.nodes]
      | some z =>
        simp [Pc.owns, Pc.node, ThreadsafeQueue.nodes]
        omega
    · show _ + _ + _ = _ + _ + (Function.update s.heap s.head left m).isSome.toNat
      rw [Function.update_of_ne hm]
      cases left with
      | none => simp [Pc.owns, Pc.node, ThreadsafeQueue.nodes, List.count_cons, Ne.symm hm]
      | some z => simp [Pc.owns, Pc.node, ThreadsafeQueue.nodes, List.count_cons, Ne.symm hm]
  · exact (h.idle hfree).mono htail fun y hy => hy
  · cases left with
    | none => trivial
    | some z => exact ⟨z, Function.update_self .., hleft z rfl⟩
  · by_cases hm : m = s.head
    · exact .inr (.inr (.inl (hm ▸ List.mem_cons_self)))
    · exact .inl (Function.update_of_ne hm _ _)

/-- A pop destroys the node it took out. -/
theorem Inv.destroy (h : Inv s calls cells) (hi : calls[i]? = some c) {answer : Answer α}
    (hpc : c.pc = .destroy n answer) : Inv (s.free n) (calls.set i ⟨c.op, .returned answer⟩) cells := by
  have hmem := List.mem_of_getElem? hi
  have hknows := h.knows c hmem
  rw [hpc] at hknows
  obtain ⟨x, hx, -⟩ := hknows
  have hmine : c.pc.node = some n := by rw [hpc]; rfl
  have hnot := h.node_not_mem hmem hmine
  have hother : ∀ m, m ≠ n → (s.free n).heap m = s.heap m := fun m hm => Function.update_of_ne hm _ _
  have hself : (s.free n).heap n = none := Function.update_self ..
  have htail := h.tail_ne hmem hmine
  refine h.change hi hpc (h.chain_update hnot _) (fun m => ?_) rfl rfl (fun hfree => ?_)
    trivial trivial (fun m => ?_) (.inr (.inr ⟨rfl, hother _ htail⟩)) (.inr (.inr fun e he => he))
  · by_cases hm : m = n
    · rw [hm, hself, hx]
      simp [Pc.owns, Pc.node, ThreadsafeQueue.nodes, Queue.free, Nat.add_comm]
    · rw [hother m hm]
      simp [Pc.owns, Pc.node, ThreadsafeQueue.nodes, Queue.free, Ne.symm hm]
  · exact (h.idle hfree).mono (hother _ htail) fun y hy => hy
  · by_cases hm : m = n
    · exact .inr (.inl (hm ▸ rfl))
    · exact .inl (hother m hm)

/-- `try_steal` makes the last node with a value the dummy, and destroys the old one. -/
theorem Inv.steal (h : Inv s calls cells) (hi : calls[i]? = some c) (hpc : c.pc = .start) {l : List (ℕ × α)} {p : ℕ}
    {value : α} (hcells : cells = l ++ [(p, value)]) {x : Node α} (hx : s.heap p = some x)
    (hfreeHead : s.headMutex = false) (hfreeTail : s.tailMutex = false) :
    Inv { (s.write p { x with next := 0 }).free s.tail with tail := p }
      (calls.set i ⟨c.op, .returned (.item value)⟩) l := by
  subst hcells
  obtain ⟨hchain, -, y, hy, -⟩ := h.chain.last
  have hlep := h.count_le p
  have hlet := h.count_le s.tail
  simp only [ThreadsafeQueue.nodes, List.map_append, List.map_cons, List.map_nil, List.count_append,
    List.count_singleton_self] at hlep hlet
  have hpt : p ≠ s.tail := by
    intro he
    rw [he, List.count_singleton_self] at hlet
    omega
  have hp : p ∉ l.map Prod.fst := List.count_eq_zero.1 (by omega)
  have ht : s.tail ∉ l.map Prod.fst := List.count_eq_zero.1 (by omega)
  have hheap : ∀ m, m ≠ p → m ≠ s.tail →
      Function.update (Function.update s.heap p (some { x with next := 0 })) s.tail none m = s.heap m := by
    intro m hmp hmt
    rw [Function.update_of_ne hmt, Function.update_of_ne hmp]
  have hself : Function.update (Function.update s.heap p (some { x with next := 0 })) s.tail none p =
      some { x with next := 0 } := by
    rw [Function.update_of_ne hpt, Function.update_self]
  refine h.change hi hpc ?_ (fun m => ?_) rfl rfl (fun _ => ⟨_, hself, rfl⟩) trivial trivial
    (fun m => ?_) (.inr (.inl hfreeTail)) (.inr (.inl hfreeHead))
  · refine hchain.congr (fun m hm => hheap m (fun he => hp (he ▸ hm)) fun he => ht (he ▸ hm)) fun z hz => ?_
    rw [hx] at hz
    cases hz
    exact ⟨_, hself, rfl⟩
  · show _ + _ + _ = _ + _ +
      (Function.update (Function.update s.heap p (some { x with next := 0 })) s.tail none m).isSome.toNat
    by_cases hmt : m = s.tail
    · rw [hmt, Function.update_self, hy]
      simp [Pc.owns, Pc.node, ThreadsafeQueue.nodes, List.count_append, hpt]
    · by_cases hmp : m = p
      · rw [hmp, hself, hx]
        simp [Pc.owns, Pc.node, ThreadsafeQueue.nodes, List.count_append, Ne.symm hpt]
      · rw [hheap m hmp hmt]
        simp [Pc.owns, Pc.node, ThreadsafeQueue.nodes, List.count_append, List.count_cons, Ne.symm hmt]
  · by_cases hmt : m = s.tail
    · exact .inr (.inr (.inl (List.mem_append_right _ (List.mem_singleton.2 hmt))))
    · by_cases hmp : m = p
      · exact .inr (.inr (.inl (by rw [hmp]; simp [ThreadsafeQueue.nodes])))
      · exact .inl (hheap m hmp hmt)

/-- The three writes of a push before it moves the tail. -/
theorem Inv.setData (h : Inv s calls cells) (hi : calls[i]? = some c) {value : α} (hpc : c.pc = .setData value n)
    {y : Node α} (hy : s.heap s.tail = some y) :
    Inv (s.write s.tail { y with data := some value }) (calls.set i ⟨c.op, .setPrev value n⟩) cells := by
  have hmem := List.mem_of_getElem? hi
  have hfits := h.fits c hmem
  have hknows := h.knows c hmem
  unfold Call.Fits at hfits
  rw [hpc] at hfits hknows
  obtain ⟨hn, y', hy', hend⟩ := hknows
  rw [hy] at hy'
  cases hy'
  have hne := h.tail_ne hmem (n := n) (by rw [hpc]; rfl)
  refine h.write hi hpc hy (.inr ⟨rfl, rfl⟩) rfl rfl rfl rfl hfits ⟨?_, ?_⟩
  · exact hn.mono (Function.update_of_ne hne.symm _ _) fun x hx => hx
  · exact ⟨_, Function.update_self .., hend, rfl⟩

theorem Inv.setPrev (h : Inv s calls cells) (hi : calls[i]? = some c) {value : α} (hpc : c.pc = .setPrev value n)
    {x : Node α} (hx : s.heap n = some x) :
    Inv (s.write n { x with prev := some s.tail }) (calls.set i ⟨c.op, .setNext value n⟩) cells := by
  have hmem := List.mem_of_getElem? hi
  have hfits := h.fits c hmem
  have hknows := h.knows c hmem
  unfold Call.Fits at hfits
  rw [hpc] at hfits hknows
  obtain ⟨⟨x', hx', hend⟩, hlast⟩ := hknows
  rw [hx] at hx'
  cases hx'
  have hmine : c.pc.node = some n := by rw [hpc]; rfl
  have hne := h.tail_ne hmem hmine
  refine h.write hi hpc hx (.inl rfl) rfl rfl rfl rfl hfits ⟨?_, ?_⟩
  · exact ⟨_, Function.update_self .., hend, rfl⟩
  · exact hlast.mono (Function.update_of_ne hne _ _) fun y hy => hy

theorem Inv.setNext (h : Inv s calls cells) (hi : calls[i]? = some c) {value : α} (hpc : c.pc = .setNext value n)
    {y : Node α} (hy : s.heap s.tail = some y) :
    Inv (s.write s.tail { y with next := n }) (calls.set i ⟨c.op, .setTail value n⟩) cells := by
  have hmem := List.mem_of_getElem? hi
  have hfits := h.fits c hmem
  have hknows := h.knows c hmem
  unfold Call.Fits at hfits
  rw [hpc] at hfits hknows
  obtain ⟨hn, y', hy', -, hdata⟩ := hknows
  rw [hy] at hy'
  cases hy'
  have hne := h.tail_ne hmem (n := n) (by rw [hpc]; rfl)
  refine h.write hi hpc hy (.inr ⟨rfl, rfl⟩) rfl rfl rfl rfl hfits ⟨?_, ?_⟩
  · exact hn.mono (Function.update_of_ne hne.symm _ _) fun x hx => hx
  · exact ⟨_, Function.update_self .., rfl, hdata⟩

/-- What a move of a call does to the sequence. -/
def Takes (s' : Queue α) (calls : List (Call α)) (i : ℕ) (items : List α) (c : Call α) (pc' : Pc α) : Prop :=
  (pc'.effect = c.pc.effect ∧ ∃ cells, cells.map Prod.snd = items ∧ Inv s' (calls.set i ⟨c.op, pc'⟩) cells) ∨
    (c.pc.effect = none ∧ ∃ answer cells, pc'.effect = some answer ∧ Spec c.op items answer (cells.map Prod.snd) ∧
      Inv s' (calls.set i ⟨c.op, pc'⟩) cells)

/-- A move that is not where the call takes effect. -/
theorem Inv.quiet (hpc : c.pc = pc) (h : Inv s' (calls.set i ⟨c.op, pc'⟩) cells) (heffect : pc'.effect = pc.effect) :
    Takes s' calls i (cells.map Prod.snd) c pc' :=
  .inl ⟨by rw [hpc, heffect], cells, rfl, h⟩

theorem onNode_eq {f : Node α → Option (Pc α × Queue α)} {x : Node α} (hx : s.heap n = some x) :
    s.onNode n f = f x := by
  rw [Queue.onNode, hx]

theorem Inv.trySteal (h : Inv s calls cells) (hi : calls[i]? = some c) (hpc : c.pc = .start) (hop : c.op = .trySteal)
    (hm : s.trySteal = some (pc', s')) : Takes s' calls i (cells.map Prod.snd) c pc' := by
  unfold Queue.trySteal at hm
  split at hm
  · cases hm
  rename_i hfree
  rw [not_or] at hfree
  have hfreeHead := Bool.eq_false_iff.2 hfree.1
  have hfreeTail := Bool.eq_false_iff.2 hfree.2
  split at hm
  · rename_i hempty
    cases hm
    have hnil := h.head_eq_tail.1 hempty
    subst hnil
    refine .inr ⟨by rw [hpc]; rfl, .empty, [], rfl, by rw [hop]; exact .tryStealEmpty, ?_⟩
    exact h.goto hi hpc rfl rfl rfl rfl rfl rfl h.idle trivial trivial
  · rename_i hsome
    obtain hnil | ⟨l, ⟨p, value⟩, hcells⟩ := List.eq_nil_or_concat cells
    · exact absurd (h.head_eq_tail.2 hnil) hsome
    · rw [List.concat_eq_append] at hcells
      subst hcells
      obtain ⟨-, ⟨x, hx, hdata, hnext⟩, y, hy, hprev⟩ := h.chain.last
      obtain ⟨y', hy', hend⟩ := h.idle hfreeTail
      rw [hy] at hy'
      cases hy'
      obtain ⟨data, next, prev⟩ := x
      have hvalue : data = some value := hdata
      subst hvalue
      rw [onNode_eq hy, hprev] at hm
      dsimp only at hm
      rw [onNode_eq hx] at hm
      dsimp only at hm
      rw [if_pos ⟨hnext, hend⟩] at hm
      cases hm
      refine .inr ⟨by rw [hpc]; rfl, .item value, l, rfl, ?_, h.steal hi hpc rfl hx hfreeHead hfreeTail⟩
      rw [hop, List.map_append]
      exact .trySteal value _

theorem Inv.testEmpty (h : Inv s calls cells) (hi : calls[i]? = some c) {timeout : Bool} (hpc : c.pc = .test timeout)
    (hempty : s.head = s.tail) (hm : s.testEmpty timeout c.op = some (pc', s')) :
    Takes s' calls i (cells.map Prod.snd) c pc' := by
  have hmem := List.mem_of_getElem? hi
  have hfits := h.fits c hmem
  unfold Call.Fits at hfits
  rw [hpc] at hfits
  have hnil := h.head_eq_tail.1 hempty
  subst hnil
  have hlocked := h.headMutex_of_holds hmem (by rw [hpc]; rfl)
  have hsleep : Inv { s with headMutex := false } (calls.set i ⟨c.op, .asleep⟩) [] :=
    h.goto hi hpc rfl rfl rfl rfl (by rw [hlocked]; rfl) rfl h.idle hfits trivial
  have hleave : Inv s (calls.set i ⟨c.op, .unlockHead .empty none⟩) [] :=
    h.goto hi hpc rfl rfl rfl rfl rfl rfl h.idle trivial trivial
  rcases hfits with hop | hop | hop
  · rw [hop] at hm
    cases hm
    exact .inr ⟨by rw [hpc]; rfl, .empty, [], rfl, by rw [hop]; exact .tryPopEmpty, hleave⟩
  · rw [hop] at hm
    cases hm
    exact Inv.quiet hpc hsleep rfl
  · rw [hop] at hm
    unfold Queue.testEmpty at hm
    dsimp only at hm
    split at hm
    · cases hm
      exact .inr ⟨by rw [hpc]; rfl, .empty, [], rfl, by rw [hop]; exact .waitAndPopTimeoutEmpty, hleave⟩
    · cases hm
      exact Inv.quiet hpc hsleep rfl

theorem Inv.moveHead (h : Inv s calls cells) (hi : calls[i]? = some c) {value : α} (hpc : c.pc = .moveHead value)
    (hm : s.moveHead value c.op = some (pc', s')) : Takes s' calls i (cells.map Prod.snd) c pc' := by
  have hmem := List.mem_of_getElem? hi
  have hfits := h.fits c hmem
  have hknows := h.knows c hmem
  unfold Call.Fits at hfits
  rw [hpc] at hfits hknows
  obtain ⟨n, hfirst⟩ := hknows
  obtain ⟨x, hx⟩ : ∃ x, s.heap s.head = some x := by
    obtain ⟨rest, rfl⟩ := List.head?_eq_some_iff.1 hfirst
    obtain ⟨hhead, x, hx, -⟩ := h.chain
    exact ⟨x, by rw [hhead]; exact hx⟩
  have hnone : c.pc.effect = none := by rw [hpc]; rfl
  have hkeep := h.takeHead hi hpc hx (some { x with next := 0 }) (by rintro z ⟨⟩; rfl)
  have hfree := h.takeHead hi hpc hx none (by rintro z ⟨⟩)
  obtain ⟨rest, rfl, hkeep⟩ := hkeep
  rcases hfits with hop | hop | hop
  · rw [hop, Queue.moveHead, onNode_eq hx] at hm
    cases hm
    exact .inr ⟨hnone, .item value, rest, rfl, by rw [hop]; exact .tryPop value _, hkeep⟩
  · rw [hop, Queue.moveHead, onNode_eq hx] at hm
    cases hm
    exact .inr ⟨hnone, .item value, rest, rfl, by rw [hop]; exact .waitAndPop value _, hkeep⟩
  · obtain ⟨rest', hrest, hfree⟩ := hfree
    cases hrest
    rw [hop, Queue.moveHead, onNode_eq hx] at hm
    cases hm
    exact .inr ⟨hnone, .item value, rest, rfl, by rw [hop]; exact .waitAndPopTimeout value _, hfree⟩

/-- Every move of a call keeps the queue in order, and is the one that takes effect or
leaves the sequence alone. -/
theorem move_takes (h : Inv s calls cells) (hi : calls[i]? = some c) {input : Input}
    (hm : s.move c.op input c.pc = some (pc', s')) : Takes s' calls i (cells.map Prod.snd) c pc' := by
  have hmem := List.mem_of_getElem? hi
  have hfits := h.fits c hmem
  have hknows := h.knows c hmem
  unfold Call.Fits at hfits
  unfold Queue.move at hm
  cases hpc : c.pc with
  | start =>
    rw [hpc] at hm
    dsimp only at hm
    cases hop : c.op with
    | push value =>
      rw [hop] at hm
      dsimp only at hm
      unfold Queue.alloc at hm
      split at hm
      · rename_i hfree
        cases hm
        exact Inv.quiet hpc (h.alloc hi hpc hop hfree.2) rfl
      · cases hm
    | trySteal =>
      rw [hop] at hm
      exact h.trySteal hi hpc hop hm
    | tryPop | waitAndPop | waitAndPopTimeout =>
      rw [hop] at hm
      cases hm
      refine Inv.quiet hpc (h.goto hi hpc rfl rfl rfl rfl rfl rfl h.idle ?_ trivial) rfl
      simp [Call.Fits, hop]
  | lockTail value n =>
    rw [hpc] at hm hfits hknows
    dsimp only at hm
    split at hm
    · cases hm
    · rename_i hfree
      cases hm
      have hidle := h.idle (Bool.eq_false_iff.2 hfree)
      refine Inv.quiet hpc (h.goto hi hpc rfl rfl rfl rfl rfl ?_ (fun hfree => (by cases hfree)) hfits ⟨hknows, hidle⟩)
        rfl
      rw [Bool.eq_false_iff.2 hfree]
      rfl
  | setData value n =>
    rw [hpc] at hm hknows
    obtain ⟨-, y, hy, -⟩ := hknows
    dsimp only at hm
    rw [onNode_eq hy] at hm
    cases hm
    exact Inv.quiet hpc (h.setData hi hpc hy) rfl
  | setPrev value n =>
    rw [hpc] at hm hknows
    obtain ⟨⟨x, hx, -⟩, -⟩ := hknows
    dsimp only at hm
    rw [onNode_eq hx] at hm
    cases hm
    exact Inv.quiet hpc (h.setPrev hi hpc hx) rfl
  | setNext value n =>
    rw [hpc] at hm hknows
    obtain ⟨-, y, hy, hend, -⟩ := hknows
    dsimp only at hm
    rw [onNode_eq hy, if_pos hend] at hm
    cases hm
    exact Inv.quiet hpc (h.setNext hi hpc hy) rfl
  | setTail value n =>
    rw [hpc] at hm hfits
    cases hm
    refine .inr ⟨by rw [hpc]; rfl, .done, _, rfl, ?_, h.setTail hi hpc⟩
    rw [hfits, List.map_append]
    exact .push value _
  | unlockTail =>
    rw [hpc] at hm hknows
    cases hm
    have hlocked := h.tailMutex_of_holds hmem (by rw [hpc]; rfl)
    refine Inv.quiet hpc (h.goto hi hpc rfl rfl rfl rfl rfl ?_ (fun _ => hknows) trivial trivial) rfl
    rw [hlocked]
    rfl
  | lockHead timeout =>
    rw [hpc] at hm hfits
    dsimp only at hm
    split at hm
    · cases hm
    · rename_i hfree
      cases hm
      refine Inv.quiet hpc (h.goto hi hpc rfl rfl rfl rfl ?_ rfl h.idle hfits trivial) rfl
      rw [Bool.eq_false_iff.2 hfree]
      rfl
  | test timeout =>
    rw [hpc] at hm hfits
    dsimp only at hm
    split at hm
    · cases hm
    split at hm
    · rename_i hempty
      exact h.testEmpty hi hpc hempty hm
    · rename_i hsome
      cases hm
      refine Inv.quiet hpc (h.goto hi hpc rfl rfl rfl rfl rfl rfl h.idle hfits ?_) rfl
      cases hcells : cells with
      | nil => exact absurd (h.head_eq_tail.2 hcells) hsome
      | cons e rest => exact ⟨e, rfl⟩
  | asleep =>
    rw [hpc] at hm hfits
    cases hm
    exact Inv.quiet hpc (h.goto hi hpc rfl rfl rfl rfl rfl rfl h.idle hfits trivial) rfl
  | value =>
    rw [hpc] at hm hfits hknows
    obtain ⟨⟨n, v⟩, hfirst⟩ := hknows
    obtain ⟨rest, rfl⟩ := List.head?_eq_some_iff.1 hfirst
    obtain ⟨hhead, x, hx, hdata, -⟩ := h.chain
    dsimp only at hm
    rw [onNode_eq (by rw [hhead]; exact hx), hdata] at hm
    cases hm
    exact Inv.quiet hpc (h.goto hi hpc rfl rfl rfl rfl rfl rfl h.idle hfits ⟨n, hfirst⟩) rfl
  | moveHead value =>
    rw [hpc] at hm
    exact h.moveHead hi hpc hm
  | unlockHead answer old =>
    rw [hpc] at hm hknows
    have hlocked := h.headMutex_of_holds hmem (by rw [hpc]; rfl)
    cases old with
    | none =>
      cases hm
      refine Inv.quiet hpc (h.goto hi hpc rfl rfl rfl rfl ?_ rfl h.idle trivial trivial) rfl
      rw [hlocked]
      rfl
    | some n =>
      cases hm
      refine Inv.quiet hpc (h.goto hi hpc rfl rfl rfl rfl ?_ rfl h.idle trivial hknows) rfl
      rw [hlocked]
      rfl
  | destroy n answer =>
    rw [hpc] at hm hknows
    obtain ⟨x, hx, hnext⟩ := hknows
    dsimp only at hm
    rw [onNode_eq hx, if_pos hnext] at hm
    cases hm
    exact Inv.quiet hpc (h.destroy hi hpc) rfl
  | returned answer =>
    rw [hpc] at hm
    cases hm
  | undefined =>
    rw [hpc] at hm
    cases hm

/-- Before its first access to the queue, or back. -/
def Pc.Quiet : Pc α → Prop
  | .start | .returned _ => True
  | .lockTail .. | .setData .. | .setPrev .. | .setNext .. | .setTail .. | .unlockTail | .lockHead _ | .test _ | .asleep
  | .value | .moveHead _ | .unlockHead .. | .destroy .. | .undefined => False

theorem Pc.Quiet.nothing (h : pc.Quiet) : (∀ n, pc.owns n = 0) ∧ pc.holdsHead = 0 ∧ pc.holdsTail = 0 := by
  cases pc with
  | start | returned _ => exact ⟨fun n => rfl, rfl, rfl⟩
  | _ => exact h.elim

theorem Pc.Quiet.knows (h : pc.Quiet) : pc.Knows s cells := by
  cases pc with
  | start | returned _ => trivial
  | _ => exact h.elim

theorem Pc.Quiet.fits (h : c.pc.Quiet) : c.Fits := by
  unfold Call.Fits
  cases hpc : c.pc with
  | start | returned _ => trivial
  | _ =>
    rw [hpc] at h
    exact h.elim

/-- Such a call has nothing of the queue: another one may take its place. -/
theorem Inv.replace (h : Inv s calls cells) (hi : calls[i]? = some c) (hc : c.pc.Quiet) {d : Call α} (hd : d.pc.Quiet) :
    Inv s (calls.set i d) cells := by
  obtain ⟨howns, hhead, htail⟩ := hc.nothing
  obtain ⟨howns', hhead', htail'⟩ := hd.nothing
  refine ⟨h.chain, fun n => ?_, ?_, ?_, h.idle, Calls.forall_mem_set h.fits hd.fits,
    Calls.forall_mem_set h.knows hd.knows⟩
  · rw [Calls.total_set_same hi ((howns' n).trans (howns n).symm)]
    exact h.nodes n
  · rw [Calls.total_set_same hi (hhead'.trans hhead.symm)]
    exact h.heads
  · rw [Calls.total_set_same hi (htail'.trans htail.symm)]
    exact h.tails

/-- So may another one be added. -/
theorem Inv.add (h : Inv s calls cells) {d : Call α} (hd : d.pc.Quiet) : Inv s (calls ++ [d]) cells := by
  obtain ⟨howns, hhead, htail⟩ := hd.nothing
  have hconcat : ∀ f : Call α → ℕ, f d = 0 → Calls.total f (calls ++ [d]) = Calls.total f calls :=
    fun f hf => by rw [Calls.total_concat, hf, Nat.add_zero]
  refine ⟨h.chain, fun n => ?_, ?_, ?_, h.idle, fun c hc => ?_, fun c hc => ?_⟩
  · rw [hconcat _ (howns n)]
    exact h.nodes n
  · rw [hconcat _ hhead]
    exact h.heads
  · rw [hconcat _ htail]
    exact h.tails
  · rcases List.mem_append.1 hc with hc | hc
    · exact h.fits c hc
    · rw [List.mem_singleton.1 hc]
      exact hd.fits
  · rcases List.mem_append.1 hc with hc | hc
    · exact h.knows c hc
    · rw [List.mem_singleton.1 hc]
      exact hd.knows

/-! ## Runs -/

theorem init_inv (h : ∀ d ∈ calls, d.pc.Quiet) : Inv (init : Queue α) calls [] := by
  refine ⟨rfl, fun n => ?_, ?_, ?_, fun _ => ⟨_, rfl, rfl⟩, fun d hd => (h d hd).fits, fun d hd => (h d hd).knows⟩
  · rw [Calls.total_eq_zero fun d hd => (h d hd).nothing.1 n]
    by_cases hn : n = 1
    · subst hn
      rfl
    · simp [init, ThreadsafeQueue.nodes, hn, Ne.symm hn]
  · exact Calls.total_eq_zero fun d hd => (h d hd).nothing.2.1
  · exact Calls.total_eq_zero fun d hd => (h d hd).nothing.2.2

/-- What the queue has in it, from its front to its back. -/
def Represents (s : Queue α) (items : List α) : Prop :=
  ∃ cells, Chain s.heap s.tail s.head cells ∧ cells.map Prod.snd = items

theorem queue_atomic : Calls.Atomic (program (α := α)) view Spec
    fun s calls items => ∃ cells, cells.map Prod.snd = items ∧ Inv s calls cells := by
  refine ⟨fun op => ⟨rfl, rfl⟩, fun {c r} hr => ?_, fun {s calls items op} h => ?_,
    fun {_ _ _ _ _ input _ _} h hi hm => ?_⟩
  · show c.pc.effect = some r
    have hr' : c.pc.answer = some r := hr
    cases hpc : c.pc <;> rw [hpc] at hr' <;> first | exact hr' | cases hr'
  · obtain ⟨cells, hitems, hinv⟩ := h
    exact ⟨cells, hitems, hinv.add trivial⟩
  · obtain ⟨cells, rfl, hinv⟩ := h
    obtain ⟨⟨pc', s'⟩, hmove, he⟩ := Option.map_eq_some_iff.1 hm
    cases he
    refine ⟨rfl, ?_⟩
    rcases move_takes hinv hi hmove with ⟨heffect, hcells⟩ | ⟨hnone, answer, cells', heffect, hspec, hinv'⟩
    · exact .inl ⟨heffect, hcells⟩
    · exact .inr ⟨hnone, answer, _, heffect, hspec, cells', rfl, hinv'⟩

theorem Inv.defined (h : Inv s calls cells) (hc : c ∈ calls) : c.pc ≠ .undefined := by
  intro hpc
  have hknows := h.knows c hc
  rw [hpc] at hknows
  exact hknows

/-- **A run on a queue is a sequence, used by one call after the other.** No call uses
a node that is not there. -/
theorem queue_linearized {events : List (Calls.Event (Op α) Input)} {t : Calls (Queue α) (Call α)}
    (ht : Run.run program.step ⟨init, []⟩ events = some t) :
    ∃ log items, Represents t.shared items ∧ (∀ c ∈ t.calls, c.pc ≠ .undefined) ∧
      Calls.Linearized program view Spec ⟨init, []⟩ [] events t log items := by
  have hinit : Inv (init : Queue α) [] [] := init_inv (List.forall_mem_nil _)
  obtain ⟨log, items, ⟨cells, hitems, hinv⟩, hlog⟩ := queue_atomic.linearized ⟨[], rfl, hinit⟩ ht
  exact ⟨log, items, ⟨cells, hinv.chain, hitems⟩, fun c hc => hinv.defined hc, hlog⟩

end

end Learncc.ThreadsafeQueue
