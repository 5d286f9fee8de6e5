/-
`myvector` (src/inc/public/mvector.h): three pointers to an array that is allocated
raw and filled object by object. Pointers are counted in elements, the null pointer is 0.

`pop_back` of the only element sets two of the three pointers to null and leaves `cap`.
`push_back` and `emplace_back` read their argument after `check_alloc`, which frees the
array that an element of the vector's own lies in. `run_right_iff`: the vector is the list
it should be in the runs without such calls. The copying functions are not here.
-/
import Learncc.Lib.Cells
import Learncc.Lib.Run

namespace Learncc

/-- `cells` is the memory the vector has allocated. -/
structure MyVector (α : Type) where
  element : ℕ
  firstFree : ℕ
  cap : ℕ
  cells : Cells α

namespace MyVector

variable {α : Type}

/-! ## The class -/

def empty : MyVector α := { element := 0, firstFree := 0, cap := 0, cells := fun _ => none }

def size (v : MyVector α) : ℕ := v.firstFree - v.element

def capacity (v : MyVector α) : ℕ := v.cap - v.element

/-- The elements from `begin` to `end`. -/
def elements (v : MyVector α) : List (Option α) :=
  (List.range (v.firstFree - v.element)).map fun i => v.cells.read (v.element + i)

/-- The loop of `free`: one object after the other from `dest`. -/
def destroyAll (cells : Cells α) (dest : ℕ) : ℕ → Option (Cells α)
  | 0 => some cells
  | i + 1 => (destroyAll cells dest i).bind fun cells => cells.destroy (dest + i)

/-- The loop of `reallocate`. An object that is moved from is still an object. -/
def moveAll (cells : Cells α) (src dest : ℕ) : ℕ → Option (Cells α)
  | 0 => some cells
  | i + 1 => (moveAll cells src dest i).bind fun cells =>
    (cells.read (src + i)).bind fun a => cells.construct (dest + i) a

/-- `none`, here and below, where it does something undefined. -/
def free (v : MyVector α) : Option (MyVector α) :=
  if v.element = 0 then some v
  else (destroyAll v.cells v.element v.size).map fun cells =>
    { element := 0, firstFree := 0, cap := 0, cells := cells.deallocate v.element (v.cap - v.element) }

/-- `newdata` is what the allocator answers. -/
def reallocate (v : MyVector α) (newdata : ℕ) : Option (MyVector α) :=
  if v.element = 0 ∨ v.cap = 0 ∨ v.firstFree = 0 then
    some { element := newdata, firstFree := newdata, cap := newdata + 1, cells := v.cells.allocate newdata 1 }
  else do
    let cells ← moveAll (v.cells.allocate newdata (v.size * 2)) v.element newdata v.size
    let freed ← free { v with cells }
    -- `dest` has been moved on once per element; `size()` is that of the new array.
    let v : MyVector α := { freed with element := newdata, firstFree := newdata + v.size }
    some { v with cap := newdata + v.size * 2 }

def checkAlloc (v : MyVector α) (newdata : ℕ) : Option (MyVector α) :=
  if v.size = v.capacity then v.reallocate newdata else some v

/-- What a `const T &` names: an object of the caller's, or an element of the vector's. -/
inductive Arg (α : Type)
  | other (t : α)
  | element (i : ℕ)

/-- The object at the other end of the reference, which was bound while the array began
at `begin`. -/
def Arg.read (t : Arg α) (begin : ℕ) (cells : Cells α) : Option α :=
  match t with
  | .other t => some t
  | .element i => cells.read (begin + i)

def pushBack (v : MyVector α) (t : Arg α) (newdata : ℕ) : Option (MyVector α) := do
  let v' ← v.checkAlloc newdata
  let object ← t.read v.element v'.cells
  let cells ← v'.cells.construct v'.firstFree object
  some { v' with firstFree := v'.firstFree + 1, cells }

/-- The new object is a copy of what the one argument names. -/
def emplaceBack (v : MyVector α) (t : Arg α) (newdata : ℕ) : Option (MyVector α) := do
  let v' ← v.checkAlloc newdata
  let object ← t.read v.element v'.cells
  let cells ← v'.cells.construct v'.firstFree object
  some { v' with firstFree := v'.firstFree + 1, cells }

/-- The vector and what `t`, a variable of the caller's, is set to, if it is. -/
def popBack (v : MyVector α) : Option (MyVector α × Option α) :=
  if v.firstFree = 0 then some (v, none)
  else if v.size = 1 then do
    let t ← v.cells.read v.element
    let cells ← v.cells.destroy v.element
    some ({ v with element := 0, firstFree := 0, cells }, some t)
  else do
    let firstFree := v.firstFree - 1
    let t ← v.cells.read firstFree
    let cells ← v.cells.destroy firstFree
    some ({ v with firstFree, cells }, some t)

/-! ## The allocator -/

/-- How many elements the next `push_back` allocates memory for. -/
def request (v : MyVector α) : ℕ :=
  if v.size = v.capacity then
    if v.element = 0 ∨ v.cap = 0 ∨ v.firstFree = 0 then 1 else v.size * 2
  else 0

/-! ## A list beside it -/

/-- A call, with the allocator's answer in case it is asked. -/
inductive Op (α : Type)
  | pushBack (t : Arg α) (newdata : ℕ)
  | emplaceBack (t : Arg α) (newdata : ℕ)
  | popBack

/-- The allocator answers with memory that is not the vector's already. -/
def Fresh (v : MyVector α) (newdata : ℕ) : Prop := newdata ≠ 0 ∧ ∀ k < v.request, v.cells (newdata + k) = none

/-- An element named is one of the vector's. -/
def Arg.Within (v : MyVector α) : Arg α → Prop
  | .other _ => True
  | .element i => i < v.size

def Answered (v : MyVector α) : Op α → Prop
  | .pushBack t newdata => v.Fresh newdata ∧ t.Within v
  | .emplaceBack t newdata => v.Fresh newdata ∧ t.Within v
  | .popBack => True

instance (v : MyVector α) (newdata : ℕ) : Decidable (v.Fresh newdata) :=
  inferInstanceAs (Decidable (newdata ≠ 0 ∧ ∀ k < v.request, v.cells (newdata + k) = none))

instance (v : MyVector α) : ∀ t : Arg α, Decidable (t.Within v)
  | .other _ => .isTrue trivial
  | .element i => inferInstanceAs (Decidable (i < v.size))

instance (v : MyVector α) : ∀ op, Decidable (v.Answered op)
  | .pushBack t newdata => inferInstanceAs (Decidable (v.Fresh newdata ∧ t.Within v))
  | .emplaceBack t newdata => inferInstanceAs (Decidable (v.Fresh newdata ∧ t.Within v))
  | .popBack => .isTrue trivial

def exec (v : MyVector α) : Op α → Option (MyVector α × List (Option α))
  | .pushBack t newdata => (v.pushBack t newdata).map fun v => (v, [])
  | .emplaceBack t newdata => (v.emplaceBack t newdata).map fun v => (v, [])
  | .popBack => v.popBack.map fun r => (r.1, [r.2])

/-- What the reference names in the list. -/
def Arg.item (items : List α) : Arg α → Option α
  | .other t => some t
  | .element i => items[i]?

def listed (items : List α) : Op α → List α × List (Option α)
  | .pushBack t _ => (items ++ (t.item items).toList, [])
  | .emplaceBack t _ => (items ++ (t.item items).toList, [])
  | .popBack => (items.dropLast, [items.getLast?])

/-- The vector and the list, with what `pop_back` has returned of each so far. The
vector is gone once it has done something undefined. -/
structure Both (α : Type) where
  vec : Option (MyVector α)
  items : List α
  popped : List (Option α)
  expected : List (Option α)

def start : Both α := { vec := some empty, items := [], popped := [], expected := [] }

def step (b : Both α) (op : Op α) : Option (Both α) :=
  if ∀ v ∈ b.vec, v.Answered op then
    let r := b.vec.bind fun v => v.exec op
    some {
      vec := r.map Prod.fst
      items := (listed b.items op).1
      popped := b.popped ++ (r.map Prod.snd).getD []
      expected := b.expected ++ (listed b.items op).2 }
  else none

/-- The vector holds the items: `block` says that its memory is all from `element` up to
`cap`, with the items first and no other objects. It has no memory without items. -/
structure Holds (v : MyVector α) (items : List α) : Prop where
  ordered : v.element ≤ v.firstFree ∧ v.firstFree ≤ v.cap
  nulls : v.element = 0 ∧ v.firstFree = 0 ∧ v.cap = 0 ∨ v.element ≠ 0 ∧ v.firstFree ≠ 0 ∧ v.cap ≠ 0
  size : v.size = items.length
  cells : v.cells = Cells.block v.element (v.cap - v.element) items
  used : items = [] → v.element = 0

/-- So far the vector is the list. -/
def Right (b : Both α) : Prop :=
  (∃ v, b.vec = some v ∧ v.Holds b.items ∧ v.elements = b.items.map some) ∧ b.popped = b.expected

/-- A new object has its place from `element` up to `cap`. -/
def Inside (b : Both α) : Op α → Prop
  | .pushBack _ newdata => ∀ v ∈ b.vec, v.Fresh newdata →
    ∃ v', v.checkAlloc newdata = some v' ∧ v'.element ≤ v'.firstFree ∧ v'.firstFree < v'.cap
  | .emplaceBack _ newdata => ∀ v ∈ b.vec, v.Fresh newdata →
    ∃ v', v.checkAlloc newdata = some v' ∧ v'.element ≤ v'.firstFree ∧ v'.firstFree < v'.cap
  | .popBack => True

/-- The reference is still good after `check_alloc`. -/
def Arg.Lasts (v : MyVector α) : Arg α → Prop
  | .other _ => True
  | .element _ => v.size ≠ v.capacity

/-- Not a `pop_back` of the only element, and no element of a full vector is pushed to it. -/
def Safe (b : Both α) : Op α → Prop
  | .pushBack t _ => ∀ v ∈ b.vec, t.Lasts v
  | .emplaceBack t _ => ∀ v ∈ b.vec, t.Lasts v
  | .popBack => ∀ v ∈ b.vec, v.size ≠ 1

instance (v : MyVector α) : ∀ t : Arg α, Decidable (t.Lasts v)
  | .other _ => .isTrue trivial
  | .element _ => inferInstanceAs (Decidable (v.size ≠ v.capacity))

instance (b : Both α) : ∀ op, Decidable (Safe b op)
  | .pushBack t _ => inferInstanceAs (Decidable (∀ v ∈ b.vec, t.Lasts v))
  | .emplaceBack t _ => inferInstanceAs (Decidable (∀ v ∈ b.vec, t.Lasts v))
  | .popBack => inferInstanceAs (Decidable (∀ v ∈ b.vec, v.size ≠ 1))

/-! ## Growing -/

section

variable {v : MyVector α} {items : List α}

theorem empty_holds : (empty : MyVector α).Holds [] :=
  ⟨⟨Nat.le_refl _, Nat.le_refl _⟩, .inl ⟨rfl, rfl, rfl⟩, rfl, (Cells.block_zero 0 []).symm, fun _ => rfl⟩

theorem destroyAll_eq {cells : Cells α} {dest : ℕ} :
    ∀ {n : ℕ}, (∀ i < n, ∃ a, cells (dest + i) = some (some a)) →
      destroyAll cells dest n = some (cells.allocate dest n)
  | 0, _ => by rw [destroyAll, Cells.allocate_zero]
  | n + 1, h => by
    obtain ⟨a, ha⟩ := h n (Nat.lt_succ_self n)
    have hobject : cells.allocate dest n (dest + n) = some (some a) := by
      rw [Cells.allocate, if_neg (by omega), ha]
    rw [destroyAll, destroyAll_eq fun i hi => h i (by omega), Option.bind_some, Cells.destroy_eq hobject,
      Cells.allocate_succ]

/-- After `i` steps the first `i` items are in the new array too. -/
theorem moveAll_eq {src dest n k : ℕ} (hlen : items.length ≤ n) (hroom : items.length ≤ k)
    (hapart : ∀ j < n, ¬ (dest ≤ src + j ∧ src + j < dest + k)) :
    ∀ i ≤ items.length, moveAll (Cells.beside (Cells.block dest k []) (Cells.block src n items)) src dest i =
      some (Cells.beside (Cells.block dest k (items.take i)) (Cells.block src n items))
  | 0, _ => by rw [moveAll, List.take_zero]
  | i + 1, hi => by
    have hread : Cells.read (Cells.beside (Cells.block dest k (items.take i)) (Cells.block src n items)) (src + i) =
        some items[i] := by
      rw [Cells.read_beside (Cells.block_eq_none.2 (hapart i (by omega))), Cells.read_block (by omega) hlen,
        List.getElem?_eq_getElem]
    have htake : (items.take i).length = i := by
      rw [List.length_take]
      omega
    have hconstruct : (Cells.block dest k (items.take i)).construct (dest + (items.take i).length) items[i] =
        some (Cells.block dest k (items.take i ++ [items[i]])) :=
      Cells.construct_block (by omega)
    rw [htake, List.take_append_getElem] at hconstruct
    rw [moveAll, moveAll_eq hlen hroom hapart i (by omega), Option.bind_some, hread, Option.bind_some,
      Cells.construct_beside hconstruct]

/-- `free` takes away the array and what is in it, and nothing else. -/
theorem free_eq {m : Cells α} (hne : v.element ≠ 0) (hsize : v.size = items.length)
    (hlen : items.length ≤ v.cap - v.element)
    (hcells : v.cells = m.beside (Cells.block v.element (v.cap - v.element) items))
    (hapart : ∀ j < v.cap - v.element, m (v.element + j) = none) :
    v.free = some { element := 0, firstFree := 0, cap := 0, cells := m } := by
  have hobjects : ∀ i < v.size, ∃ a, v.cells (v.element + i) = some (some a) := by
    intro i hi
    rw [hsize] at hi
    refine ⟨items[i], ?_⟩
    rw [hcells, Cells.beside_of_none (hapart i (by omega)), Cells.block_add (by omega), List.getElem?_eq_getElem hi]
  rw [free, if_neg hne, destroyAll_eq hobjects, Option.map_some, Cells.deallocate_allocate (by omega), hcells,
    Cells.deallocate_beside _ hapart]

/-- The memory has a place behind the items. -/
structure Room (v : MyVector α) (items : List α) : Prop where
  element : v.element ≠ 0
  firstFree : v.firstFree = v.element + items.length
  room : v.firstFree < v.cap
  cells : v.cells = Cells.block v.element (v.cap - v.element) items

namespace Holds

theorem firstFree (h : v.Holds items) : v.firstFree = v.element + items.length := by
  have hsize := h.size
  have hordered := h.ordered
  rw [MyVector.size] at hsize
  omega

theorem element_eq_zero (h : v.Holds items) : v.element = 0 ↔ items = [] := by
  refine ⟨fun he => ?_, h.used⟩
  have hsize := h.firstFree
  rcases h.nulls with ⟨-, hfirst, -⟩ | ⟨hne, -, -⟩
  · exact List.length_eq_zero_iff.1 (by omega)
  · exact absurd he hne

theorem unset_iff (h : v.Holds items) : (v.element = 0 ∨ v.cap = 0 ∨ v.firstFree = 0) ↔ items = [] := by
  rw [← h.element_eq_zero]
  rcases h.nulls with ⟨he, hf, hc⟩ | ⟨he, hf, hc⟩
  · exact iff_of_true (.inl he) he
  · exact ⟨fun hor => by omega, .inl⟩

theorem reallocate_nil {newdata : ℕ} (h : v.Holds []) (hne : newdata ≠ 0) :
    ∃ v', v.reallocate newdata = some v' ∧ v'.Room [] := by
  refine ⟨_, if_pos (h.unset_iff.2 rfl), hne, rfl, Nat.lt_succ_self newdata, ?_⟩
  have hzero : v.cap - v.element = 0 := by
    have hnulls := h.nulls
    have hused := h.used rfl
    omega
  show v.cells.allocate newdata 1 = _
  rw [Cells.allocate_eq, h.cells, hzero, Cells.block_zero, Cells.beside_empty]
  simp only [Nat.add_sub_cancel_left]

/-- The items move to the new array, and the old one is freed. -/
theorem reallocate {newdata : ℕ} (h : v.Holds items) (hne : items ≠ []) (hnew : newdata ≠ 0)
    (hfresh : ∀ k < v.size * 2, v.cells (newdata + k) = none) :
    ∃ v', v.reallocate newdata = some v' ∧ v'.Room items ∧
      ∀ j < v.cap - v.element, v'.cells (v.element + j) = none := by
  have hset : ¬ (v.element = 0 ∨ v.cap = 0 ∨ v.firstFree = 0) := fun hor => hne (h.unset_iff.1 hor)
  have hpos : 0 < items.length := List.length_pos_iff.2 hne
  have hfirst := h.firstFree
  have hordered := h.ordered
  have hlen : items.length ≤ v.cap - v.element := by omega
  have hapart : ∀ j < v.cap - v.element,
      ¬ (newdata ≤ v.element + j ∧ v.element + j < newdata + items.length * 2) := by
    intro j hj hin
    have hcell := hfresh (v.element + j - newdata) (by rw [h.size]; omega)
    rw [Nat.add_sub_cancel' hin.1, h.cells, Cells.block_add hj] at hcell
    cases hcell
  have hmove := moveAll_eq hlen (by omega : items.length ≤ items.length * 2) hapart items.length (Nat.le_refl _)
  rw [List.take_length, ← Cells.allocate_eq, ← h.cells] at hmove
  have hfree : free { v with cells := (Cells.block newdata (items.length * 2) items).beside v.cells } =
      some ⟨0, 0, 0, Cells.block newdata (items.length * 2) items⟩ := by
    refine free_eq (fun he => hset (.inl he)) h.size hlen ?_ fun j hj => Cells.block_eq_none.2 (hapart j hj)
    exact congrArg (Cells.beside _) h.cells
  refine ⟨⟨newdata, newdata + items.length, newdata + items.length * 2,
    Cells.block newdata (items.length * 2) items⟩, ?_, ⟨hnew, rfl, ?_, ?_⟩,
    fun j hj => Cells.block_eq_none.2 (hapart j hj)⟩
  · rw [MyVector.reallocate, if_neg hset, h.size, hmove]
    simp only [Option.bind_eq_bind, Option.bind_some, hfree, MyVector.size, Nat.add_sub_cancel_left]
  · show newdata + items.length < newdata + items.length * 2
    omega
  · simp only [Nat.add_sub_cancel_left]

theorem checkAlloc {newdata : ℕ} (h : v.Holds items) (hfresh : v.Fresh newdata) :
    ∃ v', v.checkAlloc newdata = some v' ∧ v'.Room items := by
  obtain ⟨hnew, hcells⟩ := hfresh
  by_cases hfull : v.size = v.capacity
  · rw [MyVector.checkAlloc, if_pos hfull]
    by_cases hitems : items = []
    · subst hitems
      exact h.reallocate_nil hnew
    · rw [request, if_pos hfull, if_neg fun hor => hitems (h.unset_iff.1 hor)] at hcells
      obtain ⟨v', hrealloc, hroom, -⟩ := h.reallocate hitems hnew hcells
      exact ⟨v', hrealloc, hroom⟩
  · refine ⟨v, if_neg hfull, fun he => hfull ?_, h.firstFree, ?_, h.cells⟩
    · have hnulls := h.nulls
      rw [MyVector.size, capacity]
      omega
    · have hordered := h.ordered
      rw [MyVector.size, capacity] at hfull
      omega

end Holds

theorem Room.construct (h : v.Room items) (t : α) :
    ∃ cells, v.cells.construct v.firstFree t = some cells ∧
      Holds { v with firstFree := v.firstFree + 1, cells } (items ++ [t]) := by
  have hne := h.element
  have hfirst := h.firstFree
  have hroom := h.room
  refine ⟨Cells.block v.element (v.cap - v.element) (items ++ [t]), ?_,
    ⟨?_, hroom⟩, .inr ⟨hne, Nat.succ_ne_zero _, ?_⟩, ?_, rfl, fun hnil => ?_⟩
  · rw [h.cells, hfirst]
    exact Cells.construct_block (by omega)
  · show v.element ≤ v.firstFree + 1
    omega
  · show v.cap ≠ 0
    omega
  · show v.firstFree + 1 - v.element = (items ++ [t]).length
    rw [List.length_append, List.length_singleton]
    omega
  · exact absurd hnil (List.append_ne_nil_of_right_ne_nil _ (List.cons_ne_nil t []))

namespace Holds

/-- A reference that lasts still names the item after `check_alloc`. -/
theorem read_item {newdata : ℕ} {v' : MyVector α} {t : Arg α} (h : v.Holds items) (hwithin : t.Within v)
    (hlasts : t.Lasts v) (halloc : v.checkAlloc newdata = some v') :
    t.read v.element v'.cells = t.item items ∧ (t.item items).isSome := by
  cases t with
  | other t => exact ⟨rfl, rfl⟩
  | element i =>
    have hi : i < items.length := h.size ▸ hwithin
    rw [MyVector.checkAlloc, if_neg hlasts] at halloc
    cases halloc
    have hordered := h.ordered
    have hfirst := h.firstFree
    refine ⟨?_, by rw [Arg.item, List.getElem?_eq_getElem hi]; rfl⟩
    rw [Arg.read, h.cells]
    exact Cells.read_block hi (by omega)

theorem pushBack {newdata : ℕ} {t : Arg α} (h : v.Holds items) (hfresh : v.Fresh newdata) (hwithin : t.Within v)
    (hlasts : t.Lasts v) : ∃ v', v.pushBack t newdata = some v' ∧ v'.Holds (items ++ (t.item items).toList) := by
  obtain ⟨v₁, halloc, hroom⟩ := h.checkAlloc hfresh
  obtain ⟨hread, hsome⟩ := h.read_item hwithin hlasts halloc
  obtain ⟨object, hobject⟩ := Option.isSome_iff_exists.1 hsome
  obtain ⟨cells, hconstruct, hnext⟩ := hroom.construct object
  rw [hobject, Option.toList_some]
  refine ⟨_, ?_, hnext⟩
  simp only [MyVector.pushBack, halloc, hread, hobject, hconstruct, Option.bind_eq_bind, Option.bind_some]

/-- An element of a full vector is read from the array that has been freed. -/
theorem pushBack_freed {newdata i : ℕ} (h : v.Holds items) (hfresh : v.Fresh newdata)
    (hwithin : (Arg.element i : Arg α).Within v) (hfull : v.size = v.capacity) :
    v.pushBack (.element i) newdata = none := by
  obtain ⟨hnew, hcells⟩ := hfresh
  have hi : i < items.length := h.size ▸ hwithin
  have hne : items ≠ [] := List.length_pos_iff.1 (by omega)
  rw [request, if_pos hfull, if_neg fun hor => hne (h.unset_iff.1 hor)] at hcells
  obtain ⟨v', halloc, -, hgone⟩ := h.reallocate hne hnew hcells
  have hordered := h.ordered
  have hfirst := h.firstFree
  have hread : (Arg.element i).read v.element v'.cells = none := by
    rw [Arg.read, Cells.read, hgone i (by omega)]
    rfl
  simp only [MyVector.pushBack, MyVector.checkAlloc, if_pos hfull, halloc, hread, Option.bind_eq_bind,
    Option.bind_some, Option.bind_none]

/-! ## Shrinking -/

theorem popBack_nil (h : v.Holds []) : v.popBack = some (v, none) := by
  have hfirst := h.firstFree
  have hused := h.used rfl
  rw [MyVector.popBack, if_pos]
  rw [hfirst, hused]
  rfl

/-- The only element is returned, but no list describes what is left. -/
theorem popBack_one {t : α} (h : v.Holds [t]) :
    ∃ v', v.popBack = some (v', some t) ∧ ∀ items', ¬ v'.Holds items' := by
  have hset : ¬ (v.element = 0 ∨ v.cap = 0 ∨ v.firstFree = 0) :=
    fun hor => List.cons_ne_nil t [] (h.unset_iff.1 hor)
  have hfirst := h.firstFree
  have hordered := h.ordered
  have hsize : v.size = 1 := h.size
  have hlen : 0 < v.cap - v.element := by
    rw [List.length_singleton] at hfirst
    omega
  have hread : v.cells.read v.element = some t := by
    rw [h.cells]
    exact Cells.read_block (k := 0) Nat.one_pos hlen
  have hdestroy : v.cells.destroy v.element = some (Cells.block v.element (v.cap - v.element) []) := by
    rw [h.cells]
    have hnil : ([] : List α).length < v.cap - v.element := hlen
    exact Cells.destroy_block hnil
  refine ⟨{ v with element := 0, firstFree := 0, cells := Cells.block v.element (v.cap - v.element) [] }, ?_,
    fun items' h' => ?_⟩
  · rw [MyVector.popBack, if_neg fun hf => hset (.inr (.inr hf)), if_pos hsize]
    simp only [Option.bind_eq_bind, hread, hdestroy, Option.bind_some]
  · rcases h'.nulls with ⟨-, -, hcap⟩ | ⟨helem, -, -⟩
    · exact hset (.inr (.inl hcap))
    · exact helem rfl

/-- The last of several elements. -/
theorem popBack_concat {t : α} (h : v.Holds (items ++ [t])) (hne : items ≠ []) :
    ∃ v', v.popBack = some (v', some t) ∧ v'.Holds items := by
  have hset : ¬ (v.element = 0 ∨ v.cap = 0 ∨ v.firstFree = 0) :=
    fun hor => List.append_ne_nil_of_right_ne_nil items (List.cons_ne_nil t []) (h.unset_iff.1 hor)
  have hpos : 0 < items.length := List.length_pos_iff.2 hne
  have hlength : (items ++ [t]).length = items.length + 1 := by
    rw [List.length_append, List.length_singleton]
  have hordered := h.ordered
  have hsize : v.size ≠ 1 := by
    rw [h.size, hlength]
    omega
  have hfirst : v.firstFree - 1 = v.element + items.length := by
    rw [h.firstFree, hlength]
    omega
  have hlen : items.length < v.cap - v.element := by omega
  have hread : v.cells.read (v.firstFree - 1) = some t := by
    rw [h.cells, hfirst, Cells.read_block (by rw [hlength]; omega) (by omega), List.getElem?_concat_length]
  have hdestroy : v.cells.destroy (v.firstFree - 1) = some (Cells.block v.element (v.cap - v.element) items) := by
    rw [h.cells, hfirst]
    exact Cells.destroy_block hlen
  refine ⟨{ v with firstFree := v.firstFree - 1, cells := Cells.block v.element (v.cap - v.element) items }, ?_, ?_⟩
  · rw [MyVector.popBack, if_neg fun hf => hset (.inr (.inr hf)), if_neg hsize]
    simp only [Option.bind_eq_bind, hread, hdestroy, Option.bind_some]
  · refine ⟨⟨?_, ?_⟩, .inr ⟨fun he => hset (.inl he), ?_, fun hc => hset (.inr (.inl hc))⟩, ?_, rfl,
      fun hnil => ?_⟩
    · show v.element ≤ v.firstFree - 1
      omega
    · show v.firstFree - 1 ≤ v.cap
      omega
    · show v.firstFree - 1 ≠ 0
      omega
    · show v.firstFree - 1 - v.element = items.length
      omega
    · exact absurd hnil hne

/-- From `begin` to `end` there are the items. -/
theorem elements (h : v.Holds items) : v.elements = items.map some := by
  have hordered := h.ordered
  have hfirst := h.firstFree
  unfold MyVector.elements
  refine List.ext_getElem ?_ fun i hi hi' => ?_
  · rw [List.length_map, List.length_map, List.length_range]
    omega
  · rw [List.length_map] at hi'
    rw [List.getElem_map, List.getElem_map, List.getElem_range, h.cells,
      Cells.read_block hi' (by omega), List.getElem?_eq_getElem hi']

end Holds

/-! ## Runs -/

theorem step_eq_some {b b' : Both α} {op : Op α} :
    step b op = some b' ↔ (∀ v ∈ b.vec, v.Answered op) ∧ b' = {
      vec := (b.vec.bind fun v => v.exec op).map Prod.fst
      items := (listed b.items op).1
      popped := b.popped ++ ((b.vec.bind fun v => v.exec op).map Prod.snd).getD []
      expected := b.expected ++ (listed b.items op).2 } := by
  rw [step]
  split
  · rename_i hanswered
    rw [Option.some.injEq]
    exact ⟨fun he => ⟨hanswered, he.symm⟩, fun he => he.2.symm⟩
  · rename_i hrefused
    refine ⟨fun he => ?_, fun he => absurd he.1 hrefused⟩
    cases he

/-- What is returned is right in any case; the rest is up to the vector left. -/
theorem step_right_iff {b b' : Both α} {op : Op α} {v' : MyVector α} (hv : b.vec = some v)
    (hpopped : b.popped = b.expected) (hs : step b op = some b')
    (hexec : v.exec op = some (v', (listed b.items op).2)) : Right b' ↔ v'.Holds (listed b.items op).1 := by
  obtain ⟨-, rfl⟩ := step_eq_some.1 hs
  have hbind : (b.vec.bind fun v => v.exec op) = some (v', (listed b.items op).2) := by
    rw [hv, Option.bind_some, hexec]
  rw [hbind]
  constructor
  · intro hright
    obtain ⟨⟨v'', hv'', hholds, -⟩, -⟩ := hright
    cases hv''
    exact hholds
  · intro hholds
    refine ⟨⟨v', rfl, hholds, hholds.elements⟩, ?_⟩
    show b.popped ++ (listed b.items op).2 = _
    rw [hpopped]

/-- Pushing to a vector that is right ends right exactly when the reference lasts. -/
theorem step_push {b b' : Both α} {op : Op α} {t : Arg α} {newdata : ℕ} (hv : b.vec = some v) (hholds : v.Holds b.items)
    (hpopped : b.popped = b.expected) (hs : step b op = some b') (hfresh : v.Fresh newdata) (hwithin : t.Within v)
    (hexec : v.exec op = (v.pushBack t newdata).map fun v => (v, []))
    (hlisted : listed b.items op = (b.items ++ (t.item b.items).toList, [])) : Right b' ↔ t.Lasts v := by
  by_cases hlasts : t.Lasts v
  · obtain ⟨v', hpush, hnext⟩ := hholds.pushBack hfresh hwithin hlasts
    rw [hpush, Option.map_some] at hexec
    rw [step_right_iff hv hpopped hs (by rw [hexec, hlisted]), hlisted]
    exact iff_of_true hnext hlasts
  · refine iff_of_false (fun hright => ?_) hlasts
    cases t with
    | other t => exact hlasts trivial
    | element i =>
      rw [hholds.pushBack_freed hfresh hwithin (not_not.1 hlasts)] at hexec
      obtain ⟨-, rfl⟩ := step_eq_some.1 hs
      obtain ⟨⟨v', hv', -⟩, -⟩ := hright
      rw [hv, Option.bind_some, hexec] at hv'
      cases hv'

/-- A call of a vector that is right ends right exactly when it is safe. -/
theorem step_right {b b' : Both α} {op : Op α} (h : Right b) (hs : step b op = some b') : Right b' ↔ Safe b op := by
  obtain ⟨⟨v, hv, hholds, -⟩, hpopped⟩ := h
  have hanswered := (step_eq_some.1 hs).1 v hv
  have hsafe : Safe b .popBack ↔ b.items.length ≠ 1 := by
    simp only [Safe, hv, Option.mem_some_iff, forall_eq', hholds.size]
  cases op with
  | pushBack t newdata | emplaceBack t newdata =>
    rw [step_push hv hholds hpopped hs hanswered.1 hanswered.2 rfl rfl]
    simp only [Safe, hv, Option.mem_some_iff, forall_eq']
  | popBack =>
    rw [hsafe]
    have hexec : ∀ {v' r}, v.popBack = some (v', r) → v.exec .popBack = some (v', [r]) := by
      intro v' r hpop
      rw [exec, hpop, Option.map_some]
    rcases List.eq_nil_or_concat b.items with hnil | ⟨items, t, hconcat⟩
    · rw [hnil] at hholds
      rw [step_right_iff hv hpopped hs (by rw [hnil]; exact hexec hholds.popBack_nil), hnil]
      exact iff_of_true hholds Nat.zero_ne_one
    · rw [List.concat_eq_append] at hconcat
      rw [hconcat] at hholds
      have hlast : listed (items ++ [t]) .popBack = (items, [some t]) := by
        rw [listed, List.dropLast_concat, List.getLast?_concat]
      by_cases hone : items = []
      · subst hone
        obtain ⟨v', hpop, hbad⟩ := hholds.popBack_one
        rw [step_right_iff hv hpopped hs (by rw [hconcat]; exact hexec hpop), hconcat]
        exact iff_of_false (hbad _) (not_not_intro rfl)
      · obtain ⟨v', hpop, hnext⟩ := hholds.popBack_concat hone
        rw [step_right_iff hv hpopped hs (by rw [hconcat, hlast]; exact hexec hpop), hconcat, hlast]
        refine iff_of_true hnext ?_
        have hpos := List.length_pos_iff.2 hone
        rw [List.length_append, List.length_singleton]
        omega

theorem start_right : Right (start : Both α) := ⟨⟨empty, rfl, empty_holds, rfl⟩, rfl⟩

theorem Right.inside {b : Both α} (h : Right b) (op : Op α) : Inside b op := by
  obtain ⟨⟨v, hv, hholds, -⟩, -⟩ := h
  have hplace : ∀ v' ∈ b.vec, ∀ newdata, v'.Fresh newdata →
      ∃ v'', v'.checkAlloc newdata = some v'' ∧ v''.element ≤ v''.firstFree ∧ v''.firstFree < v''.cap := by
    intro v' hv' newdata hfresh
    rw [hv, Option.mem_some_iff] at hv'
    subst hv'
    obtain ⟨v'', halloc, hroom⟩ := hholds.checkAlloc hfresh
    exact ⟨v'', halloc, by rw [hroom.firstFree]; omega, hroom.room⟩
  cases op with
  | pushBack t newdata | emplaceBack t newdata => exact fun v' hv' => hplace v' hv' newdata
  | popBack => trivial

end

/-- **A vector is a list as long as it is not emptied.** For every sequence of calls and
all memory the allocator may answer with: the pointers are in order and null together,
each new object has its place from `element` up to `cap`, and size, elements and what
`pop_back` returns are those of the list, up to the end and at every point before, exactly
when `pop_back` is never called on a vector of one element and no element is pushed to its
own vector while that is full. -/
theorem run_right_iff (ops : List (Op α)) {b : Both α} (h : Run.run step start ops = some b) :
    Run.Along step (fun b op => Right b ∧ Inside b op) start ops ∧ Right b ↔ Run.Along step Safe start ops := by
  have hiff := Run.along_iff (fun _ => True) Right (fun _ _ _ _ _ => trivial)
    (fun _ _ _ _ hright hs => step_right hright hs) trivial start_right h
  rw [← hiff]
  constructor
  · intro hall
    exact ⟨Run.along_mono (fun _ _ hc => hc.1) hall.1, hall.2⟩
  · intro hall
    exact ⟨Run.along_mono (fun _ op hc => ⟨hc, hc.inside op⟩) hall.1, hall.2⟩

/-- Two are pushed, the array grows twice, the first is pushed again into the room that is
left, one is popped. -/
def grown : List (Op ℕ) :=
  [.pushBack (.other 7) 100, .emplaceBack (.other 8) 200, .pushBack (.other 9) 300, .pushBack (.element 0) 400, .popBack]

theorem run_right_iff_grown : ∃ b, Run.run step start grown = some b ∧ b.items = [7, 8, 9] ∧ Right b :=
  ⟨_, rfl, rfl, ((run_right_iff grown rfl).2 (by decide)).2⟩

/-- The only element is popped and another pushed: it is constructed at the null pointer.
The only element is pushed again: it is read from freed memory. -/
theorem not_list_emptied :
    (∃ b, Run.run step start [.pushBack (.other 7) 100, .popBack, .pushBack (.other 8) 200] = some b ∧
      b.vec.isNone) ∧
    ∃ b, Run.run step start [.pushBack (.other 7) 100, .pushBack (.element 0) 200] = some b ∧ b.vec.isNone :=
  ⟨⟨_, rfl, by decide⟩, _, rfl, by decide⟩

end MyVector

end Learncc
