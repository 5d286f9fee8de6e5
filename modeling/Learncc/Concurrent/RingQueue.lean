/-
`ring_queue` and `ulring_queue` (src/concurrent/atomic_.cc): one `emplace` and one
`pop` at a time on a ring, under a mutex in the one class and a flag in the other; the
code between is the same.

`pop` reduces the next `head_` by `& max_`, all else by `% max_`. `run_fifo_iff`: a
run behaves as a bounded queue as long as the two agree wherever it pops, and one more
than the capacity is a `size_t`.
-/
import Learncc.Lib.Run
import Mathlib.Data.List.Basic
import Mathlib.Data.Nat.ModEq

namespace Learncc

/-- A slot without an object is `none`; so is what lies behind the last one. -/
structure RingQueue (α : Type) where
  max : ℕ
  data : ℕ → Option α
  head : ℕ
  tail : ℕ

namespace RingQueue

variable {α : Type}

/-! ## The calls -/

/-- A ring for which `allocate` has found memory. `max_` is a `size_t`. -/
def init (size : ℕ) : RingQueue α := { max := (size + 1) % 2 ^ 64, data := fun _ => none, head := 0, tail := 0 }

/-- `emplace`, and `push`, which hands its arguments on. `none` where it divides by 0. -/
def emplace (q : RingQueue α) (val : α) : Option (RingQueue α × Bool) :=
  if q.max = 0 then none
  else if (q.tail + 1) % q.max = q.head then some (q, false)
  else some ({ q with data := Function.update q.data q.tail (some val), tail := (q.tail + 1) % q.max }, true)

/-- `none` where it moves from a slot that has no object. -/
def pop (q : RingQueue α) : Option (RingQueue α × Option α) :=
  if q.head = q.tail then some (q, none)
  else (q.data q.head).map fun val =>
    ({ q with data := Function.update q.data q.head none, head := (q.head + 1) &&& q.max }, some val)

inductive Op (α : Type)
  | push (val : α)
  | pop

inductive Result (α : Type)
  | pushed (ok : Bool)
  | popped (val : Option α)
deriving Repr, DecidableEq

def exec (q : RingQueue α) : Op α → Option (RingQueue α × Result α)
  | .push val => (q.emplace val).map fun r => (r.1, .pushed r.2)
  | .pop => q.pop.map fun r => (r.1, .popped r.2)

/-! ## The queue it should be -/

/-- A queue of at most `n` elements, the oldest first. -/
def bounded (n : ℕ) (items : List α) : Op α → List α × Result α
  | .push val => if items.length = n then (items, .pushed false) else (items ++ [val], .pushed true)
  | .pop => (items.tail, .popped items.head?)

/-- The ring and the queue side by side, with all results so far. The ring is gone
once it has done something undefined. -/
structure Both (α : Type) where
  ring : Option (RingQueue α)
  items : List α
  results : List (Result α)
  expected : List (Result α)

def start (n : ℕ) : Both α := { ring := some (init n), items := [], results := [], expected := [] }

def step (n : ℕ) (b : Both α) (op : Op α) : Option (Both α) :=
  let r := b.ring.bind fun q => q.exec op
  some {
    ring := r.map Prod.fst
    items := (bounded n b.items op).1
    results := b.results ++ (r.map Prod.snd).toList
    expected := b.expected ++ [(bounded n b.items op).2] }

/-- The slots from `head_` up to `tail_` hold the items, and both indices are below
`max_`. -/
structure Holds (n : ℕ) (q : RingQueue α) (items : List α) : Prop where
  max : q.max = n + 1
  head : q.head < q.max
  tail : q.tail = (q.head + items.length) % q.max
  room : items.length ≤ n
  data : ∀ k < items.length, q.data ((q.head + k) % q.max) = items[k]?

/-- So far the ring is a bounded queue. -/
def Right (n : ℕ) (b : Both α) : Prop :=
  (∃ q, b.ring = some q ∧ q.Holds n b.items) ∧ b.results = b.expected

/-- A `pop` that finds an element reduces the next `head_` rightly. -/
def Wraps (b : Both α) : Op α → Prop
  | .push _ => True
  | .pop => ∀ q, b.ring = some q → q.head ≠ q.tail → (q.head + 1) &&& q.max = (q.head + 1) % q.max

/-! ## One call -/

section

variable {n : ℕ} {q : RingQueue α} {items : List α}

theorem init_holds_iff (n : ℕ) : (init n : RingQueue α).Holds n [] ↔ n + 1 < 2 ^ 64 := by
  constructor
  · intro h
    have hmax : (n + 1) % 2 ^ 64 = n + 1 := h.max
    omega
  · intro hn
    have hmax : (n + 1) % 2 ^ 64 = n + 1 := Nat.mod_eq_of_lt hn
    refine ⟨hmax, ?_, ?_, Nat.zero_le n, fun k hk => ?_⟩
    · show 0 < (n + 1) % 2 ^ 64
      omega
    · exact (Nat.zero_mod _).symm
    · cases hk

/-- Positions fewer than `max_` apart have different slots. -/
theorem slot_inj {m a j k : ℕ} (hj : j < m) (hk : k < m) (h : (a + j) % m = (a + k) % m) : j = k :=
  (Nat.ModEq.add_left_cancel' a h).eq_of_lt_of_lt hj hk

namespace Holds

theorem empty_iff (h : Holds n q items) : q.head = q.tail ↔ items = [] := by
  have hmax := h.max
  have hroom := h.room
  have hhead : (q.head + 0) % q.max = q.head := Nat.mod_eq_of_lt h.head
  rw [h.tail, ← List.length_eq_zero_iff]
  constructor
  · intro he
    exact (slot_inj (by omega) (by omega) (hhead.trans he)).symm
  · intro he
    rw [he, hhead]

theorem full_iff (h : Holds n q items) : (q.tail + 1) % q.max = q.head ↔ items.length = n := by
  have hmax := h.max
  have hroom := h.room
  have hhead := h.head
  have hnext : (q.tail + 1) % q.max = (q.head + (items.length + 1)) % q.max := by
    rw [h.tail, Nat.mod_add_mod, Nat.add_assoc]
  rw [hnext]
  constructor
  · intro he
    by_contra hne
    have hzero : (q.head + 0) % q.max = q.head := Nat.mod_eq_of_lt hhead
    have := slot_inj (m := q.max) (show items.length + 1 < q.max by omega) (by omega) (he.trans hzero.symm)
    omega
  · intro he
    rw [he, ← hmax, Nat.add_mod_right, Nat.mod_eq_of_lt hhead]

/-- A new element behind the others. -/
theorem push (h : Holds n q items) (hne : items.length ≠ n) (val : α) :
    Holds n { q with data := Function.update q.data q.tail (some val), tail := (q.tail + 1) % q.max }
      (items ++ [val]) := by
  have hmax := h.max
  have hroom := h.room
  refine ⟨hmax, h.head, ?_, ?_, fun k hk => ?_⟩
  · show (q.tail + 1) % q.max = (q.head + (items ++ [val]).length) % q.max
    rw [h.tail, Nat.mod_add_mod, Nat.add_assoc, List.length_append, List.length_singleton]
  · rw [List.length_append, List.length_singleton]
    omega
  · rw [List.length_append, List.length_singleton] at hk
    show Function.update q.data q.tail (some val) ((q.head + k) % q.max) = (items ++ [val])[k]?
    rw [h.tail]
    by_cases hlast : k = items.length
    · subst hlast
      rw [Function.update_self, List.getElem?_concat_length]
    · have hlt : k < items.length := by omega
      rw [Function.update_of_ne, List.getElem?_append_left hlt]
      · exact h.data k hlt
      · intro he
        exact hlast (slot_inj (by omega) (by omega) he)

/-- The oldest element leaves. -/
theorem pop {val : α} (h : Holds n q (val :: items)) :
    Holds n { q with data := Function.update q.data q.head none, head := (q.head + 1) % q.max } items := by
  have hmax := h.max
  have hroom := h.room
  have hhead := h.head
  rw [List.length_cons] at hroom
  have hnext : ∀ k, ((q.head + 1) % q.max + k) % q.max = (q.head + (k + 1)) % q.max := by
    intro k
    rw [Nat.mod_add_mod, Nat.add_assoc, Nat.add_comm 1 k]
  refine ⟨hmax, Nat.mod_lt _ (by omega), ?_, ?_, fun k hk => ?_⟩
  · show q.tail = ((q.head + 1) % q.max + items.length) % q.max
    rw [hnext, h.tail, List.length_cons]
  · omega
  · show Function.update q.data q.head none (((q.head + 1) % q.max + k) % q.max) = items[k]?
    rw [hnext, Function.update_of_ne]
    · have hdata := h.data (k + 1) (by rw [List.length_cons]; omega)
      rwa [List.getElem?_cons_succ] at hdata
    · intro he
      have hzero : (q.head + 0) % q.max = q.head := Nat.mod_eq_of_lt hhead
      have := slot_inj (m := q.max) (show k + 1 < q.max by omega) (by omega) (he.trans hzero.symm)
      omega

/-- The items leave no choice for `head_`. -/
theorem head_unique {q' : RingQueue α} (h : Holds n q items) (h' : Holds n q' items) (ht : q.tail = q'.tail) :
    q.head = q'.head := by
  have hlt := h.head
  have hlt' := h'.head
  have hmax : q'.max = q.max := h'.max.trans h.max.symm
  have heq : (items.length + q.head) % q.max = (items.length + q'.head) % q.max := by
    rw [Nat.add_comm, ← h.tail, ht, h'.tail, hmax, Nat.add_comm]
  exact slot_inj hlt (hmax ▸ hlt') heq

end Holds

theorem Holds.max_ne (h : Holds n q items) : q.max ≠ 0 := Nat.ne_of_gt (Nat.lt_of_le_of_lt (Nat.zero_le _) h.head)

theorem Holds.emplace_room (h : Holds n q items) (hne : items.length ≠ n) (val : α) :
    q.emplace val = some ({ q with
      data := Function.update q.data q.tail (some val), tail := (q.tail + 1) % q.max }, true) := by
  rw [RingQueue.emplace, if_neg h.max_ne, if_neg fun he => hne (h.full_iff.1 he)]

theorem Holds.emplace (h : Holds n q items) (val : α) :
    ∃ q', q.exec (.push val) = some (q', (bounded n items (.push val)).2) ∧
      Holds n q' (bounded n items (.push val)).1 := by
  by_cases hfull : items.length = n
  · refine ⟨q, ?_, ?_⟩
    · rw [exec, RingQueue.emplace, if_neg h.max_ne, if_pos (h.full_iff.2 hfull), Option.map_some, bounded, if_pos hfull]
    · rwa [bounded, if_pos hfull]
  · refine ⟨{ q with data := Function.update q.data q.tail (some val), tail := (q.tail + 1) % q.max }, ?_, ?_⟩
    · rw [exec, h.emplace_room hfull, Option.map_some, bounded, if_neg hfull]
    · rw [bounded, if_neg hfull]
      exact h.push hfull val

theorem Holds.pop_nil (h : Holds n q []) : q.pop = some (q, none) := by
  rw [RingQueue.pop, if_pos (h.empty_iff.2 rfl)]

theorem Holds.pop_cons {val : α} (h : Holds n q (val :: items)) :
    q.head ≠ q.tail ∧ q.pop = some ({ q with
      data := Function.update q.data q.head none, head := (q.head + 1) &&& q.max }, some val) := by
  have hne : q.head ≠ q.tail := fun he => List.cons_ne_nil _ _ (h.empty_iff.1 he)
  have hval := h.data 0 (by rw [List.length_cons]; omega)
  rw [Nat.add_zero, Nat.mod_eq_of_lt h.head, List.getElem?_cons_zero] at hval
  refine ⟨hne, ?_⟩
  rw [RingQueue.pop, if_neg hne, hval]
  rfl

/-- After the oldest element has left, all depends on the new `head_`. -/
theorem Holds.popped_iff {val : α} (h : Holds n q (val :: items)) (head : ℕ) :
    Holds n { q with data := Function.update q.data q.head none, head } items ↔ head = (q.head + 1) % q.max := by
  constructor
  · intro h'
    exact h'.head_unique h.pop rfl
  · intro he
    rw [he]
    exact h.pop

/-- A call keeps the ring right exactly when it reduces rightly. -/
theorem step_right {b b' : Both α} {op : Op α} (h : Right n b) (hs : step n b op = some b') :
    Right n b' ↔ Wraps b op := by
  obtain ⟨⟨q, hq, hholds⟩, hres⟩ := h
  simp only [step, hq, Option.bind_some, Option.some.injEq] at hs
  subst hs
  cases op with
  | push val =>
    obtain ⟨q', hexec, hnext⟩ := hholds.emplace val
    rw [hexec]
    refine iff_of_true ⟨⟨q', rfl, hnext⟩, ?_⟩ trivial
    show b.results ++ [(bounded n b.items (.push val)).2] = _
    rw [hres]
  | pop =>
    cases hitems : b.items with
    | nil =>
      rw [hitems] at hholds
      have hempty := hholds.empty_iff.2 rfl
      simp only [exec, hholds.pop_nil, Option.map_some, Option.toList_some, hres]
      refine iff_of_true ⟨⟨q, rfl, hholds⟩, rfl⟩ fun q' hq' hne => ?_
      rw [hq] at hq'
      cases hq'
      exact absurd hempty hne
    | cons val rest =>
      rw [hitems] at hholds
      obtain ⟨hne, hpop⟩ := hholds.pop_cons
      simp only [exec, hpop, Option.map_some, Option.toList_some, hres]
      constructor
      · intro hright q' hq' _
        obtain ⟨⟨q'', hq'', h''⟩, -⟩ := hright
        rw [hq] at hq'
        cases hq'
        cases hq''
        exact (hholds.popped_iff _).1 h''
      · intro hwraps
        exact ⟨⟨_, rfl, (hholds.popped_iff _).2 (hwraps q hq hne)⟩, rfl⟩

theorem start_right_iff (n : ℕ) : Right n (start n : Both α) ↔ n + 1 < 2 ^ 64 := by
  rw [← init_holds_iff (α := α)]
  constructor
  · intro hright
    obtain ⟨⟨q, hq, hholds⟩, -⟩ := hright
    cases hq
    exact hholds
  · intro hholds
    exact ⟨⟨_, rfl, hholds⟩, rfl⟩

end

/-- **The ring is a bounded queue as long as it wraps.** For every capacity and every
sequence of calls: the ring does nothing undefined, both indices stay below `max_`, the
slots hold the elements of the queue and all results are the queue's, up to the end and
at every point before, exactly when `max_` is one more than the capacity and each `pop` of
an element reduces the next `head_` by `& max_` to what `% max_` would. -/
theorem run_fifo_iff (n : ℕ) (ops : List (Op α)) {b : Both α} (h : Run.run (step n) (start n) ops = some b) :
    Run.Along (step n) (fun s _ => Right n s) (start n) ops ∧ Right n b ↔
      n + 1 < 2 ^ 64 ∧ Run.Along (step n) Wraps (start n) ops := by
  by_cases hn : n + 1 < 2 ^ 64
  · rw [and_iff_right hn]
    exact Run.along_iff (fun _ => True) (Right n) (fun _ _ _ _ _ => trivial)
      (fun _ _ _ _ hright hs => step_right hright hs) trivial ((start_right_iff n).2 hn) h
  · refine iff_of_false (fun hall => hn ((start_right_iff (α := α) n).1 ?_)) fun hall => hn hall.1
    cases ops with
    | nil =>
      cases h
      exact hall.2
    | cons op ops => exact hall.1.1

/-- Capacity 2: an element goes in and out. -/
theorem run_fifo_iff_once :
    ∃ b, Run.run (step 2) (start 2) [.push 7, .pop] = some b ∧ Right 2 b := by
  refine ⟨_, rfl, ((run_fifo_iff 2 [.push 7, .pop] rfl).2 ⟨by decide, trivial, fun t ht => ?_⟩).2⟩
  cases ht
  refine ⟨fun q hq _ => ?_, fun _ _ => trivial⟩
  cases hq
  rfl

/-- Capacity 1: the first `pop` leaves `head_` on the slot it has emptied. The largest
capacity: `max_` is 0. -/
theorem not_bounded_one :
    (∃ b, Run.run (step 1) (start 1) [.push 7, .pop, .pop] = some b ∧ b.results ≠ b.expected) ∧
    ∃ b, Run.run (step (2 ^ 64 - 1)) (start (2 ^ 64 - 1)) [.push 7] = some b ∧ b.ring.isNone :=
  ⟨⟨_, rfl, by decide +kernel⟩, _, rfl, by decide +kernel⟩

/-! ## The end of the ring -/

/-- `k` elements, each in and out before the next. -/
def oneByOne (val : α) : ℕ → List (Op α)
  | 0 => []
  | k + 1 => oneByOne val k ++ [.push val, .pop]

theorem step_push {n : ℕ} {b : Both α} {q : RingQueue α} (hn : 1 ≤ n) (hq : b.ring = some q)
    (hitems : b.items = []) (h : q.Holds n []) (val : α) :
    ∃ b' q', step n b (.push val) = some b' ∧ b'.ring = some q' ∧ b'.items = [val] ∧ q'.Holds n [val] ∧
      q'.head = q.head := by
  have hempty : ([] : List α).length ≠ n := by
    rw [List.length_nil]
    omega
  have hexec := h.emplace_room hempty val
  refine ⟨_, { q with data := Function.update q.data q.tail (some val), tail := (q.tail + 1) % q.max }, rfl, ?_, ?_,
    h.push hempty val, rfl⟩
  · rw [hq, Option.bind_some, exec, hexec, Option.map_some, Option.map_some]
  · simp only [hitems, bounded, if_neg hempty, List.nil_append]

/-- As long as the reductions are right, `head_` counts the elements. -/
theorem oneByOne_head {n : ℕ} (hsize : n + 1 < 2 ^ 64) (val : α) :
    ∀ k ≤ n, Run.Along (step n) Wraps (start n) (oneByOne val k) →
      ∃ b q, Run.run (step n) (start n) (oneByOne val k) = some b ∧ b.ring = some q ∧ b.items = [] ∧
        q.Holds n [] ∧ q.head = k
  | 0, _, _ => ⟨_, _, rfl, rfl, rfl, (init_holds_iff n).2 hsize, rfl⟩
  | k + 1, hk, halong => by
    rw [oneByOne, Run.along_append] at halong
    obtain ⟨hbefore, hlast⟩ := halong
    obtain ⟨b, q, hrun, hq, hitems, hholds, hhead⟩ := oneByOne_head hsize val k (by omega) hbefore
    obtain ⟨b₁, q₁, hpush, hq₁, hitems₁, hholds₁, hhead₁⟩ := step_push (by omega) hq hitems hholds val
    obtain ⟨hne, hpop⟩ := hholds₁.pop_cons
    have hwraps : (q₁.head + 1) &&& q₁.max = (q₁.head + 1) % q₁.max :=
      ((hlast b hrun).2 b₁ hpush).1 q₁ hq₁ hne
    have hnext : (q₁.head + 1) % q₁.max = k + 1 := by
      rw [hhead₁, hhead, hholds₁.max]
      exact Nat.mod_eq_of_lt (by omega)
    obtain ⟨b₂, hs⟩ : ∃ b₂, step n b₁ .pop = some b₂ := ⟨_, rfl⟩
    have hrun₂ : Run.run (step n) (start n) (oneByOne val (k + 1)) = some b₂ :=
      Run.run_append.2 ⟨b, hrun, Run.run_cons.2 ⟨b₁, hpush, Run.run_cons.2 ⟨b₂, hs, rfl⟩⟩⟩
    simp only [step, hq₁, hitems₁, Option.bind_some, exec, hpop, Option.map_some, Option.some.injEq] at hs
    subst hs
    refine ⟨_, _, hrun₂, ?_, rfl, hholds₁.pop, hnext⟩
    rw [hwraps]

/-- Whatever the capacity, `n + 1` elements one by one are too many: the last of them is
in the last slot, and `n + 1` is not reduced. -/
theorem not_wraps_oneByOne {n : ℕ} (hn : 1 ≤ n) (hsize : n + 1 < 2 ^ 64) (val : α) :
    ¬ Run.Along (step n) Wraps (start n) (oneByOne val (n + 1)) := by
  intro halong
  rw [oneByOne, Run.along_append] at halong
  obtain ⟨hbefore, hlast⟩ := halong
  obtain ⟨b, q, hrun, hq, hitems, hholds, hhead⟩ := oneByOne_head hsize val n (Nat.le_refl n) hbefore
  obtain ⟨b₁, q₁, hpush, hq₁, -, hholds₁, hhead₁⟩ := step_push hn hq hitems hholds val
  have hwraps := ((hlast b hrun).2 b₁ hpush).1 q₁ hq₁ hholds₁.pop_cons.1
  rw [hhead₁, hhead, hholds₁.max, Nat.and_self, Nat.mod_self] at hwraps
  omega

end RingQueue

end Learncc
