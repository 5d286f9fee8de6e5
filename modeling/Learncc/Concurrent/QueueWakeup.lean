/-
Waiting for the two-lock queues: `threadsafe_queue_l` (inc/public/ts_queue.h)
and `threadsafe_queue_s` (inc/concurrent/threadsafe_queue.h), not stopped, with
one consumer in the blocking pop and any number of producers.

The consumer tests for an empty queue and then waits, with the head mutex held
over both; a producer changes the queue and notifies under the tail mutex or
none, so it can do so in between. `run_not_lost`: no wakeup is lost in a run
without such a notification; `untimely_loses`: after one the queue can stay full
and the consumer asleep.
-/
import Learncc.Lib.Run
import Mathlib.Logic.Function.Basic
import Mathlib.Data.List.Infix

namespace Learncc.QueueWakeup

/-- What `push` does once it has made the node: take the tail mutex, write the
data and the links of the dummy, move `tail` behind it, notify, release the
mutex. -/
inductive Stmt (α : Type)
  | lock
  | link
  | tail (value : α)
  | notify
  | unlock
deriving Repr, DecidableEq

inductive Class
  | threadsafeQueueL
  | threadsafeQueueS
deriving Repr, DecidableEq

/-- `push`: one class notifies before it releases the mutex, the other after. -/
def Class.push {α : Type} (value : α) : Class → List (Stmt α)
  | .threadsafeQueueL => [.lock, .link, .tail value, .notify, .unlock]
  | .threadsafeQueueS => [.lock, .link, .tail value, .unlock, .notify]

/-- Where the consumer is: outside, at the predicate, behind it with the answer
that the queue is empty, asleep, woken but without the head mutex, or about to
pop. -/
inductive Consumer
  | outside
  | test
  | empty
  | waiting
  | woken
  | pop
deriving Repr, DecidableEq

/-- Where `notify_one` leaves it. -/
def Consumer.wake : Consumer → Consumer
  | .waiting => .woken
  | c => c

/-- `items` are the values between `head` and `tail`; `rest` is what is left of
each producer's `push`, nothing outside. The head mutex is the one consumer's. -/
structure State (π α : Type) where
  items : List α
  tailMutex : Option π
  rest : π → List (Stmt α)
  consumer : Consumer

inductive Event (π α : Type)
  | push (p : π) (value : α)
  | produce (p : π)
  | consume
  | spurious
deriving DecidableEq

variable {π α : Type}

def init : State π α := { items := [], tailMutex := none, rest := fun _ => [], consumer := .outside }

/-- One statement of producer `p`. -/
def exec (s : State π α) (p : π) : Stmt α → Option (State π α)
  | .lock =>
    match s.tailMutex with
    | none => some { s with tailMutex := some p }
    | some _ => none
  | .link => some s
  | .tail value => some { s with items := s.items ++ [value] }
  | .notify => some { s with consumer := s.consumer.wake }
  | .unlock => some { s with tailMutex := none }

/-- The next step of the consumer. The predicate reads `tail` under the tail
mutex. -/
def consume (s : State π α) : Option (State π α) :=
  match s.consumer with
  | .outside | .woken => some { s with consumer := .test }
  | .test =>
    match s.tailMutex with
    | none => some { s with consumer := if s.items.isEmpty then .empty else .pop }
    | some _ => none
  | .empty => some { s with consumer := .waiting }
  | .pop => some { s with items := s.items.tail, consumer := .outside }
  | .waiting => none

/-- The queue is not empty and the consumer sleeps, with nobody to wake it. -/
structure Lost (s : State π α) : Prop where
  waiting : s.consumer = .waiting
  idle : ∀ p, s.rest p = []
  items : s.items ≠ []

/-- A notification of a queue that is not empty does not come between the
predicate and the wait, unless another producer has yet to notify. -/
def Timely (s : State π α) : Event π α → Prop
  | .produce p => (s.rest p).head? = some .notify → s.consumer = .empty → s.items ≠ [] →
    ∃ p', p' ≠ p ∧ .notify ∈ s.rest p'
  | .push .. | .consume | .spurious => True

/-- While the consumer is on its way to sleep or asleep, and the queue not empty,
some producer has yet to notify. -/
def Awake (s : State π α) : Prop :=
  s.consumer = .empty ∨ s.consumer = .waiting → s.items ≠ [] → ∃ p, .notify ∈ s.rest p

theorem awake_init : Awake (init : State π α) := by
  intro h
  rcases h with h | h <;> cases h

theorem Awake.not_lost {s : State π α} (h : Awake s) : ¬ Lost s := by
  intro hl
  obtain ⟨p, hp⟩ := h (.inr hl.waiting) hl.items
  rw [hl.idle p] at hp
  cases hp

/-- Each producer is somewhere in its `push`, and holds the tail mutex where it
should. -/
structure Inv (c : Class) (s : State π α) : Prop where
  suffix : ∀ p, s.rest p = [] ∨ ∃ value, s.rest p <:+ c.push value
  holds : ∀ p, .lock ∉ s.rest p → .unlock ∈ s.rest p → s.tailMutex = some p

theorem inv_init (c : Class) : Inv c (init : State π α) := ⟨fun _ => .inl rfl, nofun⟩

/-! ## The statements of a `push` -/

section

variable {c : Class} {value v : α} {stmt : Stmt α} {rest l : List (Stmt α)}

/-- What can be left of a `push`. -/
theorem suffix_push (h : l <:+ c.push value) :
    l ∈ [c.push value, .link :: (c.push value).drop 2, .tail value :: (c.push value).drop 3, (c.push value).drop 3,
      (c.push value).drop 4, []] := by
  rw [← List.mem_tails] at h
  cases c <;> simpa [Class.push, List.tails] using h

theorem lock_once (h : (stmt :: rest) <:+ c.push value) : .lock ∉ rest := by
  have hmem := suffix_push h
  cases c <;> simp [Class.push] at hmem <;>
    rcases hmem with ⟨-, rfl⟩ | ⟨-, rfl⟩ | ⟨-, rfl⟩ | ⟨-, rfl⟩ | ⟨-, rfl⟩ <;> simp

theorem unlock_once (h : (.unlock :: rest) <:+ c.push value) : .unlock ∉ rest := by
  have hmem := suffix_push h
  cases c <;> simp [Class.push] at hmem <;> simp [hmem]

/-- A producer that moves `tail` has yet to notify. -/
theorem notify_after_tail (h : (.tail v :: rest) <:+ c.push value) : .notify ∈ rest := by
  have hmem := suffix_push h
  cases c <;> simp [Class.push] at hmem <;> simp [hmem]

theorem after_notify (h : (.notify :: rest) <:+ c.push value) :
    c = .threadsafeQueueL ∧ rest = [.unlock] ∨ c = .threadsafeQueueS ∧ rest = [] := by
  have hmem := suffix_push h
  cases c <;> simp [Class.push] at hmem <;> simp [hmem]

/-- Behind the notification there is at most the mutex to release. -/
theorem notified (h : l <:+ c.push value) (hn : .notify ∉ l) :
    l = [] ∨ c = .threadsafeQueueL ∧ l = [.unlock] := by
  have hmem := suffix_push h
  cases c <;> simp [Class.push] at hmem <;> rcases hmem with rfl | rfl | rfl | rfl | rfl | rfl <;> simp at hn ⊢

end

section

variable {c : Class} {s s' t : State π α} {p : π} {stmt : Stmt α} {rest : List (Stmt α)}

theorem exec_rest (h : exec s p stmt = some t) : t.rest = s.rest := by
  cases stmt with
  | lock =>
    simp only [exec] at h
    split at h <;> cases h
    rfl
  | link | tail value | notify | unlock =>
    cases h
    rfl

theorem Inv.suffix_of (h : Inv c s) (hr : s.rest p = stmt :: rest) : ∃ value, (stmt :: rest) <:+ c.push value := by
  obtain ⟨value, hs⟩ := (h.suffix p).resolve_left (by rw [hr]; simp)
  exact ⟨value, hr ▸ hs⟩

theorem consume_rest (hs : consume s = some s') : s'.rest = s.rest ∧ s'.tailMutex = s.tailMutex := by
  unfold consume at hs
  split at hs
  · cases hs
    exact ⟨rfl, rfl⟩
  · cases hs
    exact ⟨rfl, rfl⟩
  · split at hs <;> cases hs
    exact ⟨rfl, rfl⟩
  · cases hs
    exact ⟨rfl, rfl⟩
  · cases hs
    exact ⟨rfl, rfl⟩
  · cases hs

theorem wake_ne_waiting (c : Consumer) : c.wake ≠ .waiting := by cases c <;> simp [Consumer.wake]

theorem wake_eq_empty {c : Consumer} (h : c.wake = .empty) : c = .empty := by
  cases c <;> simp [Consumer.wake] at h ⊢

theorem consume_awake (h : Awake s) (hs : consume s = some s') : Awake s' := by
  unfold consume at hs
  split at hs
  · cases hs
    exact fun hsleep => by rcases hsleep with hsleep | hsleep <;> cases hsleep
  · cases hs
    exact fun hsleep => by rcases hsleep with hsleep | hsleep <;> cases hsleep
  · split at hs
    · cases hs
      intro hsleep hitems
      simp only [List.isEmpty_iff] at hsleep
      rw [if_neg hitems] at hsleep
      rcases hsleep with hsleep | hsleep <;> cases hsleep
    · cases hs
  · rename_i hempty
    cases hs
    exact fun _ hitems => h (.inl hempty) hitems
  · cases hs
    exact fun hsleep => by rcases hsleep with hsleep | hsleep <;> cases hsleep
  · cases hs

end

section

variable [DecidableEq π]

def setRest (s : State π α) (p : π) (l : List (Stmt α)) : State π α :=
  { s with rest := Function.update s.rest p l }

def produce (s : State π α) (p : π) : Option (State π α) :=
  match s.rest p with
  | [] => none
  | stmt :: rest => (exec s p stmt).map fun t => setRest t p rest

def step (c : Class) (s : State π α) : Event π α → Option (State π α)
  | .push p value =>
    match s.rest p with
    | [] => some (setRest s p (c.push value))
    | _ :: _ => none
  | .produce p => produce s p
  | .consume => consume s
  | .spurious =>
    match s.consumer with
    | .waiting => some { s with consumer := .woken }
    | _ => none

variable {c : Class} {s s' t : State π α} {p p' : π} {e : Event π α} {stmt : Stmt α} {rest l : List (Stmt α)}

@[simp] theorem setRest_self : (setRest s p l).rest p = l := Function.update_self ..

@[simp] theorem setRest_of_ne (h : p' ≠ p) : (setRest s p l).rest p' = s.rest p' := Function.update_of_ne h ..

/-- A producer moves by the first of its statements. -/
theorem produce_eq_some_iff :
    produce s p = some s' ↔
      ∃ stmt rest t, s.rest p = stmt :: rest ∧ exec s p stmt = some t ∧ s' = setRest t p rest := by
  unfold produce
  cases hr : s.rest p with
  | nil => simp
  | cons stmt rest =>
    simp only [Option.map_eq_some_iff, List.cons.injEq]
    constructor
    · intro he
      obtain ⟨t, ht, rfl⟩ := he
      exact ⟨stmt, rest, t, ⟨rfl, rfl⟩, ht, rfl⟩
    · intro he
      obtain ⟨_, _, t, ⟨rfl, rfl⟩, ht, rfl⟩ := he
      exact ⟨t, ht, rfl⟩

/-! ## The tail mutex -/

/-- What is left of each producer stays a part of its `push`. -/
theorem Inv.setRest (h : Inv c s) (hrest : t.rest = s.rest) (hl : l = [] ∨ ∃ value, l <:+ c.push value)
    (hp : .lock ∉ l → .unlock ∈ l → t.tailMutex = some p)
    (hother : ∀ p', p' ≠ p → s.tailMutex = some p' → .lock ∉ s.rest p' → .unlock ∈ s.rest p' → t.tailMutex = some p') :
    Inv c (setRest t p l) := by
  refine ⟨fun p' => ?_, fun p' => ?_⟩
  · by_cases hpp : p' = p
    · subst hpp
      rw [setRest_self]
      exact hl
    · rw [setRest_of_ne hpp, hrest]
      exact h.suffix p'
  · by_cases hpp : p' = p
    · subst hpp
      rw [setRest_self]
      exact hp
    · rw [setRest_of_ne hpp, hrest]
      exact fun hlock hunlock => hother p' hpp (h.holds p' hlock hunlock) hlock hunlock

theorem produce_inv (h : Inv c s) (hs : produce s p = some s') : Inv c s' := by
  obtain ⟨stmt, rest, t, hr, ht, rfl⟩ := produce_eq_some_iff.1 hs
  obtain ⟨value, hsuf⟩ := h.suffix_of hr
  have hl : rest = [] ∨ ∃ value, rest <:+ c.push value := .inr ⟨value, (List.suffix_cons stmt rest).trans hsuf⟩
  have hmine : stmt ≠ .lock → .unlock ∈ stmt :: rest → s.tailMutex = some p := by
    intro hne hunlock
    refine h.holds p ?_ (hr ▸ hunlock)
    rw [hr]
    exact List.not_mem_cons_of_ne_of_not_mem (Ne.symm hne) (lock_once hsuf)
  refine h.setRest (exec_rest ht) hl ?_ ?_
  · intro hlock hunlock
    cases stmt with
    | lock =>
      simp only [exec] at ht
      split at ht <;> cases ht
      rfl
    | link | tail value | notify =>
      cases ht
      exact hmine (by simp) (List.mem_cons_of_mem _ hunlock)
    | unlock => exact absurd hunlock (unlock_once hsuf)
  · intro p' hpp hheld _ _
    cases stmt with
    | lock =>
      simp only [exec] at ht
      split at ht
      · rename_i hfree
        rw [hfree] at hheld
        cases hheld
      · cases ht
    | link | tail value | notify =>
      cases ht
      exact hheld
    | unlock =>
      have hp := hmine (by simp) List.mem_cons_self
      rw [hheld] at hp
      exact absurd (Option.some.inj hp) hpp

theorem step_inv (h : Inv c s) (hs : step c s e = some s') : Inv c s' := by
  cases e with
  | push p value =>
    simp only [step] at hs
    split at hs
    · cases hs
      refine h.setRest rfl (.inr ⟨value, List.suffix_refl _⟩) (fun hlock => ?_) fun _ _ hheld _ _ => hheld
      exact absurd (by cases c <;> simp [Class.push]) hlock
    · cases hs
  | produce p => exact produce_inv h hs
  | consume =>
    obtain ⟨hrest, hmutex⟩ := consume_rest hs
    exact ⟨fun p => by rw [hrest]; exact h.suffix p, fun p => by rw [hrest, hmutex]; exact h.holds p⟩
  | spurious =>
    simp only [step] at hs
    split at hs
    · cases hs
      exact ⟨h.suffix, h.holds⟩
    · cases hs

/-! ## Waking -/

theorem notify_mem_setRest (hrest : t.rest = s.rest) (h : .notify ∈ s.rest p') (hp : p' = p → .notify ∈ l) :
    ∃ q, .notify ∈ (setRest t p l).rest q := by
  refine ⟨p', ?_⟩
  by_cases hpp : p' = p
  · subst hpp
    rw [setRest_self]
    exact hp rfl
  · rw [setRest_of_ne hpp, hrest]
    exact h

theorem produce_awake (hi : Inv c s) (h : Awake s) (ht : Timely s (.produce p)) (hs : produce s p = some s') :
    Awake s' := by
  obtain ⟨stmt, rest, t, hr, hexec, rfl⟩ := produce_eq_some_iff.1 hs
  obtain ⟨value, hsuf⟩ := hi.suffix_of hr
  intro hsleep hitems
  -- Anything but a notification leaves what each producer owes.
  have hkeep : stmt ≠ .notify → (∃ q, .notify ∈ s.rest q) → ∃ q, .notify ∈ (setRest t p rest).rest q := by
    intro hne he
    obtain ⟨q, hq⟩ := he
    refine notify_mem_setRest (exec_rest hexec) hq fun hqp => ?_
    rw [hqp, hr] at hq
    exact (List.mem_cons.1 hq).resolve_left (Ne.symm hne)
  cases stmt with
  | lock =>
    simp only [exec] at hexec
    split at hexec <;> cases hexec
    exact hkeep (by simp) (h hsleep hitems)
  | link | unlock =>
    cases hexec
    exact hkeep (by simp) (h hsleep hitems)
  | tail value =>
    exact ⟨p, by rw [setRest_self]; exact notify_after_tail hsuf⟩
  | notify =>
    cases hexec
    rcases hsleep with hempty | hwait
    · obtain ⟨p', hpp, hp'⟩ := ht (by rw [hr]; rfl) (wake_eq_empty hempty) hitems
      exact ⟨p', by rw [setRest_of_ne hpp]; exact hp'⟩
    · exact absurd hwait (wake_ne_waiting _)

theorem step_awake (hi : Inv c s) (h : Awake s) (ht : Timely s e) (hs : step c s e = some s') : Awake s' := by
  cases e with
  | push p value =>
    simp only [step] at hs
    split at hs
    · rename_i hout
      cases hs
      intro hsleep hitems
      obtain ⟨q, hq⟩ := h hsleep hitems
      refine notify_mem_setRest rfl hq fun hqp => ?_
      rw [hqp, hout] at hq
      cases hq
    · cases hs
  | produce p => exact produce_awake hi h ht hs
  | consume => exact consume_awake h hs
  | spurious =>
    simp only [step] at hs
    split at hs
    · cases hs
      exact fun hsleep => by rcases hsleep with hsleep | hsleep <;> cases hsleep
    · cases hs

/-! ## Runs -/

theorem run_inv {events : List (Event π α)} (h : Run.run (step c) init events = some s) : Inv c s :=
  Run.run_invariant (Inv c) (fun _ _ _ hi hs => step_inv hi hs) (inv_init c) h

/-- **No lost wakeup.** In a run in which no notification of a queue that is not
empty comes between predicate and wait with no other to follow, the consumer is
never left asleep with the queue not empty and nobody inside `push`. -/
theorem run_not_lost {events : List (Event π α)} (hc : Run.Along (step c) Timely init events)
    (h : Run.run (step c) init events = some s) : ¬ Lost s := by
  have hawake := Run.run_along_invariant (C := Timely) (fun s => Inv c s ∧ Awake s)
    (fun _ _ _ hi ht hs => ⟨step_inv hi.1 hs, step_awake hi.1 hi.2 ht hs⟩) ⟨inv_init c, awake_init⟩ hc h
  exact hawake.2.not_lost

/-- After a notification at the wrong time the consumer can be left asleep. -/
theorem untimely_loses (hi : Inv c s) (ht : ¬ Timely s e) (hs : step c s e = some s') :
    ∃ events u, Run.run (step c) s' events = some u ∧ Lost u := by
  cases e with
  | push p value | consume | spurious => exact absurd trivial ht
  | produce p =>
    simp only [Timely, not_forall, not_exists, not_and] at ht
    obtain ⟨hhead, hempty, hitems, hno⟩ := ht
    obtain ⟨rest, hr⟩ := List.head?_eq_some_iff.1 hhead
    obtain ⟨_, _, t, hr', hexec, rfl⟩ := produce_eq_some_iff.1 hs
    obtain ⟨rfl, rfl⟩ := List.cons.inj (hr'.symm.trans hr)
    cases hexec
    obtain ⟨value, hsuf⟩ := hi.suffix_of hr
    have hmine : c = .threadsafeQueueL → s.tailMutex = some p := by
      rintro rfl
      obtain ⟨-, rfl⟩ | ⟨hc, -⟩ := after_notify hsuf
      · exact hi.holds p (by rw [hr]; simp) (by rw [hr]; simp)
      · cases hc
    -- Whoever else is inside `push` would have to hold the mutex that this one holds.
    have hother : ∀ p', p' ≠ p → s.rest p' = [] := by
      intro p' hpp
      rcases hi.suffix p' with hnil | ⟨v, hv⟩
      · exact hnil
      · refine (notified hv (hno p' hpp)).resolve_right fun he => ?_
        obtain ⟨hc, hrest⟩ := he
        have hheld := hi.holds p' (by rw [hrest]; simp) (by rw [hrest]; simp)
        rw [hmine hc] at hheld
        exact hpp (Option.some.inj hheld).symm
    have hidle : ∀ (t : State π α), t.rest = s.rest → ∀ p', (setRest t p []).rest p' = [] := by
      intro t htr p'
      by_cases hpp : p' = p
      · rw [hpp, setRest_self]
      · rw [setRest_of_ne hpp, htr, hother p' hpp]
    obtain ⟨rfl, rfl⟩ | ⟨rfl, rfl⟩ := after_notify hsuf
    · refine ⟨[.consume, .produce p], _, ?_, rfl, hidle { s with consumer := .waiting, tailMutex := none } rfl, hitems⟩
      simp [Run.run, step, consume, produce, exec, setRest, hempty, Consumer.wake]
    · refine ⟨[.consume], _, ?_, rfl, hidle { s with consumer := .waiting } rfl, hitems⟩
      simp [Run.run, step, consume, setRest, hempty, Consumer.wake]

end

/-- A `push` by the one producer, while the consumer is asleep. -/
def pushAsleep : List (Event Unit ℕ) :=
  [.consume, .consume, .consume, .push () 7, .produce (), .produce (), .produce (), .produce (), .produce ()]

theorem run_not_lost_pushAsleep : ∃ s, Run.run (step .threadsafeQueueS) init pushAsleep = some s ∧ ¬ Lost s := by
  have hsome : (Run.run (step .threadsafeQueueS) init pushAsleep).map (fun s => s.items) = some [7] := by decide
  obtain ⟨s, hs, -⟩ := Option.map_eq_some_iff.1 hsome
  have hc : Run.Along (step .threadsafeQueueS) Timely init pushAsleep := by
    refine Run.along_mono (C := fun s e => s.consumer = .empty → e ≠ .produce ()) (fun s e hne => ?_) (by decide)
    cases e with
    | produce p => exact fun _ hempty => absurd rfl (hne hempty)
    | push p value | consume | spurious => trivial
  exact ⟨s, hs, run_not_lost hc hs⟩

/-- The same `push` between predicate and wait. -/
def pushBetween : List (Event Unit ℕ) :=
  [.consume, .consume, .push () 7, .produce (), .produce (), .produce (), .produce (), .produce (), .consume]

theorem pushBetween_loses (c : Class) : ∃ s, Run.run (step c) init pushBetween = some s ∧ Lost s := by
  have hsome : (Run.run (step c) init pushBetween).map (fun s => (s.consumer, s.rest (), s.items)) =
      some (.waiting, [], [7]) := by
    cases c <;> rfl
  obtain ⟨s, hs, he⟩ := Option.map_eq_some_iff.1 hsome
  simp only [Prod.mk.injEq] at he
  obtain ⟨hwait, hidle, hitems⟩ := he
  exact ⟨s, hs, hwait, fun _ => hidle, by rw [hitems]; simp⟩

theorem lost_wakeup :
    (∃ s, Run.run (step .threadsafeQueueL) init pushBetween = some s ∧ Lost s) ∧
      ∃ s, Run.run (step .threadsafeQueueS) init pushBetween = some s ∧ Lost s :=
  ⟨pushBetween_loses _, pushBetween_loses _⟩

end Learncc.QueueWakeup
