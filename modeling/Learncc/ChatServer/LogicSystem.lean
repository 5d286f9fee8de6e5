/-
The message queue of `logic_system` (src/chat_server/logic_system.cc): sessions
post from any thread, one worker thread takes the messages, and the destructor
stops it. A section under the mutex is a step, except that the worker keeps the
mutex over several; a poster notifies in a step of its own, after it has
unlocked.

`messages_handled` says of every run that the messages are dequeued in posting
order and each handled once, that the worker does not sleep over one, and how
many steps of its own it needs for those that were posted before the stop.
-/
import Learncc.Lib.Run
import Mathlib.Data.Int.Notation
import Mathlib.Data.List.Basic

namespace Learncc.Logic

/-- `logic_node` and its `recv_node`. -/
structure LogicNode where
  session : ℕ
  msgId : ℤ
  data : List UInt8
  curLen : ℕ
deriving Repr, DecidableEq

/-- A call of a handler: the session, the id, and the body. -/
structure Handled where
  session : ℕ
  msgId : ℤ
  body : List UInt8
deriving Repr, DecidableEq

/-- What the handler is called with. -/
def LogicNode.handled (msg : LogicNode) : Handled := ⟨msg.session, msg.msgId, msg.data.take msg.curLen⟩

/-- Where the worker is in `deal_msg`: before the lock, at the test of the wait,
asleep, woken but without the mutex, at the front message, with it handled, at
the test of the loop that empties the queue, or out of the thread function. The
flag says that it is in that loop. -/
inductive Worker
  | top
  | check
  | waiting
  | notified
  | front (stopping : Bool)
  | popping (stopping : Bool)
  | drain
  | exited
deriving Repr, DecidableEq

/-- The worker keeps the mutex. -/
def Worker.locks : Worker → Bool
  | .check | .front _ | .popping _ | .drain => true
  | .top | .waiting | .notified | .exited => false

/-- Where `notify_one` leaves it. -/
def Worker.wake : Worker → Worker
  | .waiting => .notified
  | w => w

/-- `notifying` posters are between their push and their notification. The
records: what was posted, how much of it before the stop, what was dequeued, and
the calls of handlers. -/
structure LogicSystem where
  que : List LogicNode
  stop : Bool
  worker : Worker
  notifying : ℕ
  posted : List LogicNode
  due : ℕ
  dequeued : List LogicNode
  called : List Handled

inductive Event
  | post (msg : LogicNode)
  | notify
  | stop
  | spurious
  | work
deriving DecidableEq

namespace LogicSystem

def init : LogicSystem :=
  { que := [], stop := false, worker := .top, notifying := 0, posted := [], due := 0, dequeued := [], called := [] }

/-- `msg_que_.pop()`, and where the worker is then. -/
def pop (s : LogicSystem) (stopping : Bool) : Option LogicSystem :=
  match s.que with
  | [] => none
  | msg :: rest =>
    some { s with que := rest, dequeued := s.dequeued ++ [msg], worker := if stopping then .drain else .top }

variable (registered : ℤ → Bool)

/-- The next step of `deal_msg`. -/
def work (s : LogicSystem) : Option LogicSystem :=
  match s.worker with
  | .top | .notified => some { s with worker := .check }
  | .check =>
    if s.que = [] ∧ s.stop = false then some { s with worker := .waiting }
    else if s.stop then some { s with worker := .drain }
    else some { s with worker := .front false }
  | .front stopping =>
    match s.que with
    | [] => none
    | msg :: _ =>
      if registered msg.msgId then some { s with called := s.called ++ [msg.handled], worker := .popping stopping }
      else s.pop stopping
  | .popping stopping => s.pop stopping
  | .drain => if s.que = [] then some { s with worker := .exited } else some { s with worker := .front true }
  | .waiting | .exited => none

def step (s : LogicSystem) : Event → Option LogicSystem
  | .post msg =>
    if s.worker.locks then none
    else
      some { s with
        que := s.que ++ [msg]
        notifying := if (s.que ++ [msg]).length = 1 then s.notifying + 1 else s.notifying
        posted := s.posted ++ [msg]
        due := if s.stop then s.due else s.due + 1 }
  | .notify => if s.notifying = 0 then none else some { s with notifying := s.notifying - 1, worker := s.worker.wake }
  | .stop => if s.worker.locks then none else some { s with stop := true, worker := s.worker.wake }
  | .spurious => if s.worker = .waiting then some { s with worker := .notified } else none
  | .work => s.work registered

/-- The messages whose turn has come: those dequeued, and the one in front when
its handler has been called. -/
def begun (s : LogicSystem) : List LogicNode :=
  match s.worker with
  | .popping _ => s.dequeued ++ s.que.take 1
  | _ => s.dequeued

/-- The calls of handlers that messages are good for. -/
def handlers (msgs : List LogicNode) : List Handled :=
  (msgs.filter fun msg => registered msg.msgId).map LogicNode.handled

structure Inv (s : LogicSystem) : Prop where
  order : s.posted = s.dequeued ++ s.que
  called : s.called = handlers registered s.begun
  due_le : s.due ≤ s.posted.length
  due_eq : s.stop = false → s.due = s.posted.length
  front : ∀ b, s.worker = .front b → s.que ≠ [] ∧ (b = true → s.stop = true)
  popping : ∀ b, s.worker = .popping b →
    ∃ msg rest, s.que = msg :: rest ∧ registered msg.msgId = true ∧ (b = true → s.stop = true)
  waiting : s.worker = .waiting → s.stop = false ∧ (s.que = [] ∨ 0 < s.notifying)
  drain : s.worker = .drain → s.stop = true
  exited : s.worker = .exited → s.stop = true ∧ s.due ≤ s.dequeued.length

variable {registered} {s s' : LogicSystem} {e : Event}

theorem handlers_append (msgs : List LogicNode) (msg : LogicNode) :
    handlers registered (msgs ++ [msg]) =
      handlers registered msgs ++ if registered msg.msgId then [msg.handled] else [] := by
  unfold handlers
  rw [List.filter_append, List.map_append]
  congr 1
  by_cases hr : registered msg.msgId = true
  · rw [if_pos hr, List.filter_cons_of_pos (p := fun msg : LogicNode => registered msg.msgId) hr]
    rfl
  · rw [if_neg hr, List.filter_cons_of_neg (p := fun msg : LogicNode => registered msg.msgId) hr]
    rfl

theorem wake_cases (w : Worker) : w = .waiting ∧ w.wake = .notified ∨ w ≠ .waiting ∧ w.wake = w := by
  cases w <;> simp [Worker.wake]

theorem begun_eq (h : ∀ b, s.worker ≠ .popping b) : s.begun = s.dequeued := by
  unfold begun
  split
  · rename_i b hb
    exact absurd hb (h b)
  · rfl

theorem init_inv : init.Inv registered := by
  refine ⟨rfl, rfl, Nat.le_refl _, fun _ => rfl, ?_, ?_, ?_, ?_, ?_⟩ <;> intros <;> rename_i h <;> cases h

/-- The worker is woken or left alone. -/
theorem Inv.woken {notifying : ℕ} {stop : Bool} (h : s.Inv registered) (hstop : s.stop = true → stop = true) :
    Inv registered { s with notifying, stop, worker := s.worker.wake } := by
  have hdue : stop = false → s.due = s.posted.length := by
    intro hs
    refine h.due_eq (Bool.eq_false_iff.2 fun ht => ?_)
    rw [hstop ht] at hs
    cases hs
  rcases wake_cases s.worker with ⟨hw, hwake⟩ | ⟨hw, hwake⟩
  · have hcalled := h.called
    simp only [begun, hw] at hcalled
    rw [hwake]
    exact ⟨h.order, hcalled, h.due_le, hdue, fun b hb => (by cases hb), fun b hb => (by cases hb),
      fun hb => (by cases hb), fun hb => (by cases hb), fun hb => (by cases hb)⟩
  · rw [hwake]
    refine ⟨h.order, h.called, h.due_le, hdue, fun b hb => ?_, fun b hb => ?_, fun hb => absurd hb hw,
      fun hb => hstop (h.drain hb), fun hb => ?_⟩
    · obtain ⟨hque, hs⟩ := h.front b hb
      exact ⟨hque, fun ht => hstop (hs ht)⟩
    · obtain ⟨msg, rest, hque, hr, hs⟩ := h.popping b hb
      exact ⟨msg, rest, hque, hr, fun ht => hstop (hs ht)⟩
    · obtain ⟨hs, hle⟩ := h.exited hb
      exact ⟨hstop hs, hle⟩

/-- The worker goes on to a place where it has nothing in hand. -/
theorem Inv.goOn {w : Worker} (h : s.Inv registered) (hnot : ∀ b, s.worker ≠ .popping b)
    (hw : w = .check ∨ w = .front s.stop ∧ s.que ≠ [] ∨ w = .drain ∧ s.stop = true ∨
      w = .waiting ∧ s.stop = false ∧ s.que = [] ∨ w = .exited ∧ s.stop = true ∧ s.que = []) :
    Inv registered { s with worker := w } := by
  have hcalled := h.called
  rw [begun_eq hnot] at hcalled
  rcases hw with rfl | ⟨rfl, hque⟩ | ⟨rfl, hs⟩ | ⟨rfl, hs, hque⟩ | ⟨rfl, hs, hque⟩
  · exact ⟨h.order, hcalled, h.due_le, h.due_eq, fun b hb => (by cases hb), fun b hb => (by cases hb),
      fun hb => (by cases hb), fun hb => (by cases hb), fun hb => (by cases hb)⟩
  · refine ⟨h.order, hcalled, h.due_le, h.due_eq, fun b hb => ?_, fun b hb => (by cases hb),
      fun hb => (by cases hb), fun hb => (by cases hb), fun hb => (by cases hb)⟩
    cases hb
    exact ⟨hque, id⟩
  · exact ⟨h.order, hcalled, h.due_le, h.due_eq, fun b hb => (by cases hb), fun b hb => (by cases hb),
      fun hb => (by cases hb), fun _ => hs, fun hb => (by cases hb)⟩
  · exact ⟨h.order, hcalled, h.due_le, h.due_eq, fun b hb => (by cases hb), fun b hb => (by cases hb),
      fun _ => ⟨hs, .inl hque⟩, fun hb => (by cases hb), fun hb => (by cases hb)⟩
  · refine ⟨h.order, hcalled, h.due_le, h.due_eq, fun b hb => (by cases hb), fun b hb => (by cases hb),
      fun hb => (by cases hb), fun hb => (by cases hb), fun _ => ⟨hs, ?_⟩⟩
    have hlen := congrArg List.length h.order
    rw [List.length_append, hque] at hlen
    have hdue := h.due_le
    simp only [List.length_nil, Nat.add_zero] at hlen
    show s.due ≤ s.dequeued.length
    omega

/-- The front message leaves, when its handler has been called or there is none. -/
theorem Inv.popped {msg : LogicNode} {rest : List LogicNode} {stopping : Bool} (h : s.Inv registered)
    (hque : s.que = msg :: rest) (hcalled : s.called = handlers registered (s.dequeued ++ [msg]))
    (hstop : stopping = true → s.stop = true) (hp : s.pop stopping = some s') : s'.Inv registered := by
  unfold pop at hp
  rw [hque] at hp
  cases hp
  have horder : s.posted = s.dequeued ++ [msg] ++ rest := by
    rw [h.order, hque, List.append_assoc]
    rfl
  have hbegun : begun { s with
      que := rest, dequeued := s.dequeued ++ [msg], worker := if stopping then Worker.drain else .top } =
        s.dequeued ++ [msg] := by
    cases stopping <;> rfl
  refine ⟨horder, ?_, h.due_le, h.due_eq, ?_, ?_, ?_, ?_, ?_⟩
  · rw [hbegun]
    exact hcalled
  · intro b hb
    cases stopping <;> cases hb
  · intro b hb
    cases stopping <;> cases hb
  · intro hb
    cases stopping <;> cases hb
  · intro hb
    cases stopping with
    | false => cases hb
    | true => exact hstop rfl
  · intro hb
    cases stopping <;> cases hb

theorem post_inv {msg : LogicNode} (h : s.Inv registered) (hs : s.step registered (.post msg) = some s') :
    s'.Inv registered := by
  simp only [step] at hs
  split at hs
  · cases hs
  · rename_i hlocks
    cases hs
    have hbegun : ∀ b, s.worker ≠ .popping b := fun b hb => hlocks (by rw [hb]; rfl)
    refine ⟨?_, ?_, ?_, ?_, ?_, ?_, ?_, ?_, ?_⟩
    · show s.posted ++ [msg] = s.dequeued ++ (s.que ++ [msg])
      rw [h.order, List.append_assoc]
    · have hcalled := h.called
      rw [begun_eq hbegun] at hcalled
      refine hcalled.trans (congrArg (handlers registered) (Eq.symm ?_))
      exact begun_eq hbegun
    · have hdue := h.due_le
      show (if s.stop then s.due else s.due + 1) ≤ (s.posted ++ [msg]).length
      rw [List.length_append, List.length_singleton]
      split <;> omega
    · intro hstop
      show (if s.stop then s.due else s.due + 1) = (s.posted ++ [msg]).length
      have hdue := h.due_eq hstop
      rw [if_neg (by simpa using hstop), List.length_append, List.length_singleton, hdue]
    · exact fun b hb => absurd (show s.worker.locks = true by rw [show s.worker = .front b from hb]; rfl) hlocks
    · exact fun b hb => absurd hb (hbegun b)
    · intro hb
      obtain ⟨hstop, hor⟩ := h.waiting hb
      refine ⟨hstop, .inr ?_⟩
      show 0 < if (s.que ++ [msg]).length = 1 then s.notifying + 1 else s.notifying
      split
      · exact Nat.succ_pos _
      · rename_i hlen
        refine hor.resolve_left fun hque => hlen ?_
        rw [hque]
        rfl
    · exact fun hb => absurd (show s.worker.locks = true by rw [show s.worker = .drain from hb]; rfl) hlocks
    · intro hb
      obtain ⟨hstop, hle⟩ := h.exited hb
      refine ⟨hstop, ?_⟩
      show (if s.stop then s.due else s.due + 1) ≤ s.dequeued.length
      rw [if_pos hstop]
      exact hle

theorem work_inv (h : s.Inv registered) (hs : s.work registered = some s') : s'.Inv registered := by
  unfold work at hs
  split at hs
  · rename_i hw
    cases hs
    refine h.goOn (fun b hb => ?_) (.inl rfl)
    rw [hw] at hb
    cases hb
  · rename_i hw
    cases hs
    refine h.goOn (fun b hb => ?_) (.inl rfl)
    rw [hw] at hb
    cases hb
  · -- The test of the wait.
    rename_i hw
    have hnot : ∀ b, s.worker ≠ .popping b := fun b hb => by
      rw [hw] at hb
      cases hb
    split at hs
    · rename_i hempty
      cases hs
      exact h.goOn hnot (.inr (.inr (.inr (.inl ⟨rfl, hempty.2, hempty.1⟩))))
    · rename_i hempty
      split at hs
      · rename_i hstop
        cases hs
        exact h.goOn hnot (.inr (.inr (.inl ⟨rfl, hstop⟩)))
      · rename_i hstop
        cases hs
        have hfalse : s.stop = false := Bool.eq_false_iff.2 hstop
        refine h.goOn hnot (.inr (.inl ⟨?_, fun hque => hempty ⟨hque, hfalse⟩⟩))
        rw [hfalse]
  · -- The front message.
    rename_i stopping hw
    obtain ⟨-, hstop⟩ := h.front stopping hw
    have hcalled := h.called
    simp only [begun, hw] at hcalled
    split at hs
    · cases hs
    · rename_i msg rest hque
      split at hs
      · rename_i hr
        cases hs
        refine ⟨h.order, ?_, h.due_le, h.due_eq, fun b hb => (by cases hb), fun b hb => ?_, fun hb => (by cases hb),
          fun hb => (by cases hb), fun hb => (by cases hb)⟩
        · show s.called ++ [msg.handled] = handlers registered (s.dequeued ++ s.que.take 1)
          have htake : s.que.take 1 = [msg] := by rw [hque]; rfl
          rw [htake, handlers_append, if_pos hr, hcalled]
        · cases hb
          exact ⟨msg, rest, hque, hr, hstop⟩
      · rename_i hr
        refine h.popped hque ?_ hstop hs
        rw [handlers_append, if_neg hr, List.append_nil]
        exact hcalled
  · rename_i stopping hw
    obtain ⟨msg, rest, hque, hr, hstop⟩ := h.popping stopping hw
    have hcalled := h.called
    have htake : s.que.take 1 = [msg] := by rw [hque]; rfl
    simp only [begun, hw, htake] at hcalled
    exact h.popped hque hcalled hstop hs
  · -- The test of the loop after the stop.
    rename_i hw
    have hnot : ∀ b, s.worker ≠ .popping b := fun b hb => by
      rw [hw] at hb
      cases hb
    have hstop := h.drain hw
    split at hs
    · rename_i hque
      cases hs
      exact h.goOn hnot (.inr (.inr (.inr (.inr ⟨rfl, hstop, hque⟩))))
    · rename_i hque
      cases hs
      refine h.goOn hnot (.inr (.inl ⟨?_, hque⟩))
      rw [hstop]
  · cases hs
  · cases hs

theorem step_inv (h : s.Inv registered) (hs : s.step registered e = some s') : s'.Inv registered := by
  cases e with
  | post msg => exact post_inv h hs
  | notify =>
    simp only [step] at hs
    split at hs
    · cases hs
    · cases hs
      exact h.woken id
  | stop =>
    simp only [step] at hs
    split at hs
    · cases hs
    · cases hs
      exact h.woken fun _ => rfl
  | spurious =>
    simp only [step] at hs
    split at hs
    · rename_i hw
      cases hs
      have hinv : Inv registered { s with notifying := s.notifying, stop := s.stop, worker := s.worker.wake } :=
        h.woken id
      rwa [hw] at hinv
    · cases hs
  | work => exact work_inv h hs

theorem run_inv {events : List Event} (h : Run.run (step registered) init events = some s) : s.Inv registered :=
  Run.run_invariant (Inv registered) (fun _ _ _ hi hs => step_inv hi hs) init_inv h

/-! ## How far the worker is -/

/-- The steps of its own the worker needs until `k` messages are dequeued, while
it has not got so far. -/
def rank (k : ℕ) (s : LogicSystem) : ℕ :=
  5 * (k - s.dequeued.length) +
    match s.worker with
    | .top | .waiting | .notified => 5
    | .check => 4
    | .drain => 3
    | .front _ => 2
    | .popping _ => 1
    | .exited => 0

theorem rank_pop {k : ℕ} {stopping : Bool} (hk : s.dequeued.length < k) (hp : s.pop stopping = some s') :
    rank k s' ≤ 5 * (k - s.dequeued.length) := by
  unfold pop at hp
  split at hp
  · cases hp
  · cases hp
    have hlen : ∀ msg : LogicNode, (s.dequeued ++ [msg]).length = s.dequeued.length + 1 := fun msg =>
      List.length_append
    unfold rank
    simp only [hlen]
    cases stopping <;> simp only [Bool.false_eq_true, if_false, if_true] <;> omega

/-- The steps of the others do not set the worker back. -/
theorem rank_wake (k : ℕ) (s : LogicSystem) (notifying : ℕ) (stop : Bool) :
    rank k { s with notifying, stop, worker := s.worker.wake } = rank k s := by
  unfold rank
  cases s.worker <;> rfl

/-- Until enough messages are dequeued each step of the worker brings it nearer. -/
theorem rank_work {k : ℕ} (h : s.Inv registered) (hdue : k ≤ s.due) (hk : s.dequeued.length < k)
    (hs : s.work registered = some s') : rank k s' + 1 ≤ rank k s := by
  have hque : s.que ≠ [] := by
    intro hque
    have hlen := congrArg List.length h.order
    rw [hque, List.append_nil] at hlen
    have hle := h.due_le
    omega
  unfold work at hs
  split at hs
  · rename_i hw
    cases hs
    simp [rank, hw]
  · rename_i hw
    cases hs
    simp [rank, hw]
  · rename_i hw
    rw [if_neg fun he => hque he.1] at hs
    split at hs <;> cases hs <;> simp [rank, hw]
  · rename_i stopping hw
    have hrank : rank k s = 5 * (k - s.dequeued.length) + 2 := by simp [rank, hw]
    split at hs
    · cases hs
    · split at hs
      · cases hs
        simp [rank, hw]
      · have hpop := rank_pop hk hs
        omega
  · rename_i stopping hw
    have hrank : rank k s = 5 * (k - s.dequeued.length) + 1 := by simp [rank, hw]
    have hpop := rank_pop hk hs
    omega
  · rename_i hw
    rw [if_neg hque] at hs
    cases hs
    simp [rank, hw]
  · cases hs
  · cases hs

/-- The steps of the worker in a run. -/
def works (events : List Event) : ℕ := events.count .work

theorem pop_grows {stopping : Bool} (hp : s.pop stopping = some s') :
    s'.due = s.due ∧ s.dequeued.length ≤ s'.dequeued.length := by
  unfold pop at hp
  split at hp
  · cases hp
  · cases hp
    refine ⟨rfl, ?_⟩
    rw [List.length_append]
    exact Nat.le_add_right _ _

theorem work_grows (hs : s.work registered = some s') :
    s'.due = s.due ∧ s.dequeued.length ≤ s'.dequeued.length := by
  unfold work at hs
  split at hs
  · cases hs
    exact ⟨rfl, Nat.le_refl _⟩
  · cases hs
    exact ⟨rfl, Nat.le_refl _⟩
  · split at hs
    · cases hs
      exact ⟨rfl, Nat.le_refl _⟩
    · split at hs <;> cases hs <;> exact ⟨rfl, Nat.le_refl _⟩
  · split at hs
    · cases hs
    · split at hs
      · cases hs
        exact ⟨rfl, Nat.le_refl _⟩
      · exact pop_grows hs
  · exact pop_grows hs
  · split at hs <;> cases hs <;> exact ⟨rfl, Nat.le_refl _⟩
  · cases hs
  · cases hs

theorem step_grows (hs : s.step registered e = some s') :
    s.due ≤ s'.due ∧ s.dequeued.length ≤ s'.dequeued.length := by
  cases e with
  | post msg =>
    simp only [step] at hs
    split at hs
    · cases hs
    · cases hs
      refine ⟨?_, Nat.le_refl _⟩
      show s.due ≤ if s.stop then s.due else s.due + 1
      split
      · exact Nat.le_refl _
      · exact Nat.le_succ _
  | notify | stop | spurious =>
    simp only [step] at hs
    split at hs <;> cases hs
    exact ⟨Nat.le_refl _, Nat.le_refl _⟩
  | work =>
    obtain ⟨hdue, hlen⟩ := work_grows hs
    exact ⟨Nat.le_of_eq hdue.symm, hlen⟩

/-- Whoever else takes a step, the worker is as near as it was. -/
theorem rank_step {k : ℕ} (hs : s.step registered e = some s') (he : e ≠ .work) : rank k s' = rank k s := by
  cases e with
  | post msg =>
    simp only [step] at hs
    split at hs
    · cases hs
    · cases hs
      rfl
  | notify =>
    simp only [step] at hs
    split at hs
    · cases hs
    · cases hs
      exact rank_wake k s _ s.stop
  | stop =>
    simp only [step] at hs
    split at hs
    · cases hs
    · cases hs
      exact rank_wake k s s.notifying true
  | spurious =>
    simp only [step] at hs
    split at hs
    · rename_i hw
      cases hs
      simp [rank, hw]
    · cases hs
  | work => exact absurd rfl he

/-- Enough steps of the worker, and whatever else happens meanwhile. -/
theorem rank_run {k : ℕ} {events : List Event} (h : s.Inv registered) (hdue : k ≤ s.due)
    (hr : Run.run (step registered) s events = some s') (hk : s'.dequeued.length < k) :
    rank k s' + works events ≤ rank k s ∧ s.dequeued.length < k := by
  induction events generalizing s with
  | nil =>
    cases hr
    exact ⟨Nat.le_refl _, hk⟩
  | cons e events ih =>
    obtain ⟨t, ht, hrest⟩ := Run.run_cons.1 hr
    obtain ⟨hgrow, hlen⟩ := step_grows ht
    obtain ⟨hrank, hlt⟩ := ih (step_inv h ht) (Nat.le_trans hdue hgrow) hrest
    have hk' : s.dequeued.length < k := by omega
    refine ⟨?_, hk'⟩
    by_cases he : e = .work
    · subst he
      have hone := rank_work h hdue hk' ht
      have hcount : works (.work :: events) = works events + 1 := List.count_cons_self
      omega
    · have hsame : rank k t = rank k s := rank_step ht he
      have hcount : works (e :: events) = works events := List.count_cons_of_ne he
      omega

/-- The worker has a step unless it sleeps or is done. -/
theorem work_enabled (h : s.Inv registered) (hw : s.worker ≠ .waiting) (he : s.worker ≠ .exited) :
    ∃ t, s.work registered = some t := by
  unfold work
  split
  · exact ⟨_, rfl⟩
  · exact ⟨_, rfl⟩
  · split
    · exact ⟨_, rfl⟩
    · split <;> exact ⟨_, rfl⟩
  · rename_i stopping hf
    obtain ⟨hque, -⟩ := h.front stopping hf
    split
    · rename_i hnil
      exact absurd hnil hque
    · rename_i msg rest hcons
      split
      · exact ⟨_, rfl⟩
      · unfold pop
        rw [hcons]
        exact ⟨_, rfl⟩
  · rename_i stopping hp
    obtain ⟨msg, rest, hcons, -⟩ := h.popping stopping hp
    unfold pop
    rw [hcons]
    exact ⟨_, rfl⟩
  · split <;> exact ⟨_, rfl⟩
  · rename_i hx
    exact absurd hx hw
  · rename_i hx
    exact absurd hx he

/-- **The message queue.** In every run: what was posted is what was dequeued, in
that order, and what is in the queue; the handlers were called once for each
message whose turn has come, where one is registered; a worker that sleeps over a
message is about to be notified, and one that neither sleeps nor is done has a
step; a worker that is done has dequeued all that was posted before the stop; and
however the run goes on, after that many steps of the worker the messages posted
before the stop are dequeued. -/
theorem messages_handled {events : List Event} (h : Run.run (step registered) init events = some s) :
    s.posted = s.dequeued ++ s.que ∧ s.called = handlers registered s.begun ∧
      (s.worker = .waiting → s.stop = false ∧ (s.que = [] ∨ 0 < s.notifying)) ∧
      (s.worker ≠ .waiting → s.worker ≠ .exited → ∃ t, s.step registered .work = some t) ∧
      (s.worker = .exited → s.due ≤ s.dequeued.length) ∧
      ∀ more t, Run.run (step registered) s more = some t → 5 * (s.due - s.dequeued.length) + 5 < works more →
        s.due ≤ t.dequeued.length := by
  have hinv := run_inv h
  refine ⟨hinv.order, hinv.called, hinv.waiting, work_enabled hinv, fun he => (hinv.exited he).2,
    fun more t hr hmany => ?_⟩
  by_contra hlt
  obtain ⟨hrank, -⟩ := rank_run hinv (Nat.le_refl _) hr (Nat.not_le.1 hlt)
  have hbound : rank s.due s ≤ 5 * (s.due - s.dequeued.length) + 5 := by
    unfold rank
    cases s.worker <;> simp only [] <;> omega
  omega

/-- Two messages, the second without a handler, and the stop. -/
def twoMessages : List Event :=
  [.work, .work, .post ⟨1, 1001, [104, 105], 2⟩, .post ⟨1, 7, [], 0⟩, .notify, .work, .work, .work, .work,
    .stop, .work,
    .work, .work, .work, .work]

theorem messages_handled_twoMessages :
    ∃ s, Run.run (step fun id => id = 1001) init twoMessages = some s ∧ s.worker = .exited ∧
      s.called = [⟨1, 1001, [104, 105]⟩] ∧ s.due = 2 ∧ s.due ≤ s.dequeued.length := by
  have heval : (Run.run (step fun id => id = 1001) init twoMessages).map (fun s => (s.worker, s.called, s.due)) =
      some (.exited, [⟨1, 1001, [104, 105]⟩], 2) := by decide +kernel
  obtain ⟨s, hs, hq⟩ := Option.map_eq_some_iff.1 heval
  obtain ⟨hworker, hq⟩ := Prod.mk.inj hq
  obtain ⟨hcalled, hdue⟩ := Prod.mk.inj hq
  obtain ⟨-, -, -, -, hexited, -⟩ := messages_handled hs
  exact ⟨s, hs, hworker, hcalled, hdue, hexited hworker⟩

end LogicSystem

end Learncc.Logic
