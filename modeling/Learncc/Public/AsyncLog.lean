/-
`async_log` (inc/public/asynclog.h): any thread puts a record into the queue,
one worker thread takes the records and processes them, `stop` ends it. A
section under the mutex is a step, except that the worker keeps the mutex over
several; a writer notifies in a step of its own, after it has unlocked.

The worker looks at the flag before it looks at the queue, so it leaves behind
what `stop` finds there: `lossless_iff`.
-/
import Learncc.Lib.Run
import Mathlib.Data.List.Basic

namespace Learncc.AsyncLog

inductive Loglevel
  | debug
  | info
  | warning
  | error
deriving Repr, DecidableEq

/-- `log_task`, its data values of any type. -/
structure LogTask (ι : Type) where
  level : Loglevel
  logData : List ι
deriving Repr, DecidableEq

/-- Where the worker is: before the lock, at the test of the wait, asleep, woken
but without the mutex, behind the wait, at the front record, with a record in
hand, or out of the thread function. -/
inductive Worker (ι : Type)
  | top
  | check
  | waiting
  | notified
  | stopTest
  | front
  | process (task : LogTask ι)
  | exited
deriving Repr, DecidableEq

/-- The worker keeps the mutex. -/
def Worker.locks {ι : Type} : Worker ι → Bool
  | .check | .stopTest | .front => true
  | .top | .waiting | .notified | .process _ | .exited => false

/-- Where `notify_one` leaves it. -/
def Worker.wake {ι : Type} : Worker ι → Worker ι
  | .waiting => .notified
  | w => w

/-- What the worker has taken and not yet processed. -/
def Worker.hand {ι : Type} : Worker ι → List (LogTask ι)
  | .process task => [task]
  | _ => []

/-- `notifying` writers are between their push and their notification. The
records: what was enqueued, how much of it before the last `stop` took the lock,
and what was processed. -/
structure State (ι : Type) where
  queue : List (LogTask ι)
  stop : Bool
  worker : Worker ι
  notifying : ℕ
  enqueued : List (LogTask ι)
  due : ℕ
  processed : List (LogTask ι)

inductive Event (ι : Type)
  | asyncWrite (level : Loglevel) (args : List ι)
  | notify
  | stop
  | spurious
  | work
deriving DecidableEq

variable {ι : Type}

def init : State ι :=
  { queue := [], stop := false, worker := .top, notifying := 0, enqueued := [], due := 0, processed := [] }

namespace State

/-- The next step of the worker. -/
def work (s : State ι) : Option (State ι) :=
  match s.worker with
  | .top | .notified => some { s with worker := .check }
  | .check =>
    if s.queue = [] ∧ s.stop = false then some { s with worker := .waiting } else some { s with worker := .stopTest }
  | .stopTest => if s.stop then some { s with worker := .exited } else some { s with worker := .front }
  | .front =>
    match s.queue with
    | [] => none
    | task :: rest => some { s with queue := rest, worker := .process task }
  | .process task => some { s with processed := s.processed ++ [task], worker := .top }
  | .waiting | .exited => none

def asyncWrite (s : State ι) (level : Loglevel) (args : List ι) : State ι :=
  let task : LogTask ι := { level, logData := args }
  { s with
    queue := s.queue ++ [task]
    notifying := if (s.queue ++ [task]).length = 1 then s.notifying + 1 else s.notifying
    enqueued := s.enqueued ++ [task] }

end State

def step (s : State ι) : Event ι → Option (State ι)
  | .asyncWrite level args => if s.worker.locks then none else some (s.asyncWrite level args)
  | .notify => if s.notifying = 0 then none else some { s with notifying := s.notifying - 1, worker := s.worker.wake }
  | .stop =>
    if s.worker.locks then none
    else some { s with stop := true, worker := s.worker.wake, due := s.enqueued.length }
  | .spurious =>
    match s.worker with
    | .waiting => some { s with worker := .notified }
    | _ => none
  | .work => s.work

/-- What was enqueued before a `stop` took the lock is processed, once each and in
that order. -/
def State.Lossless (s : State ι) : Prop := s.enqueued.take s.due <+: s.processed

/-- A `stop` takes the lock with nothing in the queue. -/
def StopsEmpty (s : State ι) : Event ι → Prop
  | .stop => s.queue = []
  | _ => True

instance (s : State ι) [DecidableEq ι] : (e : Event ι) → Decidable (StopsEmpty s e)
  | .stop => inferInstanceAs (Decidable (s.queue = []))
  | .asyncWrite _ _ | .notify | .spurious | .work => inferInstanceAs (Decidable True)

/-! ## What holds throughout -/

/-- `taken` is what the worker has taken out of the queue. -/
structure Inv (s : State ι) : Prop where
  order : s.enqueued = s.processed ++ s.worker.hand ++ s.queue
  due_le : s.due ≤ s.enqueued.length
  running : s.stop = false → s.due = 0
  front : s.worker = .front → s.stop = false ∧ s.queue ≠ []
  stopTest : s.worker = .stopTest → s.stop = true ∨ s.queue ≠ []
  exited : s.worker = .exited → s.stop = true
  waiting : s.worker = .waiting → s.stop = false ∧ (s.queue = [] ∨ 0 < s.notifying)

variable {s s' : State ι} {e : Event ι}

theorem inv_init : Inv (init : State ι) := by
  refine ⟨rfl, Nat.le_refl _, fun _ => rfl, ?_, ?_, ?_, ?_⟩ <;> intros <;> rename_i h <;> cases h

theorem wake_cases (w : Worker ι) : w = .waiting ∧ w.wake = .notified ∨ w ≠ .waiting ∧ w.wake = w := by
  cases w <;> simp [Worker.wake]

theorem wake_hand (w : Worker ι) : w.wake.hand = w.hand := by cases w <;> rfl

/-- The worker is woken, or left alone. -/
theorem Inv.woken {notifying due : ℕ} {stop : Bool} (h : Inv s) (hstop : s.stop = true → stop = true)
    (hdue : due ≤ s.enqueued.length) (hrun : stop = false → due = 0) (hfront : s.worker = .front → stop = s.stop) :
    Inv { s with notifying, due, stop, worker := s.worker.wake } := by
  have horder : s.enqueued = s.processed ++ s.worker.wake.hand ++ s.queue := by
    rw [wake_hand]
    exact h.order
  rcases wake_cases s.worker with ⟨hw, hwake⟩ | ⟨hw, hwake⟩
  · rw [hwake] at horder ⊢
    exact ⟨horder, hdue, hrun, fun hb => (by cases hb), fun hb => (by cases hb), fun hb => (by cases hb),
      fun hb => (by cases hb)⟩
  · rw [hwake] at horder ⊢
    refine ⟨horder, hdue, hrun, fun hb => ?_, fun hb => ?_, fun hb => hstop (h.exited hb), fun hb => absurd hb hw⟩
    · obtain ⟨hs, hne⟩ := h.front hb
      exact ⟨(hfront hb).trans hs, hne⟩
    · exact (h.stopTest hb).imp_left hstop

theorem write_inv {level : Loglevel} {args : List ι} (h : Inv s) (hw : s.worker.locks = false) :
    Inv (s.asyncWrite level args) := by
  refine ⟨?_, ?_, h.running, fun hb => ?_, fun hb => ?_, h.exited, fun hb => ?_⟩
  · show s.enqueued ++ _ = s.processed ++ s.worker.hand ++ (s.queue ++ _)
    rw [h.order, List.append_assoc _ s.queue]
  · have hle := h.due_le
    simp only [State.asyncWrite, List.length_append]
    omega
  · rw [show s.worker = .front from hb] at hw
    cases hw
  · rw [show s.worker = .stopTest from hb] at hw
    cases hw
  · obtain ⟨hs, hor⟩ := h.waiting hb
    refine ⟨hs, .inr ?_⟩
    show 0 < if (s.queue ++ [_]).length = 1 then s.notifying + 1 else s.notifying
    split
    · exact Nat.succ_pos _
    · rename_i hlen
      rcases hor with hq | hpos
      · rw [hq] at hlen
        exact absurd rfl hlen
      · exact hpos

theorem work_inv (h : Inv s) (hs : s.work = some s') : Inv s' := by
  have horder := h.order
  unfold State.work at hs
  cases hw : s.worker with
  | top | notified =>
    rw [hw] at hs horder
    cases hs
    exact ⟨horder, h.due_le, h.running, fun hb => (by cases hb), fun hb => (by cases hb), fun hb => (by cases hb),
      fun hb => (by cases hb)⟩
  | check =>
    rw [hw] at hs horder
    dsimp only at hs
    split at hs
    · rename_i hidle
      cases hs
      exact ⟨horder, h.due_le, h.running, fun hb => (by cases hb), fun hb => (by cases hb), fun hb => (by cases hb),
        fun _ => ⟨hidle.2, .inl hidle.1⟩⟩
    · rename_i hbusy
      cases hs
      refine ⟨horder, h.due_le, h.running, fun hb => (by cases hb), fun _ => ?_, fun hb => (by cases hb),
        fun hb => (by cases hb)⟩
      by_cases hq : s.queue = []
      · exact .inl (by simpa [hq] using hbusy)
      · exact .inr hq
  | stopTest =>
    rw [hw] at hs horder
    dsimp only at hs
    split at hs
    · rename_i hstop
      cases hs
      exact ⟨horder, h.due_le, h.running, fun hb => (by cases hb), fun hb => (by cases hb), fun _ => hstop,
        fun hb => (by cases hb)⟩
    · rename_i hstop
      cases hs
      exact ⟨horder, h.due_le, h.running, fun _ => ⟨Bool.eq_false_iff.2 hstop, (h.stopTest hw).resolve_left hstop⟩,
        fun hb => (by cases hb), fun hb => (by cases hb), fun hb => (by cases hb)⟩
  | front =>
    rw [hw] at hs horder
    cases hq : s.queue with
    | nil =>
      rw [hq] at hs
      cases hs
    | cons task rest =>
      rw [hq] at hs horder
      cases hs
      refine ⟨?_, h.due_le, h.running, fun hb => (by cases hb), fun hb => (by cases hb), fun hb => (by cases hb),
        fun hb => (by cases hb)⟩
      rw [horder]
      simp [Worker.hand]
  | process task =>
    rw [hw] at hs horder
    cases hs
    refine ⟨?_, h.due_le, h.running, fun hb => (by cases hb), fun hb => (by cases hb), fun hb => (by cases hb),
      fun hb => (by cases hb)⟩
    rw [horder]
    simp [Worker.hand]
  | waiting | exited =>
    rw [hw] at hs
    cases hs

theorem step_inv (h : Inv s) (hs : step s e = some s') : Inv s' := by
  cases e with
  | asyncWrite level args =>
    simp only [step] at hs
    split at hs
    · cases hs
    · rename_i hw
      cases hs
      exact write_inv h (Bool.eq_false_iff.2 hw)
  | notify =>
    simp only [step] at hs
    split at hs
    · cases hs
    · cases hs
      exact h.woken id h.due_le h.running fun _ => rfl
  | stop =>
    simp only [step] at hs
    split at hs
    · cases hs
    · rename_i hw
      cases hs
      refine h.woken (fun _ => rfl) (Nat.le_refl _) (fun hb => (by cases hb)) fun hb => ?_
      rw [hb] at hw
      exact absurd rfl hw
  | spurious =>
    simp only [step] at hs
    split at hs
    · rename_i hw
      cases hs
      have horder := h.order
      rw [hw] at horder
      exact ⟨horder, h.due_le, h.running, fun hb => (by cases hb), fun hb => (by cases hb), fun hb => (by cases hb),
        fun hb => (by cases hb)⟩
    · cases hs
  | work => exact work_inv h hs

/-! ## What is left behind -/

/-- As many records are taken as were due. -/
def Caught (s : State ι) : Prop := s.due ≤ (s.processed ++ s.worker.hand).length

/-- Once the flag is set nothing is taken any more, so what is missed stays
missed; before that nothing is due. -/
theorem caught_step (h : Inv s) (hs : step s e = some s') : Caught s' ↔ Caught s ∧ StopsEmpty s e := by
  have hlen := congrArg List.length h.order
  rw [List.length_append] at hlen
  cases e with
  | asyncWrite level args =>
    simp only [step] at hs
    split at hs
    · cases hs
    · cases hs
      exact (and_iff_left trivial).symm
  | notify =>
    simp only [step] at hs
    split at hs
    · cases hs
    · cases hs
      simp only [Caught, wake_hand, StopsEmpty, and_true]
  | stop =>
    simp only [step] at hs
    split at hs
    · cases hs
    · cases hs
      have hdue := h.due_le
      simp only [Caught, wake_hand, StopsEmpty]
      constructor
      · intro hle
        exact ⟨by omega, List.eq_nil_of_length_eq_zero (by omega)⟩
      · intro he
        obtain ⟨-, hq⟩ := he
        rw [hq, List.length_nil] at hlen
        omega
  | spurious =>
    simp only [step] at hs
    split at hs
    · rename_i hw
      cases hs
      simp only [Caught, hw, Worker.hand, StopsEmpty, and_true]
    · cases hs
  | work =>
    rw [show StopsEmpty s .work = True from rfl, and_true]
    simp only [step, State.work] at hs
    cases hw : s.worker with
    | top | notified =>
      rw [hw] at hs
      cases hs
      simp only [Caught, hw, Worker.hand]
    | check =>
      rw [hw] at hs
      dsimp only at hs
      split at hs
      · cases hs
        simp only [Caught, hw, Worker.hand]
      · cases hs
        simp only [Caught, hw, Worker.hand]
    | stopTest =>
      rw [hw] at hs
      dsimp only at hs
      split at hs
      · cases hs
        simp only [Caught, hw, Worker.hand]
      · cases hs
        simp only [Caught, hw, Worker.hand]
    | front =>
      rw [hw] at hs
      have hdue := h.running (h.front hw).1
      cases hq : s.queue with
      | nil =>
        rw [hq] at hs
        cases hs
      | cons task rest =>
        rw [hq] at hs
        cases hs
        simp only [Caught, hdue, Nat.zero_le]
    | process task =>
      rw [hw] at hs
      cases hs
      simp only [Caught, hw, Worker.hand, List.append_nil]
    | waiting | exited =>
      rw [hw] at hs
      cases hs

/-- In the end all records that were due are processed exactly if as many are. -/
theorem Inv.lossless_iff_caught (h : Inv s) (hw : s.worker.hand = []) : s.Lossless ↔ Caught s := by
  have horder := h.order
  rw [hw, List.append_nil] at horder
  have hdue := h.due_le
  simp only [Caught, State.Lossless, hw, List.append_nil]
  constructor
  · intro hp
    have hle := hp.length_le
    rw [List.length_take] at hle
    omega
  · intro hle
    rw [horder, List.take_append_of_le_length hle]
    exact List.take_prefix _ _

/-- **Stopping the log.** In every run the records are processed in the order they
were enqueued, each at most once, and the worker does not sleep over one. When it
has ended, all that was enqueued before a `stop` took the lock is processed
exactly if every `stop` found the queue empty. -/
theorem lossless_iff {events : List (Event ι)} (h : Run.run step init events = some s) :
    s.enqueued = s.processed ++ s.worker.hand ++ s.queue ∧
    (s.worker = .waiting → s.queue = [] ∨ 0 < s.notifying) ∧
    (s.worker = .exited → (s.Lossless ↔ Run.Along step StopsEmpty init events)) := by
  have hinv : Inv s := Run.run_invariant Inv (fun _ _ _ hs => step_inv hs) inv_init h
  have hcaught : Caught s ↔ Run.Along step StopsEmpty init events := by
    have hnone : Caught (init : State ι) ↔ Run.Along step StopsEmpty (init : State ι) [] :=
      iff_of_true (Nat.le_refl _) trivial
    refine Run.run_history (fun events s => Caught s ↔ Run.Along step StopsEmpty init events) hnone
      (fun is s i t hs hp ht => ?_) h
    · have hi : Inv s := Run.run_invariant Inv (fun _ _ _ hs => step_inv hs) inv_init hs
      rw [caught_step hi ht, hp, Run.along_append]
      refine and_congr_right fun _ => ⟨fun hc t ht => ?_, fun hc => (hc s hs).1⟩
      rw [hs] at ht
      cases ht
      exact ⟨hc, fun _ _ => trivial⟩
  refine ⟨hinv.order, fun hw => (hinv.waiting hw).2, fun hw => ?_⟩
  rw [hinv.lossless_iff_caught (by rw [hw]; rfl), hcaught]

/-- A record is processed, then the log is stopped. -/
def oneRecord : List (Event ℕ) :=
  [.work, .work, .asyncWrite .info [1, 2], .notify, .work, .work, .work, .work, .work, .stop, .work, .work, .work]

theorem lossless_iff_oneRecord :
    ∃ s, Run.run step init oneRecord = some s ∧ s.processed = [⟨.info, [1, 2]⟩] ∧ s.Lossless := by
  have heval : (Run.run step init oneRecord).map (fun s => (s.processed, s.worker)) =
      some ([⟨.info, [1, 2]⟩], .exited) := by decide +kernel
  obtain ⟨s, hs, he⟩ := Option.map_eq_some_iff.1 heval
  obtain ⟨hp, hw⟩ := Prod.mk.inj he
  exact ⟨s, hs, hp, ((lossless_iff hs).2.2 hw).2 (by decide +kernel)⟩

/-- A record is written and the log stopped before the worker has looked. -/
theorem record_lost :
    ∃ s, Run.run step init [.asyncWrite .error [1], .stop, .work, .work, .work] = some s ∧
      s.worker = .exited ∧ ¬ s.Lossless := by
  have heval : (Run.run step init [.asyncWrite .error [1], .stop, .work, .work, .work]).map
      (fun s => (s.enqueued, s.due, s.processed, s.worker)) =
      some ([⟨.error, [1]⟩], 1, [], .exited) := by decide +kernel
  obtain ⟨s, hs, he⟩ := Option.map_eq_some_iff.1 heval
  obtain ⟨henq, hrest⟩ := Prod.mk.inj he
  obtain ⟨hdue, hrest⟩ := Prod.mk.inj hrest
  obtain ⟨hp, hw⟩ := Prod.mk.inj hrest
  refine ⟨s, hs, hw, ?_⟩
  rw [State.Lossless, henq, hdue, hp]
  decide

end Learncc.AsyncLog
