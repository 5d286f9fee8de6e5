/-
`ThreadPool` of inc/concurrent/thread_pool.h: its threads, any number of calls of `commit`,
and the destructor, which calls `stop`. A step is an access to an atomic, or what is done
from one lock of `cv_mt_` to where it is released, at the end or in the wait; `commit`
notifies after it released the mutex.

`tasks_placed`: every task that was accepted is in the queue, with one thread, or was run,
once, and none is left in the queue with the threads asleep. `stop_ends`: from `stop` on each
thread comes to its end, and takes at most one more task; the rest is never run.
-/
import Learncc.Lib.Calls
import Learncc.Lib.Waiters
import Mathlib.Algebra.Group.Int.Defs
import Mathlib.Data.Multiset.OrderedMonoid

namespace Learncc.CommitPool

/-- Where a thread is: before the test of `stop_`, before the mutex, in the wait, with a task
before and after `thread_num_--`, behind the task, or back. -/
inductive Worker
  | check
  | lock
  | waiting
  | took (task : ℕ)
  | running (task : ℕ)
  | ran
  | exited
deriving DecidableEq, Repr

/-- Where a call of `commit` is: before the test of `stop_`, before the mutex, or before
`notify_one`. -/
inductive Commit
  | check
  | lock
  | notify
  | accepted
  | rejected
deriving DecidableEq, Repr

/-- `stop`: not called, waiting for the thread with that number, or back. -/
inductive Stop
  | outside
  | join (i : ℕ)
  | done
deriving DecidableEq, Repr

/-- The pool and the calls. A task has the number of its `commit`. The last four fields tell
what has become of the tasks, and how many were taken when `stop_` was set; nothing reads them. -/
structure State where
  stopFlag : Bool
  threadNum : ℤ
  tasks : List ℕ
  pool : List Worker
  commits : List Commit
  stop : Stop
  accepted : List ℕ
  taken : List ℕ
  ran : List ℕ
  before : ℕ

/-- How many threads the constructor makes. No task comes before it is back, so `thread_num_`
does not change while `start` counts up to it. -/
def threadCount (num : ℕ) : ℕ := if num < 1 then 1 else num

def threadPool (num : ℕ) : State :=
  { stopFlag := false, threadNum := threadCount num, tasks := [], pool := List.replicate (threadCount num) .check,
    commits := [], stop := .outside, accepted := [], taken := [], ran := [], before := 0 }

def Worker.mode : Worker → Waiters.Mode
  | .waiting => .asleep
  | .check | .lock => .awake
  | .took _ | .running _ | .ran | .exited => .elsewhere

def Worker.wake (_ : Worker) : Worker := .lock

inductive Event
  | commit
  | commitStep (i : ℕ) (wakes : Option ℕ)
  | workerStep (i : ℕ)
  | spurious (i : ℕ)
  | stop
  | join
deriving DecidableEq, Repr

namespace State

variable (s : State)

def setWorker (i : ℕ) (w : Worker) : State := { s with pool := s.pool.set i w }

def setCommit (i : ℕ) (c : Commit) : State := { s with commits := s.commits.set i c }

def commitStep (i : ℕ) (wakes : Option ℕ) : Commit → Option State
  | .check => some (s.setCommit i (if s.stopFlag then .rejected else .lock))
  | .lock => some { s.setCommit i .notify with tasks := s.tasks ++ [i], accepted := s.accepted ++ [i] }
  | .notify =>
    (Waiters.notifyOne Worker.mode Worker.wake s.pool wakes).map fun pool =>
      { s.setCommit i .accepted with pool := pool }
  | .accepted | .rejected => none

def workerStep (i : ℕ) : Worker → Option State
  | .check => some (s.setWorker i (if s.stopFlag then .exited else .lock))
  | .lock =>
    match s.tasks with
    | [] => some (s.setWorker i (if s.stopFlag then .exited else .waiting))
    | task :: rest => some { s.setWorker i (.took task) with tasks := rest, taken := s.taken ++ [task] }
  | .took task => some { s.setWorker i (.running task) with threadNum := s.threadNum - 1 }
  | .running task => some { s.setWorker i .ran with ran := s.ran ++ [task] }
  | .ran => some { s.setWorker i .check with threadNum := s.threadNum + 1 }
  | .waiting | .exited => none

end State

def step (s : State) : Event → Option State
  | .commit => some { s with commits := s.commits ++ [.check] }
  | .commitStep i wakes => s.commits[i]?.bind (s.commitStep i wakes)
  | .workerStep i => s.pool[i]?.bind (s.workerStep i)
  | .spurious i => if s.pool[i]? = some .waiting then some (s.setWorker i .lock) else none
  | .stop =>
    if s.stop = .outside then
      some { s with
        stopFlag := true, pool := Waiters.notifyAll Worker.mode Worker.wake s.pool, stop := .join 0
        before := s.taken.length }
    else none
  | .join =>
    match s.stop with
    | .join i =>
      match s.pool[i]? with
      | none => some { s with stop := .done }
      | some w => if w = .exited then some { s with stop := .join (i + 1) } else none
    | .outside | .done => none

/-! ## What a step can do -/

inductive Steps (s : State) : Event → State → Prop
  | commit : Steps s .commit { s with commits := s.commits ++ [.check] }
  | enter {i : ℕ} {wakes : Option ℕ} (hi : s.commits[i]? = some .check) :
      Steps s (.commitStep i wakes) (s.setCommit i (if s.stopFlag then .rejected else .lock))
  | push {i : ℕ} {wakes : Option ℕ} (hi : s.commits[i]? = some .lock) :
      Steps s (.commitStep i wakes)
        { s.setCommit i .notify with tasks := s.tasks ++ [i], accepted := s.accepted ++ [i] }
  | notify {i : ℕ} {wakes : Option ℕ} {pool : List Worker} (hi : s.commits[i]? = some .notify)
      (hn : Waiters.notifyOne Worker.mode Worker.wake s.pool wakes = some pool) :
      Steps s (.commitStep i wakes) { s.setCommit i .accepted with pool := pool }
  | check {i : ℕ} (hi : s.pool[i]? = some .check) :
      Steps s (.workerStep i) (s.setWorker i (if s.stopFlag then .exited else .lock))
  | wait {i : ℕ} (hi : s.pool[i]? = some .lock) (htasks : s.tasks = []) (hstop : s.stopFlag = false) :
      Steps s (.workerStep i) (s.setWorker i .waiting)
  | leave {i : ℕ} (hi : s.pool[i]? = some .lock) (htasks : s.tasks = []) (hstop : s.stopFlag = true) :
      Steps s (.workerStep i) (s.setWorker i .exited)
  | take {i task : ℕ} {rest : List ℕ} (hi : s.pool[i]? = some .lock) (htasks : s.tasks = task :: rest) :
      Steps s (.workerStep i) { s.setWorker i (.took task) with tasks := rest, taken := s.taken ++ [task] }
  | run {i task : ℕ} (hi : s.pool[i]? = some (.took task)) :
      Steps s (.workerStep i) { s.setWorker i (.running task) with threadNum := s.threadNum - 1 }
  | finish {i task : ℕ} (hi : s.pool[i]? = some (.running task)) :
      Steps s (.workerStep i) { s.setWorker i .ran with ran := s.ran ++ [task] }
  | back {i : ℕ} (hi : s.pool[i]? = some .ran) :
      Steps s (.workerStep i) { s.setWorker i .check with threadNum := s.threadNum + 1 }
  | spurious {i : ℕ} (hi : s.pool[i]? = some .waiting) : Steps s (.spurious i) (s.setWorker i .lock)
  | stop (hstop : s.stop = .outside) :
      Steps s .stop { s with
        stopFlag := true, pool := Waiters.notifyAll Worker.mode Worker.wake s.pool, stop := .join 0
        before := s.taken.length }
  | join {i : ℕ} (hstop : s.stop = .join i) (hi : s.pool[i]? = some .exited) :
      Steps s .join { s with stop := .join (i + 1) }
  | joined {i : ℕ} (hstop : s.stop = .join i) (hi : s.pool[i]? = none) : Steps s .join { s with stop := .done }

section

variable {num : ℕ} {s t : State} {e : Event}

theorem commit_cases {i : ℕ} {wakes : Option ℕ} {c : Commit} (hi : s.commits[i]? = some c)
    (hs : s.commitStep i wakes c = some t) : Steps s (.commitStep i wakes) t := by
  cases c with
  | check =>
    cases hs
    exact .enter hi
  | lock =>
    cases hs
    exact .push hi
  | notify =>
    obtain ⟨pool, hn, rfl⟩ := Option.map_eq_some_iff.1 hs
    exact .notify hi hn
  | accepted | rejected => cases hs

theorem worker_cases {i : ℕ} {w : Worker} (hi : s.pool[i]? = some w) (hs : s.workerStep i w = some t) :
    Steps s (.workerStep i) t := by
  cases w with
  | check =>
    cases hs
    exact .check hi
  | lock =>
    simp only [State.workerStep] at hs
    split at hs
    · rename_i htasks
      cases hs
      cases hstop : s.stopFlag with
      | true => exact .leave hi htasks hstop
      | false => exact .wait hi htasks hstop
    · rename_i htasks
      cases hs
      exact .take hi htasks
  | took task =>
    cases hs
    exact .run hi
  | running task =>
    cases hs
    exact .finish hi
  | ran =>
    cases hs
    exact .back hi
  | waiting | exited => cases hs

theorem step_cases (hs : step s e = some t) : Steps s e t := by
  cases e with
  | commit =>
    cases hs
    exact .commit
  | commitStep i wakes =>
    obtain ⟨c, hi, hs⟩ := Option.bind_eq_some_iff.1 hs
    exact commit_cases hi hs
  | workerStep i =>
    obtain ⟨w, hi, hs⟩ := Option.bind_eq_some_iff.1 hs
    exact worker_cases hi hs
  | spurious i =>
    simp only [step] at hs
    split at hs
    · rename_i hi
      cases hs
      exact .spurious hi
    · cases hs
  | stop =>
    simp only [step] at hs
    split at hs
    · rename_i hstop
      cases hs
      exact .stop hstop
    · cases hs
  | join =>
    simp only [step] at hs
    split at hs
    · rename_i i hstop
      split at hs
      · rename_i hi
        cases hs
        exact .joined hstop hi
      · rename_i w hi
        split at hs
        · rename_i hw
          subst hw
          cases hs
          exact .join hstop hi
        · cases hs
    · cases hs
    · cases hs

/-! ## The threads -/

/-- The task a thread has. -/
def Worker.hand : Worker → Multiset ℕ
  | .took task | .running task => {task}
  | .check | .lock | .waiting | .ran | .exited => 0

/-- Whether it counted itself out of `thread_num_`. -/
def Worker.busy : Worker → ℤ
  | .running _ | .ran => 1
  | .check | .lock | .waiting | .took _ | .exited => 0

/-- Whether it is past the test of `stop_` and may take a task. -/
def Worker.mayTake : Worker → ℕ
  | .lock | .waiting => 1
  | .check | .took _ | .running _ | .ran | .exited => 0

theorem mode_wake (w : Worker) : w.wake.mode = .awake := rfl

theorem eq_waiting {w : Worker} (h : w.mode = .asleep) : w = .waiting := by
  cases w with
  | waiting => rfl
  | check | lock | took | running | ran | exited => cases h

/-- To be woken changes nothing else. -/
theorem total_notifyOne {M : Type} [AddCommMonoid M] {f : Worker → M} (hf : f .lock = f .waiting) {l l' : List Worker}
    {wakes : Option ℕ} (h : Waiters.notifyOne Worker.mode Worker.wake l wakes = some l') :
    Calls.total f l' = Calls.total f l := by
  rcases Waiters.notifyOne_cases h with ⟨-, rfl⟩ | ⟨i, w, hi, hw, rfl⟩
  · rfl
  · rw [eq_waiting hw] at hi
    exact Calls.total_set_same hi hf

theorem total_notifyAll {M : Type} [AddCommMonoid M] {f : Worker → M} (hf : f .lock = f .waiting) (l : List Worker) :
    Calls.total f (Waiters.notifyAll Worker.mode Worker.wake l) = Calls.total f l := by
  rw [Calls.total, Waiters.notifyAll, List.map_map]
  refine Calls.total_congr fun w _ => ?_
  rw [Function.comp_apply]
  split
  · rename_i hw
    rw [eq_waiting hw]
    exact hf
  · rfl

/-! ## The tasks -/

/-- The queue is first in, first out; what was taken is with a thread or was run; and a task
comes into the queue once, from its own `commit`. -/
structure Placed (s : State) : Prop where
  queue : s.accepted = s.taken ++ s.tasks
  taken : (s.taken : Multiset ℕ) = Calls.total Worker.hand s.pool + (s.ran : Multiset ℕ)
  owner : ∀ i ∈ s.accepted, s.commits[i]? = some .notify ∨ s.commits[i]? = some .accepted
  nodup : s.accepted.Nodup

theorem Placed.init (num : ℕ) : Placed (threadPool num) := by
  refine ⟨rfl, ?_, nofun, List.nodup_nil⟩
  rw [Calls.total_eq_zero fun w hw => ?_]
  · rfl
  · rw [List.eq_of_mem_replicate hw]
    rfl

/-- A commit that moves on is not in the queue, or stays there. -/
theorem Placed.setCommit (h : Placed s) {i : ℕ} {c c' : Commit} (hi : s.commits[i]? = some c)
    (hc : c ≠ .notify ∧ c ≠ .accepted ∨ c' = .notify ∨ c' = .accepted) :
    ∀ j ∈ s.accepted, (s.commits.set i c')[j]? = some .notify ∨ (s.commits.set i c')[j]? = some .accepted := by
  intro j hj
  by_cases hij : i = j
  · subst hij
    rw [List.getElem?_set_self (List.getElem?_eq_some_iff.1 hi).1]
    rcases hc with hc | hc
    · have := h.owner i hj
      rw [hi, Option.some.injEq, Option.some.injEq] at this
      rcases this with hx | hx
      · exact absurd hx hc.1
      · exact absurd hx hc.2
    · rcases hc with rfl | rfl
      · exact .inl rfl
      · exact .inr rfl
  · rw [List.getElem?_set_ne hij]
    exact h.owner j hj

theorem Placed.setWorker (h : Placed s) {i : ℕ} {w w' : Worker} (hi : s.pool[i]? = some w) (hw : w'.hand = w.hand) :
    (s.taken : Multiset ℕ) = Calls.total Worker.hand (s.pool.set i w') + (s.ran : Multiset ℕ) := by
  rw [Calls.total_set_same hi hw]
  exact h.taken

theorem step_placed (h : Placed s) (hs : step s e = some t) : Placed t := by
  cases step_cases hs with
  | commit =>
    refine ⟨h.queue, h.taken, fun j hj => ?_, h.nodup⟩
    have hlt : j < s.commits.length := by
      rcases h.owner j hj with hx | hx <;> exact (List.getElem?_eq_some_iff.1 hx).1
    show (s.commits ++ [Commit.check])[j]? = _ ∨ (s.commits ++ [Commit.check])[j]? = _
    rw [List.getElem?_append_left hlt]
    exact h.owner j hj
  | enter hi => exact ⟨h.queue, h.taken, h.setCommit hi (.inl ⟨nofun, nofun⟩), h.nodup⟩
  | @push i wakes hi =>
    have hnew : i ∉ s.accepted := by
      intro hmem
      have := h.owner i hmem
      rw [hi] at this
      rcases this with hx | hx <;> cases hx
    refine ⟨?_, h.taken, fun j hj => ?_, ?_⟩
    · show s.accepted ++ [i] = s.taken ++ (s.tasks ++ [i])
      rw [h.queue, List.append_assoc]
    · rcases List.mem_append.1 hj with hj | hj
      · exact h.setCommit hi (.inr (.inl rfl)) j hj
      · rw [List.mem_singleton.1 hj]
        exact .inl (List.getElem?_set_self (List.getElem?_eq_some_iff.1 hi).1)
    · exact List.nodup_append.2 ⟨h.nodup, List.nodup_singleton i, fun a ha b hb hab =>
        hnew (List.mem_singleton.1 hb ▸ hab ▸ ha)⟩
  | notify hi hn =>
    refine ⟨h.queue, ?_, h.setCommit hi (.inr (.inr rfl)), h.nodup⟩
    show _ = Calls.total Worker.hand _ + _
    rw [total_notifyOne rfl hn]
    exact h.taken
  | check hi =>
    refine ⟨h.queue, h.setWorker hi ?_, h.owner, h.nodup⟩
    split <;> rfl
  | wait hi | leave hi | run hi | back hi | spurious hi => exact ⟨h.queue, h.setWorker hi rfl, h.owner, h.nodup⟩
  | @take i task rest hi htasks =>
    refine ⟨?_, ?_, h.owner, h.nodup⟩
    · show s.accepted = s.taken ++ [task] ++ rest
      rw [h.queue, htasks, List.append_assoc, List.singleton_append]
    · show ((s.taken ++ [task] : List ℕ) : Multiset ℕ) = Calls.total Worker.hand (s.pool.set i (.took task)) + _
      rw [Calls.total_set_add hi (zero_add _).symm, ← Multiset.coe_add, h.taken, add_right_comm]
      rfl
  | @finish i task hi =>
    refine ⟨h.queue, ?_, h.owner, h.nodup⟩
    show (s.taken : Multiset ℕ) = Calls.total Worker.hand (s.pool.set i .ran) + (s.ran ++ [task] : List ℕ)
    have hset : Calls.total Worker.hand (s.pool.set i .ran) + {task} = Calls.total Worker.hand s.pool + 0 :=
      Calls.total_set hi
    rw [add_zero] at hset
    rw [h.taken, ← hset, ← Multiset.coe_add, add_assoc, add_comm ({task} : Multiset ℕ)]
    rfl
  | stop =>
    refine ⟨h.queue, ?_, h.owner, h.nodup⟩
    show _ = Calls.total Worker.hand (Waiters.notifyAll Worker.mode Worker.wake s.pool) + _
    rw [total_notifyAll rfl]
    exact h.taken
  | join | joined => exact ⟨h.queue, h.taken, h.owner, h.nodup⟩

/-! ## Counting -/

/-- Whether a `commit` has yet to notify. -/
def Commit.pending : Commit → ℕ
  | .notify => 1
  | .check | .lock | .accepted | .rejected => 0

/-- `thread_num_` is short of the threads by those that are between `--` and `++`; and after
`stop` no more tasks are taken than there were threads past the test of `stop_`. -/
structure Counted (n : ℕ) (s : State) : Prop where
  size : s.pool.length = n
  idle : s.threadNum + Calls.total Worker.busy s.pool = n
  late : s.stopFlag = true → s.taken.length + Calls.total Worker.mayTake s.pool ≤ s.before + n

theorem Counted.init (num : ℕ) : Counted (threadCount num) (threadPool num) := by
  refine ⟨List.length_replicate, ?_, nofun⟩
  rw [Calls.total_eq_zero fun w hw => ?_]
  · exact add_zero _
  · rw [List.eq_of_mem_replicate hw]
    rfl

theorem total_mayTake_le (l : List Worker) : Calls.total Worker.mayTake l ≤ l.length := by
  have hle : ∀ w ∈ l, w.mayTake ≤ 1 := fun w _ => by cases w <;> simp [Worker.mayTake]
  have hsum := Calls.total_le_total hle
  simpa [Calls.total] using hsum

/-- A thread moves, and what it stands for goes into the counts. -/
theorem Counted.move {n : ℕ} (h : Counted n s) {i : ℕ} {w w' : Worker} (hi : s.pool[i]? = some w)
    (hpool : t.pool = s.pool.set i w') (hnum : t.threadNum + w'.busy = s.threadNum + w.busy)
    (hflag : t.stopFlag = s.stopFlag) (hbefore : t.before = s.before)
    (htaken : s.stopFlag = true → t.taken.length + w'.mayTake ≤ s.taken.length + w.mayTake) : Counted n t := by
  refine ⟨?_, ?_, fun hstop => ?_⟩
  · rw [hpool, List.length_set]
    exact h.size
  · have hset : Calls.total Worker.busy (s.pool.set i w') + w.busy = Calls.total Worker.busy s.pool + w'.busy :=
      Calls.total_set hi
    have := h.idle
    rw [hpool]
    omega
  · rw [hflag] at hstop
    have hset : Calls.total Worker.mayTake (s.pool.set i w') + w.mayTake =
      Calls.total Worker.mayTake s.pool + w'.mayTake := Calls.total_set hi
    have := h.late hstop
    have := htaken hstop
    rw [hpool, hbefore]
    omega

theorem step_counted {n : ℕ} (h : Counted n s) (hs : step s e = some t) : Counted n t := by
  cases step_cases hs with
  | commit | enter | push | join | joined => exact ⟨h.size, h.idle, h.late⟩
  | notify hi hn =>
    refine ⟨?_, ?_, fun hstop => ?_⟩
    · rcases Waiters.notifyOne_cases hn with ⟨-, rfl⟩ | ⟨i, w, -, -, rfl⟩
      · exact h.size
      · exact (List.length_set ..).trans h.size
    · show s.threadNum + Calls.total Worker.busy _ = n
      rw [total_notifyOne rfl hn]
      exact h.idle
    · show s.taken.length + Calls.total Worker.mayTake _ ≤ s.before + n
      rw [total_notifyOne rfl hn]
      exact h.late hstop
  | check hi =>
    refine h.move hi rfl ?_ rfl rfl fun hstop => ?_
    · split <;> rfl
    · rw [if_pos hstop]
      exact Nat.le_refl _
  | wait hi | spurious hi => exact h.move hi rfl rfl rfl rfl fun _ => Nat.le_refl _
  | leave hi => exact h.move hi rfl rfl rfl rfl fun _ => Nat.le_succ _
  | @take i task rest hi =>
    refine h.move hi rfl rfl rfl rfl fun _ => ?_
    show (s.taken ++ [task]).length ≤ s.taken.length + 1
    rw [List.length_append, List.length_singleton]
  | run hi =>
    refine h.move hi rfl ?_ rfl rfl fun _ => Nat.le_refl _
    show s.threadNum - 1 + 1 = s.threadNum + 0
    rw [Int.sub_add_cancel, add_zero]
  | finish hi => exact h.move hi rfl rfl rfl rfl fun _ => Nat.le_refl _
  | back hi => exact h.move hi rfl (add_zero _) rfl rfl fun _ => Nat.le_refl _
  | stop =>
    refine ⟨(List.length_map ..).trans h.size, ?_, fun _ => ?_⟩
    · show s.threadNum + Calls.total Worker.busy (Waiters.notifyAll Worker.mode Worker.wake s.pool) = n
      rw [total_notifyAll rfl]
      exact h.idle
    · show s.taken.length + Calls.total Worker.mayTake (Waiters.notifyAll Worker.mode Worker.wake s.pool) ≤ _
      rw [total_notifyAll rfl]
      have := total_mayTake_le s.pool
      rw [h.size] at this
      exact Nat.add_le_add_left this _

/-! ## Waiting -/

/-- Until `stop` the threads on their way and the notifications to come are enough for the
queue; after it nobody sleeps. `stop` waits for the threads one after the other. -/
structure Waits (s : State) : Prop where
  flag : s.stopFlag = true ↔ s.stop ≠ .outside
  enough : s.stopFlag = false →
    Waiters.Enough Worker.mode s.pool s.tasks.length (Calls.total Commit.pending s.commits)
  nobody : s.stopFlag = true → ¬ Waiters.Sleeps Worker.mode s.pool
  joined : ∀ i w, s.pool[i]? = some w → s.stop = .done ∨ (∃ k, s.stop = .join k ∧ i < k) → w = .exited

theorem Waits.init (num : ℕ) : Waits (threadPool num) := by
  refine ⟨by simp [threadPool], fun _ => .nothing, nofun, fun i w _ hx => ?_⟩
  rcases hx with hx | ⟨k, hx, -⟩ <;> cases hx

/-- A thread moves without going to sleep. -/
theorem Waits.move (h : Waits s) {i : ℕ} {w w' : Worker} (hi : s.pool[i]? = some w)
    (hpool : t.pool = s.pool.set i w') (hw : w ≠ .exited) (hw' : w' ≠ .waiting) (hflag : t.stopFlag = s.stopFlag)
    (hstop : t.stop = s.stop) (hcommits : t.commits = s.commits)
    (hunits : s.stopFlag = false →
      t.tasks.length + Waiters.unit Worker.mode w ≤ s.tasks.length + Waiters.unit Worker.mode w') : Waits t := by
  have hmode : w'.mode ≠ .asleep := fun hm => hw' (eq_waiting hm)
  refine ⟨by rw [hflag, hstop]; exact h.flag, fun hf => ?_, fun hf => ?_, fun j v hj hx => ?_⟩
  · rw [hflag] at hf
    rw [hpool, hcommits]
    refine (h.enough hf).set hi hmode ?_
    have := hunits hf
    omega
  · rw [hflag] at hf
    rw [hpool]
    exact fun hs => h.nobody hf (Waiters.sleeps_set hmode hs)
  · rw [hstop] at hx
    rw [hpool] at hj
    rcases Calls.getElem?_set_cases hj with ⟨rfl, rfl⟩ | ⟨-, hj⟩
    · exact absurd (h.joined j w hi hx) hw
    · exact h.joined j v hj hx

/-- A commit moves on. -/
theorem Waits.setCommit (h : Waits s) {i : ℕ} {c c' : Commit} (hi : s.commits[i]? = some c) (hpool : t.pool = s.pool)
    (hflag : t.stopFlag = s.stopFlag) (hstop : t.stop = s.stop) (hcommits : t.commits = s.commits.set i c')
    (hunits : t.tasks.length + c.pending ≤ s.tasks.length + c'.pending) : Waits t := by
  refine ⟨by rw [hflag, hstop]; exact h.flag, fun hf => ?_, fun hf => ?_, fun j v hj hx => ?_⟩
  · rw [hflag] at hf
    have hset : Calls.total Commit.pending (s.commits.set i c') + c.pending =
      Calls.total Commit.pending s.commits + c'.pending := Calls.total_set hi
    rw [hpool, hcommits]
    intro hs
    have := h.enough hf hs
    omega
  · rw [hpool]
    exact h.nobody (hflag ▸ hf)
  · rw [hstop] at hx
    rw [hpool] at hj
    exact h.joined j v hj hx

theorem step_waits (h : Waits s) (hs : step s e = some t) : Waits t := by
  cases step_cases hs with
  | commit =>
    refine ⟨h.flag, fun hf => ?_, h.nobody, h.joined⟩
    show Waiters.Enough _ _ _ (Calls.total Commit.pending (s.commits ++ [.check]))
    rw [Calls.total_concat]
    exact h.enough hf
  | enter hi =>
    refine h.setCommit hi rfl rfl rfl rfl ?_
    split <;> exact Nat.le_refl _
  | @push i wakes hi =>
    refine h.setCommit hi rfl rfl rfl rfl ?_
    show (s.tasks ++ [i]).length ≤ s.tasks.length + 1
    rw [List.length_append, List.length_singleton]
  | @notify i wakes pool hi hn =>
    refine ⟨h.flag, fun hf => ?_, fun hf hs => ?_, fun j v hj hx => ?_⟩
    · have hset : Calls.total Commit.pending (s.commits.set i .accepted) + 1 = Calls.total Commit.pending s.commits :=
        Calls.total_set hi
      have henough := h.enough hf
      rw [← hset] at henough
      exact henough.notifyOne (fun w _ => mode_wake w) hn
    · rcases Waiters.notifyOne_cases hn with ⟨hno, rfl⟩ | ⟨k, w, hk, hw, rfl⟩
      · exact hno hs
      · exact h.nobody hf ⟨w, List.mem_of_getElem? hk, hw⟩
    · rcases Waiters.notifyOne_cases hn with ⟨hno, rfl⟩ | ⟨k, w, hk, hw, rfl⟩
      · exact h.joined j v hj hx
      · rcases Calls.getElem?_set_cases hj with ⟨rfl, rfl⟩ | ⟨-, hj⟩
        · rw [h.joined j w hk hx] at hw
          cases hw
        · exact h.joined j v hj hx
  | check hi =>
    refine h.move hi rfl nofun ?_ rfl rfl rfl fun hf => ?_
    · split <;> nofun
    · rw [if_neg (by rw [hf]; decide)]
      exact Nat.le_refl _
  | @wait i hi htasks hf =>
    refine ⟨h.flag, fun _ => ?_, fun hf' => ?_, fun j v hj hx => ?_⟩
    · show Waiters.Enough _ _ s.tasks.length _
      rw [htasks]
      exact .nothing
    · change s.stopFlag = true at hf'
      rw [hf] at hf'
      cases hf'
    · rcases Calls.getElem?_set_cases hj with ⟨rfl, rfl⟩ | ⟨-, hj⟩
      · have := h.joined j _ hi hx
        cases this
      · exact h.joined j v hj hx
  | leave hi htasks hf =>
    refine h.move hi rfl nofun nofun rfl rfl rfl fun hf' => ?_
    rw [hf] at hf'
    cases hf'
  | @take i task rest hi htasks =>
    refine h.move hi rfl nofun nofun rfl rfl rfl fun _ => ?_
    rw [htasks]
    exact Nat.le_refl _
  | run hi | finish hi => exact h.move hi rfl nofun nofun rfl rfl rfl fun _ => Nat.le_refl _
  | back hi => exact h.move hi rfl nofun nofun rfl rfl rfl fun _ => Nat.le_succ _
  | spurious hi => exact h.move hi rfl nofun nofun rfl rfl rfl fun _ => Nat.le_succ _
  | stop hstop =>
    refine ⟨by simp, nofun, fun _ => Waiters.not_sleeps_notifyAll (fun w _ => mode_wake w) _, fun i w _ hx => ?_⟩
    rcases hx with hx | ⟨k, hx, hik⟩
    · cases hx
    · cases hx
      exact absurd hik (Nat.not_lt_zero i)
  | @join k hstop hi =>
    refine ⟨?_, h.enough, h.nobody, fun i w hw hx => ?_⟩
    · rw [h.flag, hstop]
      simp
    · rcases hx with hx | ⟨k', hx, hik⟩
      · cases hx
      · cases hx
        by_cases hik' : i = k
        · subst hik'
          rw [hi] at hw
          exact (Option.some.inj hw).symm
        · exact h.joined i w hw (.inr ⟨k, hstop, by omega⟩)
  | @joined k hstop hi =>
    refine ⟨?_, h.enough, h.nobody, fun i w hw _ => ?_⟩
    · rw [h.flag, hstop]
      simp
    · refine h.joined i w hw (.inr ⟨k, hstop, ?_⟩)
      have hle := List.getElem?_eq_none_iff.1 hi
      have hlt : i < s.pool.length := (List.getElem?_eq_some_iff.1 hw).1
      omega

/-! ## After `stop` -/

/-- How many steps a thread has left, once `stop_` is set. -/
def Worker.rank : Worker → ℕ
  | .exited => 0
  | .check => 1
  | .ran => 2
  | .running _ => 3
  | .took _ => 4
  | .lock => 5
  | .waiting => 6

def Event.ofWorker : Event → ℕ
  | .workerStep _ => 1
  | .commit | .commitStep .. | .spurious _ | .stop | .join => 0

/-- Each step of a thread is one of those. -/
theorem step_rank (h : Waits s) (hflag : s.stopFlag = true) (hs : step s e = some t) :
    Calls.total Worker.rank t.pool + e.ofWorker ≤ Calls.total Worker.rank s.pool := by
  have hmove : ∀ {i : ℕ} {w w' : Worker}, s.pool[i]? = some w → w'.rank + 1 ≤ w.rank →
      Calls.total Worker.rank (s.pool.set i w') + 1 ≤ Calls.total Worker.rank s.pool := by
    intro i w w' hi hle
    have hset : Calls.total Worker.rank (s.pool.set i w') + w.rank = Calls.total Worker.rank s.pool + w'.rank :=
      Calls.total_set hi
    omega
  cases step_cases hs with
  | commit | enter | push | join | joined => exact Nat.le_refl _
  | notify hi hn =>
    rcases Waiters.notifyOne_cases hn with ⟨-, rfl⟩ | ⟨i, w, hw, hasleep, -⟩
    · exact Nat.le_refl _
    · exact absurd ⟨w, List.mem_of_getElem? hw, hasleep⟩ (h.nobody hflag)
  | check hi =>
    rw [if_pos hflag]
    exact hmove hi (Nat.le_refl _)
  | wait hi htasks hf =>
    rw [hflag] at hf
    cases hf
  | leave hi => exact hmove hi (by decide)
  | take hi | run hi | finish hi | back hi => exact hmove hi (Nat.le_refl _)
  | spurious hi => exact absurd ⟨_, List.mem_of_getElem? hi, rfl⟩ (h.nobody hflag)
  | stop hstop =>
    rw [h.flag] at hflag
    exact absurd hstop hflag

theorem step_flag (hflag : s.stopFlag = true) (hs : step s e = some t) : t.stopFlag = true := by
  cases step_cases hs with
  | stop => rfl
  | commit | enter | push | notify | check | wait | leave | take | run | finish | back | spurious | join | joined =>
    exact hflag

theorem run_rank {events : List Event} (h : Waits s) (hflag : s.stopFlag = true) (hr : Run.run step s events = some t) :
    Calls.total Worker.rank t.pool + (events.map Event.ofWorker).sum ≤ Calls.total Worker.rank s.pool := by
  induction events generalizing s with
  | nil =>
    cases hr
    exact Nat.le_refl _
  | cons e events ih =>
    obtain ⟨u, hs, hr⟩ := Run.run_cons.1 hr
    have hstep := step_rank h hflag hs
    have hrest := ih (step_waits h hs) (step_flag hflag hs) hr
    rw [List.map_cons, List.sum_cons]
    omega

theorem total_rank_le (h : Waits s) (hflag : s.stopFlag = true) :
    Calls.total Worker.rank s.pool ≤ 5 * s.pool.length := by
  have hle : ∀ w ∈ s.pool, w.rank ≤ 5 := by
    intro w hw
    cases w with
    | waiting => exact absurd ⟨_, hw, rfl⟩ (h.nobody hflag)
    | check | lock | took | running | ran | exited => simp [Worker.rank]
  have hsum := Calls.total_le_total (g := fun _ => 5) hle
  rw [Calls.total, Calls.total, List.map_const', List.sum_replicate_nat, Nat.mul_comm] at hsum
  exact hsum

/-- Where nobody waits, each thread that is not back can go on. -/
theorem exists_step (h : Waits s) (hflag : s.stopFlag = true) {i : ℕ} {w : Worker} (hi : s.pool[i]? = some w)
    (hw : w ≠ .exited) : ∃ t, step s (.workerStep i) = some t := by
  simp only [step, hi, Option.bind_some]
  cases w with
  | check | took | running | ran => exact ⟨_, rfl⟩
  | lock =>
    refine Option.isSome_iff_exists.1 ?_
    cases htasks : s.tasks with
    | nil => simp [State.workerStep, htasks]
    | cons task rest => simp [State.workerStep, htasks]
  | waiting => exact absurd ⟨_, List.mem_of_getElem? hi, rfl⟩ (h.nobody hflag)
  | exited => exact absurd rfl hw

/-! ## Runs -/

structure Ok (num : ℕ) (s : State) : Prop where
  placed : Placed s
  counted : Counted (threadCount num) s
  waits : Waits s

theorem step_ok (h : Ok num s) (hs : step s e = some t) : Ok num t :=
  ⟨step_placed h.placed hs, step_counted h.counted hs, step_waits h.waits hs⟩

theorem run_ok {events : List Event} (h : Run.run step (threadPool num) events = some s) : Ok num s :=
  Run.run_invariant (Ok num) (fun _ _ _ hi hs => step_ok hi hs) ⟨.init num, .init num, .init num⟩ h

/-- **Every task once.** In every run the tasks that were accepted are, each once, run, with
a thread, or in the queue, from which they are taken in the order they came; the answer of
`idleThreadCount` is short of the threads by those with a task under way; and until `stop` it
never happens that a task is in the queue and a thread asleep, with no thread on its way to
the queue and no notification to come. -/
theorem tasks_placed {events : List Event} (h : Run.run step (threadPool num) events = some s) :
    s.accepted = s.taken ++ s.tasks ∧ s.accepted.Nodup ∧
      (s.accepted : Multiset ℕ) = (s.ran : Multiset ℕ) + Calls.total Worker.hand s.pool + (s.tasks : Multiset ℕ) ∧
      s.threadNum + Calls.total Worker.busy s.pool = threadCount num ∧
      (s.stopFlag = false →
        ¬ Waiters.Stalled Worker.mode s.pool s.tasks.length (Calls.total Commit.pending s.commits)) := by
  obtain ⟨hplaced, hcounted, hwaits⟩ := run_ok h
  refine ⟨hplaced.queue, hplaced.nodup, ?_, hcounted.idle, fun hf => (hwaits.enough hf).not_stalled⟩
  rw [hplaced.queue, ← Multiset.coe_add, hplaced.taken, add_comm (Calls.total _ _)]

/-- One thread; a task runs while a second one comes. -/
def secondComes : List Event :=
  [.workerStep 0, .workerStep 0, .commit, .commitStep 0 none, .commitStep 0 none, .commitStep 0 (some 0), .workerStep 0,
    .workerStep 0, .commit, .commitStep 1 none, .commitStep 1 none]

theorem tasks_placed_second :
    ∃ s, Run.run step (threadPool 1) secondComes = some s ∧ s.accepted = [0, 1] ∧ s.threadNum = 0 := by
  have hrun : (Run.run step (threadPool 1) secondComes).map (fun s => (s.tasks, s.taken, s.pool)) =
      some ([1], [0], [.running 0]) := by
    decide
  obtain ⟨s, hs, he⟩ := Option.map_eq_some_iff.1 hrun
  simp only [Prod.mk.injEq] at he
  obtain ⟨htasks, htaken, hpool⟩ := he
  obtain ⟨hqueue, -, -, hidle, -⟩ := tasks_placed hs
  refine ⟨s, hs, by rw [hqueue, htaken, htasks]; rfl, ?_⟩
  rw [hpool] at hidle
  exact (add_right_cancel (b := 1) hidle : s.threadNum = 0)

/-- **The end.** Once `stop` was called, whatever else happens, each thread that is not back
can go on, all of them together take at most five steps for each thread, and at most one more
task for each is taken. When `stop` is back every task that was accepted has been run or is
left in the queue, each once, and what is left there never will be run. -/
theorem stop_ends {events : List Event} (h : Run.run step (threadPool num) events = some s)
    (hflag : s.stopFlag = true) :
    (∀ i w, s.pool[i]? = some w → w ≠ .exited → ∃ t, step s (.workerStep i) = some t) ∧
      s.taken.length ≤ s.before + threadCount num ∧
      (∀ more t, Run.run step s more = some t →
        (more.map Event.ofWorker).sum ≤ 5 * threadCount num ∧ (s.stop = .done → t.ran = s.ran)) ∧
      (s.stop = .done → (s.accepted : Multiset ℕ) = (s.ran : Multiset ℕ) + (s.tasks : Multiset ℕ)) := by
  obtain ⟨hplaced, hcounted, hwaits⟩ := run_ok h
  have hback : s.stop = .done → ∀ w ∈ s.pool, w = .exited := by
    intro hdone w hw
    obtain ⟨i, hi⟩ := List.mem_iff_getElem?.1 hw
    exact hwaits.joined i w hi (.inl hdone)
  refine ⟨fun i w hi hw => exists_step hwaits hflag hi hw, ?_, fun more t hr => ⟨?_, fun hdone => ?_⟩, fun hdone => ?_⟩
  · have := hcounted.late hflag
    omega
  · have hrank := run_rank hwaits hflag hr
    have hle := total_rank_le hwaits hflag
    rw [hcounted.size] at hle
    omega
  · have hkeep := Run.run_invariant (fun u => u.ran = s.ran ∧ ∀ w ∈ u.pool, w = .exited) (fun u e v hu hv => ?_)
      ⟨rfl, hback hdone⟩ hr
    · exact hkeep.1
    · have hno : ∀ {i : ℕ} {w : Worker}, u.pool[i]? = some w → w = .exited := fun hi =>
        hu.2 _ (List.mem_of_getElem? hi)
      cases step_cases hv with
      | commit | enter | push | join | joined => exact hu
      | notify hi hn =>
        rcases Waiters.notifyOne_cases hn with ⟨-, rfl⟩ | ⟨i, w, hw, hasleep, -⟩
        · exact hu
        · rw [hno hw] at hasleep
          cases hasleep
      | check hi | wait hi | leave hi | take hi | run hi | finish hi | back hi | spurious hi => cases hno hi
      | stop =>
        refine ⟨hu.1, fun w hw => ?_⟩
        obtain ⟨v, hv, rfl⟩ := List.mem_map.1 hw
        rw [hu.2 v hv]
        rfl
  · have hnone : Calls.total Worker.hand s.pool = 0 := Calls.total_eq_zero fun w hw => by
      rw [hback hdone w hw]
      rfl
    have htaken := hplaced.taken
    rw [hnone, zero_add] at htaken
    rw [hplaced.queue, ← Multiset.coe_add, htaken]

end

/-- One thread, which tests `stop_` after the task came and `stop` was called. -/
def stopFirst : List Event :=
  [.commit, .commitStep 0 none, .commitStep 0 none, .commitStep 0 none, .stop, .workerStep 0, .join, .join]

theorem stop_ends_first :
    ∃ s, Run.run step (threadPool 1) stopFirst = some s ∧ s.accepted = [0] ∧ s.tasks = [0] ∧ s.ran = [] ∧
      ∀ more t, Run.run step s more = some t → t.ran = [] := by
  have hrun : (Run.run step (threadPool 1) stopFirst).map
      (fun s => (s.accepted, s.tasks, s.ran, s.stopFlag, s.stop)) = some ([0], [0], [], true, .done) := by
    decide
  obtain ⟨s, hs, he⟩ := Option.map_eq_some_iff.1 hrun
  simp only [Prod.mk.injEq] at he
  obtain ⟨haccepted, htasks, hran, hflag, hstop⟩ := he
  refine ⟨s, hs, haccepted, htasks, hran, fun more t hr => ?_⟩
  rw [← hran]
  exact ((stop_ends hs hflag).2.2.1 more t hr).2 hstop

end Learncc.CommitPool
