/-
`thread_pool` (inc/threadpool/thrdp.h), and `ThreadPool` (src/threadpool/threadpool.cc),
the same code under other names and with another bound of the queue.

All of it runs under `mtx_`, except a task, the count after it, and the first line
of the destructor, so a step is one of these or what is done from one lock of the
mutex to where it is released, at the end or in a wait. A wait may end without a
reason; a timed one also by its timeout.
-/
import Learncc.Lib.Run
import Mathlib.Data.Finset.Card
import Mathlib.Logic.Function.Basic
import Mathlib.Algebra.Group.Int.Defs

namespace Learncc.ThreadPool

/-- `pool_mode`. -/
inductive Mode
  | fixed
  | cached
deriving DecidableEq, Repr

inductive Class
  | threadPool
  | threadPoolMain
deriving DecidableEq, Repr

/-- `TASK_MAX_THRESHHOLD`. -/
def Class.taskMaxThreshhold : Class → ℤ
  | .threadPool => 2
  | .threadPoolMain => 2 ^ 31 - 1

/-- `THREAD_MAX_THRESHHOLD`. -/
def threadMaxThreshhold : ℤ := 1024

/-- `THREAD_MAX_IDLE_TIME`, in seconds. -/
def threadMaxIdleTime : ℕ := 60

/-- Where a thread is in `thread_func`: not started, before the mutex (`timeout`:
its timed wait has run out), in the wait, with a task, behind it, or back. -/
inductive Worker
  | unborn
  | lock (timeout : Bool)
  | waiting
  | task (i : ℕ)
  | ran
  | exited
deriving DecidableEq, Repr

/-- Where a call of `commit` is. -/
inductive Commit
  | lock (timeout : Bool)
  | waiting
  | accepted
  | rejected
deriving DecidableEq, Repr

/-- Where the destructor is: not called, before the mutex, in the wait, woken, or
at its end. -/
inductive Destructor
  | outside
  | lock
  | waiting
  | woken
  | done
deriving DecidableEq, Repr

/-- What has become of the tasks, in the order in which it happened; nothing reads
it. A task has the number of its `commit`; a thread that took or ran it comes with
it. -/
structure Log where
  accepted : List ℕ
  taken : List (ℕ × ℕ)
  ran : List (ℕ × ℕ)
deriving DecidableEq

/-- The pool, with `thread_m::generate_id_`, the threads by their ids, and the calls. -/
structure State where
  mode : Mode
  taskMaxsize : ℤ
  threadMaxsize : ℤ
  initSize : ℤ
  running : Bool
  threads : Finset ℕ
  generateId : ℕ
  curThreadCnt : ℤ
  idleThreadCnt : ℤ
  taskQueue : List ℕ
  taskSize : ℤ
  workers : ℕ → Worker
  commits : List Commit
  destructor : Destructor
  log : Log

/-- The constructor, in a process without another pool. -/
def threadPool (c : Class) : State :=
  { mode := .fixed, taskMaxsize := c.taskMaxThreshhold, threadMaxsize := threadMaxThreshhold, initSize := 0,
    running := false, threads := ∅, generateId := 0, curThreadCnt := 0, idleThreadCnt := 0, taskQueue := [],
    taskSize := 0, workers := fun _ => .unborn, commits := [], destructor := .outside, log := ⟨[], [], []⟩ }

/-! ## The setters -/

def setMode (mode : Mode) (s : State) : State := if s.running then s else { s with mode := mode }

def setTaskMaxsize (threshhold : ℤ) (s : State) : State :=
  if s.running then s else { s with taskMaxsize := threshhold }

def setThreadMaxsize (size : ℤ) (s : State) : State :=
  if s.running then s else if s.mode = .cached then { s with threadMaxsize := size } else s

inductive Setter
  | mode (mode : Mode)
  | taskMaxsize (threshhold : ℤ)
  | threadMaxsize (size : ℤ)

def set (s : State) : Setter → State
  | .mode mode => setMode mode s
  | .taskMaxsize threshhold => setTaskMaxsize threshhold s
  | .threadMaxsize size => setThreadMaxsize size s

/-- A pool on which the setters have been called. -/
def configured (c : Class) (setters : List Setter) : State := setters.foldl set (threadPool c)

/-! ## Threads -/

def setWorker (s : State) (id : ℕ) (w : Worker) : State := { s with workers := Function.update s.workers id w }

/-- Makes a `thread_m` and puts it in `threads_`. `generate_id_` is an `int`: this holds for
fewer than `2 ^ 31` threads in the process. -/
def newThread (s : State) : State := { s with threads := insert s.generateId s.threads, generateId := s.generateId + 1 }

/-- `threads_[id]->start()`. -/
def launch (s : State) (id : ℕ) : Option State := if id ∈ s.threads then some (setWorker s id (.lock false)) else none

/-- A thread that is started early waits until there is a task, and there is none
before `start` is back. -/
def start (s : State) (initSize : ℤ) : Option State :=
  let s := { s with running := true, initSize := initSize, curThreadCnt := initSize }
  let s := (List.range initSize.toNat).foldl (fun s _ => newThread s) s
  (List.range initSize.toNat).foldlM
    (fun s i => (launch s i).map fun s => { s with idleThreadCnt := s.idleThreadCnt + 1 }) s

/-! ## Condition variables -/

def Worker.wake : Worker → Worker
  | .waiting => .lock false
  | w => w

def Commit.wake : Commit → Commit
  | .waiting => .lock false
  | c => c

def Destructor.wake : Destructor → Destructor
  | .waiting => .woken
  | d => d

/-- `not_empty_.notify_all()`. -/
def notifyNotEmpty (s : State) : State := { s with workers := fun id => (s.workers id).wake }

/-- `not_full_.notify_all()`. -/
def notifyNotFull (s : State) : State := { s with commits := s.commits.map Commit.wake }

/-- `exitCond_.notify_all()`. -/
def notifyExit (s : State) : State := { s with destructor := s.destructor.wake }

/-! ## commit -/

/-- The conversion to `size_t`. -/
def toSize (n : ℤ) : ℕ := (n % 2 ^ 64).toNat

/-- One thread more, where the tasks are more than the idle threads. -/
def grow (s : State) : Option State :=
  if s.mode = .cached ∧ s.idleThreadCnt < s.taskSize ∧ s.curThreadCnt < s.threadMaxsize then
    (launch (newThread s) s.generateId).map fun s =>
      { s with curThreadCnt := s.curThreadCnt + 1, idleThreadCnt := s.idleThreadCnt + 1 }
  else some s

def put (s : State) (i : ℕ) : Option State :=
  grow (notifyNotEmpty
    { s with
      taskQueue := s.taskQueue ++ [i], taskSize := s.taskSize + 1, commits := s.commits.set i .accepted,
      log := { s.log with accepted := s.log.accepted ++ [i] } })

/-- Call `i` has the mutex and tests for room. -/
def commit (s : State) (i : ℕ) (timeout : Bool) : Option State :=
  if s.taskQueue.length < toSize s.taskMaxsize then put s i
  else some { s with commits := s.commits.set i (if timeout then .rejected else .waiting) }

/-! ## thread_func -/

/-- The end of a thread that has been idle for long. -/
def idleExit (s : State) (id : ℕ) : State :=
  setWorker { s with
    threads := s.threads.erase id, curThreadCnt := s.curThreadCnt - 1, idleThreadCnt := s.idleThreadCnt - 1 } id .exited

/-- The end of a thread whose pool has been stopped. -/
def stopExit (s : State) (id : ℕ) : State :=
  notifyExit (setWorker { s with threads := s.threads.erase id } id .exited)

def take (s : State) (id i : ℕ) (rest : List ℕ) : State :=
  let s := setWorker { s with
    idleThreadCnt := s.idleThreadCnt - 1, taskQueue := rest, taskSize := s.taskSize - 1,
    log := { s.log with taken := s.log.taken ++ [(id, i)] } } id (.task i)
  notifyNotFull (if rest = [] then s else notifyNotEmpty s)

/-- The loop of the waits, from its head. -/
def loop (s : State) (id : ℕ) : State :=
  match s.taskQueue with
  | [] => if s.running then setWorker s id .waiting else stopExit s id
  | i :: rest => take s id i rest

/-- The next step of thread `id`; `dur` is how long ago its last task was. -/
def threadFunc (s : State) (id dur : ℕ) : Option State :=
  match s.workers id with
  | .lock timeout =>
    if timeout ∧ threadMaxIdleTime ≤ dur ∧ s.initSize < s.curThreadCnt then some (idleExit s id) else some (loop s id)
  | .task i => some (setWorker { s with log := { s.log with ran := s.log.ran ++ [(id, i)] } } id .ran)
  | .ran => some (setWorker { s with idleThreadCnt := s.idleThreadCnt + 1 } id (.lock false))
  | .unborn | .waiting | .exited => none

/-! ## The destructor -/

/-- Its wait with the mutex held. -/
def waitThreads (s : State) : State := { s with destructor := if s.threads.card = 0 then .done else .waiting }

def destruct (s : State) : Option State :=
  match s.destructor with
  | .outside => some { s with running := false, destructor := .lock }
  | .lock => some (waitThreads (notifyNotEmpty s))
  | .woken => some (waitThreads s)
  | .waiting | .done => none

/-! ## Runs -/

inductive Event
  | call
  | commit (i : ℕ)
  | commitWakes (i : ℕ) (timeout : Bool)
  | worker (id dur : ℕ)
  | workerWakes (id : ℕ) (timeout : Bool)
  | destruct
  | destructWakes
deriving DecidableEq

def step (s : State) : Event → Option State
  | .call => some { s with commits := s.commits ++ [.lock false] }
  | .commit i =>
    match s.commits[i]? with
    | some (.lock timeout) => commit s i timeout
    | _ => none
  | .commitWakes i timeout =>
    match s.commits[i]? with
    | some .waiting => some { s with commits := s.commits.set i (.lock timeout) }
    | _ => none
  | .worker id dur => threadFunc s id dur
  | .workerWakes id timeout =>
    match s.workers id with
    -- only the wait of the cached mode is a timed one
    | .waiting => if timeout ∧ s.mode = .fixed then none else some (setWorker s id (.lock timeout))
    | _ => none
  | .destruct => destruct s
  | .destructWakes =>
    match s.destructor with
    | .waiting => some { s with destructor := .woken }
    | _ => none

end Learncc.ThreadPool
