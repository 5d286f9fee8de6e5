/-
What the counters of a `thread_pool` count: the threads in `threads_`, the tasks in
`task_queue_`; and where the tasks go.

`run_thread_accounts`: it holds at every moment at which the mutex is free, from the return
of `start` to the destructor.
-/
import Learncc.Threadpool.ThreadPool
import Learncc.Lib.Calls
import Mathlib.Data.List.Nodup
import Mathlib.Order.Interval.Finset.Nat

namespace Learncc.ThreadPool

variable {s t : State} {id i dur : ℕ} {w : Worker}

/-! ## start -/

/-- A pool that has not been started, the first one of its process. -/
structure Fresh (s : State) : Prop where
  running : s.running = false
  threads : s.threads = ∅
  generateId : s.generateId = 0
  idle : s.idleThreadCnt = 0
  taskQueue : s.taskQueue = []
  taskSize : s.taskSize = 0
  workers : s.workers = fun _ => .unborn
  commits : s.commits = []
  destructor : s.destructor = .outside
  log : s.log = ⟨[], [], []⟩

theorem Fresh.set (h : Fresh s) (setter : Setter) : Fresh (set s setter) := by
  have hstopped : ¬ s.running = true := by simp [h.running]
  cases setter with
  | mode mode =>
    simp only [ThreadPool.set, setMode, if_neg hstopped]
    exact ⟨h.1, h.2, h.3, h.4, h.5, h.6, h.7, h.8, h.9, h.10⟩
  | taskMaxsize threshhold =>
    simp only [ThreadPool.set, setTaskMaxsize, if_neg hstopped]
    exact ⟨h.1, h.2, h.3, h.4, h.5, h.6, h.7, h.8, h.9, h.10⟩
  | threadMaxsize size =>
    simp only [ThreadPool.set, setThreadMaxsize, if_neg hstopped]
    by_cases hmode : s.mode = .cached
    · rw [if_pos hmode]
      exact ⟨h.1, h.2, h.3, h.4, h.5, h.6, h.7, h.8, h.9, h.10⟩
    · rw [if_neg hmode]
      exact h

theorem fresh_configured (c : Class) (setters : List Setter) : Fresh (configured c setters) := by
  unfold configured
  have hmade : Fresh (threadPool c) := ⟨rfl, rfl, rfl, rfl, rfl, rfl, rfl, rfl, rfl, rfl⟩
  induction setters using List.reverseRecOn with
  | nil => exact hmade
  | append_singleton setters setter ih =>
    rw [List.foldl_append]
    exact ih.set setter

/-- The loop that makes the threads. -/
theorem foldl_newThread (s : State) (n : ℕ) :
    (List.range n).foldl (fun s _ => newThread s) s = { s with
      threads := s.threads ∪ Finset.Ico s.generateId (s.generateId + n), generateId := s.generateId + n } := by
  induction n with
  | zero => simp
  | succ n ih =>
    rw [List.range_succ, List.foldl_append, ih, ← Nat.add_assoc]
    rw [Nat.Ico_succ_right_eq_insert_Ico (Nat.le_add_right _ _), Finset.union_insert]
    rfl

/-- The loop that starts them. -/
theorem foldlM_launch (hw : s.workers = fun _ => .unborn) (hi : s.idleThreadCnt = 0) (n : ℕ)
    (hn : Finset.range n ⊆ s.threads) :
    (List.range n).foldlM (fun s i => (launch s i).map fun s => { s with idleThreadCnt := s.idleThreadCnt + 1 }) s =
      some { s with workers := fun id => if id < n then .lock false else .unborn, idleThreadCnt := n } := by
  induction n with
  | zero =>
    simp only [Nat.not_lt_zero, if_false, Nat.cast_zero, ← hw, ← hi]
    rfl
  | succ n ih =>
    have hsub : Finset.range n ⊆ s.threads := (Finset.range_subset_range.2 (Nat.le_succ n)).trans hn
    have hmem : n ∈ s.threads := hn (Finset.self_mem_range_succ n)
    have hworkers : (Function.update (fun id => if id < n then Worker.lock false else .unborn) n (.lock false)) =
        fun id => if id < n + 1 then Worker.lock false else .unborn := by
      funext id
      rw [Function.update_apply]
      rcases Nat.lt_trichotomy id n with hlt | heq | hgt
      · rw [if_neg hlt.ne, if_pos hlt, if_pos (by omega)]
      · rw [if_pos heq, if_pos (by omega)]
      · rw [if_neg hgt.ne', if_neg (by omega), if_neg (by omega)]
    rw [List.range_succ, List.foldlM_append, ih hsub]
    simp only [Option.bind_eq_bind, Option.bind_some, List.foldlM_cons, List.foldlM_nil, launch, hmem, if_true,
      Option.map_some, setWorker, hworkers]
    rfl

/-- The first pool is started with the threads `0`, `1`, .., and nothing else in it. -/
theorem Fresh.start (h : Fresh s) (n : ℤ) : start s n = some
    { s with
      running := true, initSize := n, curThreadCnt := n, threads := Finset.range n.toNat, generateId := n.toNat,
      workers := fun id => if id < n.toNat then .lock false else .unborn, idleThreadCnt := n.toNat } := by
  unfold ThreadPool.start
  simp only [foldl_newThread, h.generateId, h.threads, Finset.empty_union, Nat.zero_add, ← Finset.range_eq_Ico]
  exact foldlM_launch (s := { s with
    running := true, initSize := n, curThreadCnt := n, threads := Finset.range n.toNat, generateId := n.toNat })
    h.workers h.idle n.toNat (Finset.Subset.refl _)

/-! ## The threads -/

/-- The thread has been started and is not back. -/
def Worker.alive : Worker → Bool
  | .unborn | .exited => false
  | .lock _ | .waiting | .task _ | .ran => true

@[simp] theorem Worker.alive_wake : w.wake.alive = w.alive := by cases w <;> rfl

/-- `threads_` has the threads that are alive, and `cur_thread_cnt_` is their number
as long as the pool is not stopped. -/
structure Threads (s : State) : Prop where
  alive : ∀ id, id ∈ s.threads ↔ (s.workers id).alive = true
  fresh : ∀ id ∈ s.threads, id < s.generateId
  running : s.destructor = .outside → s.running = true
  count : s.destructor = .outside → (s.threads.card : ℤ) = s.curThreadCnt
  least : s.initSize ≤ s.curThreadCnt
  most : s.curThreadCnt ≤ max s.initSize s.threadMaxsize

theorem Threads.setWorker (h : Threads s) (hid : id ∈ s.threads) (hw : w.alive = true) :
    Threads (setWorker s id w) := by
  refine ⟨fun j => ?_, h.fresh, h.running, h.count, h.least, h.most⟩
  show j ∈ s.threads ↔ (Function.update s.workers id w j).alive = true
  rw [Function.update_apply]
  split
  · rename_i hj
    rw [hj, hw]
    exact iff_of_true hid rfl
  · exact h.alive j

theorem Threads.notifyNotEmpty (h : Threads s) : Threads (notifyNotEmpty s) := by
  refine ⟨fun j => ?_, h.fresh, h.running, h.count, h.least, h.most⟩
  show j ∈ s.threads ↔ (s.workers j).wake.alive = true
  rw [Worker.alive_wake]
  exact h.alive j

theorem Threads.notifyNotFull (h : Threads s) : Threads (notifyNotFull s) :=
  ⟨h.alive, h.fresh, h.running, h.count, h.least, h.most⟩

theorem Destructor.wake_eq_outside {d : Destructor} (h : d.wake = .outside) : d = .outside := by
  cases d <;> first | rfl | cases h

theorem Threads.notifyExit (h : Threads s) : Threads (notifyExit s) :=
  ⟨h.alive, h.fresh, fun hd => h.running (Destructor.wake_eq_outside hd),
    fun hd => h.count (Destructor.wake_eq_outside hd), h.least, h.most⟩

/-- The threads after one of them is back. -/
theorem Threads.alive_exit (h : Threads s) (j : ℕ) :
    j ∈ s.threads.erase id ↔ (Function.update s.workers id .exited j).alive = true := by
  rw [Finset.mem_erase, Function.update_apply]
  split
  · rename_i hj
    exact iff_of_false (fun hn => hn.1 hj) (by simp [Worker.alive])
  · rename_i hj
    rw [h.alive j]
    exact and_iff_right hj

theorem Threads.idleExit (h : Threads s) (hid : id ∈ s.threads) (hmore : s.initSize < s.curThreadCnt) :
    Threads (idleExit s id) := by
  refine ⟨h.alive_exit, fun j hj => h.fresh j (Finset.mem_of_mem_erase hj), h.running, fun hd => ?_, ?_, ?_⟩
  · have hcount := h.count hd
    have hcard := Finset.card_erase_add_one hid
    show ((s.threads.erase id).card : ℤ) = s.curThreadCnt - 1
    omega
  · show s.initSize ≤ s.curThreadCnt - 1
    omega
  · have hmost := h.most
    show s.curThreadCnt - 1 ≤ max s.initSize s.threadMaxsize
    omega

theorem Threads.stopExit (h : Threads s) (hstop : s.running = false) : Threads (stopExit s id) := by
  have hnot : s.destructor ≠ .outside := by
    intro hd
    rw [h.running hd] at hstop
    cases hstop
  exact Threads.notifyExit (s := ThreadPool.setWorker { s with threads := s.threads.erase id } id .exited)
    ⟨h.alive_exit, fun j hj => h.fresh j (Finset.mem_of_mem_erase hj), fun hd => absurd hd hnot,
      fun hd => absurd hd hnot, h.least, h.most⟩

/-- One thread more. -/
theorem Threads.grow (h : Threads s) (hg : grow s = some t) : Threads t := by
  unfold ThreadPool.grow at hg
  split at hg
  · rename_i hroom
    have hnew : s.generateId ∉ s.threads := fun hmem => Nat.lt_irrefl _ (h.fresh _ hmem)
    simp only [launch, newThread, Finset.mem_insert_self, if_true, Option.map_some, Option.some.injEq] at hg
    subst hg
    refine ⟨fun j => ?_, fun j hj => ?_, h.running, fun hd => ?_, ?_, ?_⟩
    · show j ∈ insert s.generateId s.threads ↔ (Function.update s.workers s.generateId (.lock false) j).alive = true
      rw [Finset.mem_insert, Function.update_apply]
      split
      · rename_i hj
        exact iff_of_true (.inl hj) rfl
      · rename_i hj
        rw [or_iff_right hj]
        exact h.alive j
    · rcases Finset.mem_insert.1 hj with rfl | hj
      · exact Nat.lt_succ_self _
      · exact Nat.lt_succ_of_lt (h.fresh j hj)
    · have hcount := h.count hd
      show ((insert s.generateId s.threads).card : ℤ) = s.curThreadCnt + 1
      rw [Finset.card_insert_of_notMem hnew]
      push_cast
      omega
    · have hleast := h.least
      show s.initSize ≤ s.curThreadCnt + 1
      omega
    · obtain ⟨-, -, hmax⟩ := hroom
      show s.curThreadCnt + 1 ≤ max s.initSize s.threadMaxsize
      omega
  · cases hg
    exact h

theorem Threads.put (h : Threads s) (hp : put s i = some t) : Threads t :=
  have hput : Threads
      { s with
        taskQueue := s.taskQueue ++ [i], taskSize := s.taskSize + 1, commits := s.commits.set i .accepted,
        log := { s.log with accepted := s.log.accepted ++ [i] } } :=
    ⟨h.alive, h.fresh, h.running, h.count, h.least, h.most⟩
  hput.notifyNotEmpty.grow hp

theorem Threads.take (h : Threads s) (hid : id ∈ s.threads) (rest : List ℕ) : Threads (take s id i rest) := by
  have htaken : Threads (ThreadPool.setWorker { s with
      idleThreadCnt := s.idleThreadCnt - 1, taskQueue := rest, taskSize := s.taskSize - 1,
      log := { s.log with taken := s.log.taken ++ [(id, i)] } } id (.task i)) :=
    Threads.setWorker ⟨h.alive, h.fresh, h.running, h.count, h.least, h.most⟩ hid rfl
  unfold ThreadPool.take
  split
  · exact htaken.notifyNotFull
  · exact htaken.notifyNotEmpty.notifyNotFull

theorem Threads.loop (h : Threads s) (hid : id ∈ s.threads) : Threads (loop s id) := by
  unfold ThreadPool.loop
  split
  · by_cases hrun : s.running = true
    · rw [if_pos hrun]
      exact h.setWorker hid rfl
    · rw [if_neg hrun]
      exact h.stopExit (Bool.eq_false_iff.2 hrun)
  · exact h.take hid _

theorem Threads.threadFunc (h : Threads s) (ht : threadFunc s id dur = some t) : Threads t := by
  have halive : (s.workers id).alive = true → id ∈ s.threads := (h.alive id).2
  unfold ThreadPool.threadFunc at ht
  split at ht
  · rename_i timeout hw
    have hid : id ∈ s.threads := halive (by rw [hw]; rfl)
    split at ht
    · rename_i hidle
      cases ht
      exact h.idleExit hid hidle.2.2
    · cases ht
      exact h.loop hid
  · rename_i i hw
    cases ht
    exact Threads.setWorker (s := { s with log := { s.log with ran := s.log.ran ++ [(id, i)] } })
      ⟨h.alive, h.fresh, h.running, h.count, h.least, h.most⟩ (halive (by rw [hw]; rfl)) rfl
  · rename_i hw
    cases ht
    exact Threads.setWorker (s := { s with idleThreadCnt := s.idleThreadCnt + 1 })
      ⟨h.alive, h.fresh, h.running, h.count, h.least, h.most⟩ (halive (by rw [hw]; rfl)) rfl
  all_goals cases ht

/-- The destructor moves on. -/
theorem Threads.setDestructor (h : Threads s) {d : Destructor} (hd : d ≠ .outside) :
    Threads { s with destructor := d } :=
  ⟨h.alive, h.fresh, fun ho => absurd ho hd, fun ho => absurd ho hd, h.least, h.most⟩

theorem Threads.waitThreads (h : Threads s) : Threads (waitThreads s) := by
  refine h.setDestructor ?_
  split <;> simp

theorem Threads.destruct (h : Threads s) (ht : destruct s = some t) : Threads t := by
  unfold ThreadPool.destruct at ht
  split at ht
  · cases ht
    have hstop : Threads { s with destructor := .lock } := h.setDestructor (by simp)
    exact ⟨hstop.alive, hstop.fresh, nofun, nofun, hstop.least, hstop.most⟩
  · cases ht
    exact h.notifyNotEmpty.waitThreads
  · cases ht
    exact h.waitThreads
  all_goals cases ht

theorem Threads.setCommits (h : Threads s) (commits : List Commit) : Threads { s with commits := commits } :=
  ⟨h.alive, h.fresh, h.running, h.count, h.least, h.most⟩

theorem Threads.step (h : Threads s) {e : Event} (ht : step s e = some t) : Threads t := by
  cases e with
  | call =>
    cases ht
    exact h.setCommits _
  | commit i =>
    simp only [ThreadPool.step] at ht
    split at ht
    · unfold ThreadPool.commit at ht
      split at ht
      · exact h.put ht
      · cases ht
        exact h.setCommits _
    · cases ht
  | commitWakes i timeout =>
    simp only [ThreadPool.step] at ht
    split at ht
    · cases ht
      exact h.setCommits _
    · cases ht
  | worker id dur => exact h.threadFunc ht
  | workerWakes id timeout =>
    simp only [ThreadPool.step] at ht
    split at ht
    · rename_i hw
      split at ht
      · cases ht
      · cases ht
        exact h.setWorker ((h.alive id).2 (by rw [hw]; rfl)) rfl
    · cases ht
  | destruct => exact h.destruct ht
  | destructWakes =>
    simp only [ThreadPool.step] at ht
    split at ht
    · cases ht
      exact h.setDestructor (by simp)
    · cases ht

/-! ## The tasks -/

/-- A task is accepted once, waits its turn in the queue, is taken by one thread and
then run by it. -/
structure Tasks (s : State) : Prop where
  size : s.taskSize = s.taskQueue.length
  positive : 1 ≤ s.taskMaxsize
  room : (s.taskQueue.length : ℤ) ≤ s.taskMaxsize
  order : s.log.accepted = s.log.taken.map Prod.snd ++ s.taskQueue
  distinct : s.log.accepted.Nodup
  calls : ∀ i, i ∈ s.log.accepted ↔ s.commits[i]? = some .accepted
  runs : ∀ id i, (id, i) ∈ s.log.taken ↔ (id, i) ∈ s.log.ran ∨ s.workers id = .task i
  once : s.log.ran.Nodup
  ahead : ∀ id i, s.workers id = .task i → (id, i) ∉ s.log.ran

@[simp] theorem Worker.wake_eq_task : w.wake = .task i ↔ w = .task i := by cases w <;> simp [Worker.wake]

@[simp] theorem Commit.wake_eq_accepted {c : Commit} : c.wake = .accepted ↔ c = .accepted := by
  cases c <;> simp [Commit.wake]

theorem toSize_le {n : ℤ} (h : 1 ≤ n) : (toSize n : ℤ) ≤ n := by
  unfold toSize
  omega

theorem Tasks.congr_workers (h : Tasks s) {workers : ℕ → Worker}
    (hw : ∀ id i, workers id = .task i ↔ s.workers id = .task i) : Tasks { s with workers := workers } :=
  ⟨h.size, h.positive, h.room, h.order, h.distinct, h.calls,
    fun id i => (h.runs id i).trans (or_congr_right (hw id i).symm), h.once,
    fun id i hi => h.ahead id i ((hw id i).1 hi)⟩

theorem Tasks.setWorker (h : Tasks s) (hfrom : ∀ i, s.workers id ≠ .task i) (hto : ∀ i, w ≠ .task i) :
    Tasks (setWorker s id w) := by
  refine h.congr_workers fun j i => ?_
  rw [Function.update_apply]
  split
  · rename_i hj
    rw [hj]
    exact iff_of_false (hto i) (hfrom i)
  · exact Iff.rfl

theorem Tasks.notifyNotEmpty (h : Tasks s) : Tasks (notifyNotEmpty s) := h.congr_workers fun _ _ => Worker.wake_eq_task

theorem Tasks.setCommits (h : Tasks s) {commits : List Commit}
    (hc : ∀ i : ℕ, commits[i]? = some .accepted ↔ s.commits[i]? = some .accepted) :
    Tasks { s with commits := commits } :=
  ⟨h.size, h.positive, h.room, h.order, h.distinct, fun i => (h.calls i).trans (hc i).symm, h.runs, h.once, h.ahead⟩

theorem Tasks.notifyNotFull (h : Tasks s) : Tasks (notifyNotFull s) := by
  refine h.setCommits fun i => ?_
  rw [List.getElem?_map]
  cases s.commits[i]? with
  | none => simp
  | some c => simp

/-- The calls after one of them, not accepted before, has moved. -/
theorem accepted_set {commits : List Commit} {c c' : Commit} (hi : commits[i]? = some c) (hc : c ≠ .accepted)
    (hc' : c' ≠ .accepted) (j : ℕ) :
    (commits.set i c')[j]? = some .accepted ↔ commits[j]? = some .accepted := by
  by_cases hj : i = j
  · subst hj
    obtain ⟨hlt, -⟩ := List.getElem?_eq_some_iff.1 hi
    rw [List.getElem?_set_self hlt, hi]
    simp [hc, hc']
  · rw [List.getElem?_set_ne hj]

/-- The new thread has no task yet. -/
theorem Tasks.grow (h : Tasks s) (hthreads : Threads s) (hg : grow s = some t) : Tasks t := by
  unfold ThreadPool.grow at hg
  split at hg
  · have hnew : s.generateId ∉ s.threads := fun hmem => Nat.lt_irrefl _ (hthreads.fresh _ hmem)
    have hunborn : ∀ i, s.workers s.generateId ≠ .task i := by
      intro i hi
      exact hnew ((hthreads.alive _).2 (by rw [hi]; rfl))
    simp only [launch, newThread, Finset.mem_insert_self, if_true, Option.map_some, Option.some.injEq] at hg
    subst hg
    have hset := h.setWorker (w := .lock false) hunborn (by simp)
    exact ⟨hset.size, hset.positive, hset.room, hset.order, hset.distinct, hset.calls, hset.runs, hset.once, hset.ahead⟩
  · cases hg
    exact h

theorem Tasks.put (h : Tasks s) (hthreads : Threads s) {timeout : Bool} (hi : s.commits[i]? = some (.lock timeout))
    (hroom : s.taskQueue.length < toSize s.taskMaxsize) (hp : put s i = some t) : Tasks t := by
  have hnot : i ∉ s.log.accepted := by
    intro hmem
    rw [h.calls i, hi] at hmem
    cases hmem
  obtain ⟨hlt, -⟩ := List.getElem?_eq_some_iff.1 hi
  have hput : Tasks
      { s with
        taskQueue := s.taskQueue ++ [i], taskSize := s.taskSize + 1, commits := s.commits.set i .accepted,
        log := { s.log with accepted := s.log.accepted ++ [i] } } := by
    refine ⟨?_, h.positive, ?_, ?_, ?_, fun j => ?_, h.runs, h.once, h.ahead⟩
    · show s.taskSize + 1 = ((s.taskQueue ++ [i]).length : ℤ)
      rw [h.size, List.length_append]
      rfl
    · have hle := toSize_le h.positive
      show ((s.taskQueue ++ [i]).length : ℤ) ≤ s.taskMaxsize
      rw [List.length_append, List.length_singleton]
      push_cast
      omega
    · show s.log.accepted ++ [i] = s.log.taken.map Prod.snd ++ (s.taskQueue ++ [i])
      rw [h.order, List.append_assoc]
    · exact List.perm_append_comm.nodup_iff.2 (List.nodup_cons.2 ⟨hnot, h.distinct⟩)
    · show j ∈ s.log.accepted ++ [i] ↔ (s.commits.set i .accepted)[j]? = some .accepted
      rw [List.mem_append, h.calls, List.mem_singleton]
      by_cases hj : i = j
      · subst hj
        rw [List.getElem?_set_self hlt]
        simp
      · rw [List.getElem?_set_ne hj, or_iff_left (Ne.symm hj)]
  exact hput.notifyNotEmpty.grow (Threads.notifyNotEmpty
    (s := { s with
        taskQueue := s.taskQueue ++ [i], taskSize := s.taskSize + 1, commits := s.commits.set i .accepted,
        log := { s.log with accepted := s.log.accepted ++ [i] } })
    ⟨hthreads.alive, hthreads.fresh, hthreads.running, hthreads.count, hthreads.least, hthreads.most⟩) hp

/-- The first task of the queue goes to thread `id`, which has none. -/
theorem Tasks.take (h : Tasks s) (hw : ∀ i, s.workers id ≠ .task i) {rest : List ℕ} (hq : s.taskQueue = i :: rest) :
    Tasks (take s id i rest) := by
  have hdistinct := h.distinct
  rw [h.order, hq] at hdistinct
  have hnot : ∀ id, (id, i) ∉ s.log.taken := by
    intro j hmem
    exact List.disjoint_of_nodup_append hdistinct (List.mem_map.2 ⟨_, hmem, rfl⟩) List.mem_cons_self
  have htaken : Tasks (ThreadPool.setWorker { s with
      idleThreadCnt := s.idleThreadCnt - 1, taskQueue := rest, taskSize := s.taskSize - 1,
      log := { s.log with taken := s.log.taken ++ [(id, i)] } } id (.task i)) := by
    refine ⟨?_, h.positive, ?_, ?_, h.distinct, h.calls, fun j k => ?_, h.once, fun j k hk => ?_⟩
    · have hsize := h.size
      rw [hq] at hsize
      show s.taskSize - 1 = (rest.length : ℤ)
      rw [hsize, List.length_cons]
      push_cast
      omega
    · have hroom := h.room
      rw [hq, List.length_cons] at hroom
      show (rest.length : ℤ) ≤ s.taskMaxsize
      push_cast at hroom
      omega
    · show s.log.accepted = (s.log.taken ++ [(id, i)]).map Prod.snd ++ rest
      rw [h.order, hq, List.map_append, List.append_assoc]
      rfl
    · show (j, k) ∈ s.log.taken ++ [(id, i)] ↔
        (j, k) ∈ s.log.ran ∨ Function.update s.workers id (.task i) j = .task k
      rw [List.mem_append, h.runs, Function.update_apply, List.mem_singleton, or_assoc, Prod.mk.injEq]
      refine or_congr_right ?_
      split
      · rename_i hj
        subst hj
        simp [hw, eq_comm]
      · rename_i hj
        simp [hj]
    · have hk' : Function.update s.workers id (.task i) j = .task k := hk
      rw [Function.update_apply] at hk'
      split at hk'
      · cases hk'
        exact fun hmem => hnot _ ((h.runs _ _).2 (.inl hmem))
      · exact h.ahead j k hk'
  unfold ThreadPool.take
  split
  · exact htaken.notifyNotFull
  · exact htaken.notifyNotEmpty.notifyNotFull

/-- A thread has run its task. -/
theorem Tasks.ran (h : Tasks s) (hw : s.workers id = .task i) :
    Tasks (ThreadPool.setWorker { s with log := { s.log with ran := s.log.ran ++ [(id, i)] } } id .ran) := by
  refine ⟨h.size, h.positive, h.room, h.order, h.distinct, h.calls, fun j k => ?_, ?_, fun j k hk hmem => ?_⟩
  · show (j, k) ∈ s.log.taken ↔ (j, k) ∈ s.log.ran ++ [(id, i)] ∨ Function.update s.workers id .ran j = .task k
    rw [h.runs, List.mem_append, List.mem_singleton, Function.update_apply, or_assoc, Prod.mk.injEq]
    refine or_congr_right ?_
    split
    · rename_i hj
      subst hj
      simp [hw, eq_comm]
    · rename_i hj
      simp [hj]
  · exact List.perm_append_comm.nodup_iff.2 (List.nodup_cons.2 ⟨h.ahead id i hw, h.once⟩)
  · have hk' : Function.update s.workers id .ran j = .task k := hk
    rw [Function.update_apply] at hk'
    split at hk'
    · cases hk'
    · rename_i hj
      rcases List.mem_append.1 hmem with hmem | hmem
      · exact h.ahead j k hk' hmem
      · rw [List.mem_singleton, Prod.mk.injEq] at hmem
        exact hj hmem.1

theorem Tasks.loop (h : Tasks s) (hw : ∀ i, s.workers id ≠ .task i) : Tasks (loop s id) := by
  unfold ThreadPool.loop
  split
  · split
    · exact h.setWorker hw (by simp)
    · have hexit := h.setWorker (w := .exited) hw (by simp)
      exact ⟨hexit.size, hexit.positive, hexit.room, hexit.order, hexit.distinct, hexit.calls, hexit.runs, hexit.once,
        hexit.ahead⟩
  · rename_i i rest hq
    exact h.take hw hq

theorem Tasks.threadFunc (h : Tasks s) (ht : threadFunc s id dur = some t) : Tasks t := by
  unfold ThreadPool.threadFunc at ht
  split at ht
  · rename_i timeout hw
    have hfrom : ∀ i, s.workers id ≠ .task i := by simp [hw]
    split at ht
    · cases ht
      have hexit := h.setWorker (w := .exited) hfrom (by simp)
      exact ⟨hexit.size, hexit.positive, hexit.room, hexit.order, hexit.distinct, hexit.calls, hexit.runs, hexit.once,
        hexit.ahead⟩
    · cases ht
      exact h.loop hfrom
  · rename_i i hw
    cases ht
    exact h.ran hw
  · rename_i hw
    cases ht
    have hback : Tasks (ThreadPool.setWorker s id (.lock false)) := h.setWorker (by simp [hw]) (by simp)
    exact ⟨hback.size, hback.positive, hback.room, hback.order, hback.distinct, hback.calls, hback.runs, hback.once,
      hback.ahead⟩
  all_goals cases ht

theorem Tasks.destruct (h : Tasks s) (ht : destruct s = some t) : Tasks t := by
  unfold ThreadPool.destruct at ht
  split at ht
  · cases ht
    exact ⟨h.size, h.positive, h.room, h.order, h.distinct, h.calls, h.runs, h.once, h.ahead⟩
  · cases ht
    have hwoken := h.notifyNotEmpty
    exact ⟨hwoken.size, hwoken.positive, hwoken.room, hwoken.order, hwoken.distinct, hwoken.calls, hwoken.runs,
      hwoken.once, hwoken.ahead⟩
  · cases ht
    exact ⟨h.size, h.positive, h.room, h.order, h.distinct, h.calls, h.runs, h.once, h.ahead⟩
  all_goals cases ht

theorem Tasks.step (h : Tasks s) (hthreads : Threads s) {e : Event} (ht : step s e = some t) : Tasks t := by
  cases e with
  | call =>
    cases ht
    refine h.setCommits fun j => ?_
    constructor
    · intro hj
      rcases Calls.getElem?_concat_cases hj with hj | ⟨-, hj⟩
      · exact hj
      · cases hj
    · intro hj
      obtain ⟨hlt, -⟩ := List.getElem?_eq_some_iff.1 hj
      rw [List.getElem?_append_left hlt]
      exact hj
  | commit i =>
    simp only [ThreadPool.step] at ht
    split at ht
    · rename_i timeout hi
      unfold ThreadPool.commit at ht
      split at ht
      · rename_i hroom
        exact h.put hthreads hi hroom ht
      · cases ht
        exact h.setCommits (accepted_set hi (by simp) (by split <;> simp))
    · cases ht
  | commitWakes i timeout =>
    simp only [ThreadPool.step] at ht
    split at ht
    · rename_i hi
      cases ht
      exact h.setCommits (accepted_set hi (by simp) (by simp))
    · cases ht
  | worker id dur => exact h.threadFunc ht
  | workerWakes id timeout =>
    simp only [ThreadPool.step] at ht
    split at ht
    · rename_i hw
      split at ht
      · cases ht
      · cases ht
        exact h.setWorker (by simp [hw]) (by simp)
    · cases ht
  | destruct => exact h.destruct ht
  | destructWakes =>
    simp only [ThreadPool.step] at ht
    split at ht
    · cases ht
      exact ⟨h.size, h.positive, h.room, h.order, h.distinct, h.calls, h.runs, h.once, h.ahead⟩
    · cases ht

/-! ## Every moment -/

/-- The counters count what they are there for. Each accepted task is either in the
queue, once, or one thread has taken it, in the order of the queue; that thread has
run it once or has yet to. -/
structure Accounts (s : State) : Prop where
  threads : (s.threads.card : ℤ) = s.curThreadCnt
  least : s.initSize ≤ s.curThreadCnt
  most : s.curThreadCnt ≤ max s.initSize s.threadMaxsize
  taskSize : s.taskSize = s.taskQueue.length
  room : s.taskSize ≤ s.taskMaxsize
  accepted : ∀ i, i ∈ s.log.accepted ↔ s.commits[i]? = some .accepted
  distinct : s.log.accepted.Nodup
  order : s.log.accepted = s.log.taken.map Prod.snd ++ s.taskQueue
  one : ∀ i ∈ s.log.accepted,
    (s.taskQueue.count i = 1 ∧ ∀ id, (id, i) ∉ s.log.taken) ∨ (i ∉ s.taskQueue ∧ ∃! id, (id, i) ∈ s.log.taken)
  runs : ∀ p ∈ s.log.taken,
    (s.log.ran.count p = 1 ∧ s.workers p.1 ≠ .task p.2) ∨ (s.log.ran.count p = 0 ∧ s.workers p.1 = .task p.2)
  ran : ∀ p ∈ s.log.ran, p ∈ s.log.taken

/-- An accepted task is in the queue or taken, not both and not twice. -/
theorem Tasks.one (h : Tasks s) (hi : i ∈ s.log.accepted) :
    (s.taskQueue.count i = 1 ∧ ∀ id, (id, i) ∉ s.log.taken) ∨ (i ∉ s.taskQueue ∧ ∃! id, (id, i) ∈ s.log.taken) := by
  have hdistinct := h.distinct
  rw [h.order] at hi hdistinct
  obtain ⟨htaken, hqueue, hdisjoint⟩ := List.nodup_append'.1 hdistinct
  rcases List.mem_append.1 hi with hmem | hmem
  · refine .inr ⟨fun hq => hdisjoint hmem hq, ?_⟩
    obtain ⟨⟨id, k⟩, hp, rfl⟩ := List.mem_map.1 hmem
    refine ⟨id, hp, fun j hj => ?_⟩
    have hsame := List.inj_on_of_nodup_map htaken hj hp rfl
    exact (Prod.mk.inj hsame).1
  · refine .inl ⟨List.count_eq_one_of_mem hqueue hmem, fun id hp => ?_⟩
    exact hdisjoint (List.mem_map.2 ⟨_, hp, rfl⟩) hmem

theorem Tasks.accounts (h : Tasks s) (hthreads : Threads s) (hbefore : s.destructor = .outside) : Accounts s := by
  refine ⟨hthreads.count hbefore, hthreads.least, hthreads.most, h.size, ?_, h.calls, h.distinct, h.order,
    fun i hi => h.one hi, ?_, ?_⟩
  · rw [h.size]
    exact h.room
  · intro p hp
    rcases (h.runs p.1 p.2).1 hp with hran | htask
    · exact .inl ⟨List.count_eq_one_of_mem h.once hran, fun htask => h.ahead p.1 p.2 htask hran⟩
    · exact .inr ⟨List.count_eq_zero_of_not_mem (h.ahead p.1 p.2 htask), htask⟩
  · intro p hp
    exact (h.runs p.1 p.2).2 (.inl hp)

/-- The threads that `start` leaves behind. -/
theorem Fresh.threads_start (h : Fresh s) {n : ℤ} (hn : 0 ≤ n) (ht : ThreadPool.start s n = some t) : Threads t := by
  rw [h.start n] at ht
  cases ht
  refine ⟨fun id => ?_, fun id hid => Finset.mem_range.1 hid, fun _ => rfl, fun _ => ?_, Int.le_refl n,
    Int.le_max_left ..⟩
  · show id ∈ Finset.range n.toNat ↔ (if id < n.toNat then Worker.lock false else .unborn).alive = true
    rw [Finset.mem_range]
    split
    · rename_i hid
      exact iff_of_true hid rfl
    · rename_i hid
      exact iff_of_false hid (by simp [Worker.alive])
  · rw [Finset.card_range]
    exact Int.toNat_of_nonneg hn

/-- There are no tasks yet. -/
theorem Fresh.tasks_start (h : Fresh s) {n : ℤ} (hmax : 1 ≤ s.taskMaxsize) (ht : ThreadPool.start s n = some t) :
    Tasks t := by
  rw [h.start n] at ht
  cases ht
  refine ⟨?_, hmax, ?_, ?_, ?_, fun i => ?_, fun id i => ?_, ?_, fun id i hi => ?_⟩
  · simp [h.taskSize, h.taskQueue]
  · simp only [h.taskQueue, List.length_nil, Nat.cast_zero]
    omega
  · simp [h.log, h.taskQueue]
  · simp [h.log]
  · simp [h.log, h.commits]
  · simp only [h.log, List.not_mem_nil, false_or, false_iff]
    split <;> simp
  · simp [h.log]
  · simp [h.log]

theorem run_tasks {events : List Event} (h : Threads s ∧ Tasks s) (ht : Run.run step s events = some t) :
    Threads t ∧ Tasks t :=
  Run.run_invariant (fun s => Threads s ∧ Tasks s)
    (fun _ _ _ hs hstep => ⟨hs.1.step hstep, hs.2.step hs.1 hstep⟩) h ht

/-- **The pool's accounts hold at every moment.** For the first pool of a process, with
any settings and any number of threads from one on, and for any interleaving of
`commit`s with its threads until the destructor is called. -/
theorem run_thread_accounts (c : Class) (setters : List Setter) (n : ℤ) (hn : 1 ≤ n)
    (hmax : 1 ≤ (configured c setters).taskMaxsize) :
    ∃ s₀, start (configured c setters) n = some s₀ ∧ ∀ events s, Run.run step s₀ events = some s →
      s.destructor = .outside → Accounts s := by
  have hfresh := fresh_configured c setters
  refine ⟨_, hfresh.start n, fun events s hs hbefore => ?_⟩
  have hstarted := hfresh.threads_start (n := n) (by omega) (hfresh.start n)
  obtain ⟨hthreads, htasks⟩ := run_tasks ⟨hstarted, hfresh.tasks_start hmax (hfresh.start n)⟩ hs
  exact htasks.accounts hthreads hbefore

/-- The second task brings a second thread, which runs the first task and leaves after
a minute. -/
def growAndShrink : List Event :=
  [.call, .commit 0, .call, .commit 1, .worker 1 0, .worker 0 0, .worker 1 0, .worker 1 0, .worker 1 0,
    .workerWakes 1 true, .worker 1 60]

theorem run_thread_accounts_growAndShrink :
    ∃ s₀ s, start (configured .threadPool [.mode .cached]) 1 = some s₀ ∧ Run.run step s₀ growAndShrink = some s ∧
      s.log = ⟨[0, 1], [(1, 0), (0, 1)], [(1, 0)]⟩ ∧ s.threads = {0} ∧ Accounts s := by
  obtain ⟨s₀, hs₀, h⟩ := run_thread_accounts .threadPool [.mode .cached] 1 (by decide) (by decide)
  have hrun : ((start (configured .threadPool [.mode .cached]) 1).bind fun s₀ => Run.run step s₀ growAndShrink).map
      (fun s => (s.destructor, s.log, s.threads)) =
        some (.outside, ⟨[0, 1], [(1, 0), (0, 1)], [(1, 0)]⟩, {0}) := by
    decide +kernel
  rw [hs₀, Option.bind_some] at hrun
  obtain ⟨s, hs, he⟩ := Option.map_eq_some_iff.1 hrun
  simp only [Prod.mk.injEq] at he
  obtain ⟨hbefore, hlog, hthreads⟩ := he
  exact ⟨s₀, s, hs₀, hs, hlog, hthreads, h growAndShrink s hs hbefore⟩

end Learncc.ThreadPool
