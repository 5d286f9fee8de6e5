/-
What `submitTask` gives back (inc/threadpool/threadpool.h, src/threadpool/threadpool.cc):
a `Result` for each call, to which the task object points until the next call with
the same object. A worker runs the task in `Task::exec`, stores the value and posts
it to the semaphore at which `Result::get` waits.

A `Result` belongs to the caller, who may drop it at once: the task still points to it.

`run_values_own`: in every interleaving, each task is aimed at the `Result` of its own call
for as long as it needs it, and nothing uses a `Result` that has ended, if and only if no
task object is handed in again while it is pending, each `Result` outlives the `exec` of its
task and nobody calls `get` on one that has ended; and then each `get` comes back with what
the task of its `Result` returned.
-/
import Learncc.Threadpool.Accounting

namespace Learncc.ThreadPool

/-- Where `Task::exec` is for a call of `submitTask`: before it reads `result_`; in
`run`, with the `Result` read; before the value is stored in it; before the post; back. -/
inductive Exec (α : Type*)
  | unread
  | running (r : ℕ)
  | store (r : ℕ) (v : α)
  | post (r : ℕ)
  | back
deriving DecidableEq

/-- Where a call of `Result::get` is: before the mutex of the semaphore, in its wait,
before the move of `any_`, or back, with what was in it or because of `isValid_`. -/
inductive Get (α : Type*)
  | lock
  | waiting
  | moving
  | done (any_ : Option α)
  | invalid
deriving DecidableEq

/-- The permit is taken. -/
def Get.holds {α : Type*} : Get α → Bool
  | .moving | .done _ => true
  | .lock | .waiting | .invalid => false

def Get.wake {α : Type*} : Get α → Get α
  | .waiting => .lock
  | k => k

/-- The calls of `submitTask` and their `Result`s have the same numbers; `isValid_` is how the
call has ended. `tasks` are the objects they came with, `gets` the calls of `get` with the
`Result` of each; `returned` is what `run` returned, which nothing reads. `lives` are the
`Result`s from their construction to their end; `undefined` says that one was used after it. -/
structure Results (α : Type*) where
  pool : State
  tasks : ℕ → ℕ
  result_ : ℕ → Option ℕ
  execs : ℕ → Exec α
  any_ : ℕ → Option α
  resLimit : ℕ → ℕ
  gets : ℕ → Option (ℕ × Get α)
  returned : ℕ → Option α
  lives : ℕ → Bool
  undefined : Bool

namespace Results

variable {α : Type*}

/-- No task has been submitted to the pool. -/
def init (pool : State) : Results α :=
  { pool, tasks := fun _ => 0, result_ := fun _ => none, execs := fun _ => .unread, any_ := fun _ => none,
    resLimit := fun _ => 0, gets := fun _ => none, returned := fun _ => none, lives := fun _ => false,
    undefined := false }

def setExec (s : Results α) (i : ℕ) (e : Exec α) : Results α := { s with execs := Function.update s.execs i e }

def setGet (s : Results α) (g r : ℕ) (k : Get α) : Results α :=
  { s with gets := Function.update s.gets g (some (r, k)) }

/-- `Result(sp)`, also with `false`: `task_->setResult(this)`. -/
def setResult (s : Results α) (i : ℕ) : Results α :=
  { s with result_ := Function.update s.result_ (s.tasks i) (some i), lives := Function.update s.lives i true }

/-- `sem_.post()`. -/
def post (s : Results α) (r : ℕ) : Results α :=
  { s with
    resLimit := Function.update s.resLimit r (s.resLimit r + 1),
    gets := fun g => (s.gets g).map fun p => if p.1 = r then (p.1, p.2.wake) else p }

/-- The next step of `exec` but for the return of `run`. -/
def exec (s : Results α) (i : ℕ) : Option (Results α) :=
  match s.execs i with
  | .unread =>
    match s.result_ (s.tasks i) with
    | some r => some (s.setExec i (.running r))
    | none => some (s.setExec i .back)
  | .store r v => some (setExec { s with any_ := Function.update s.any_ r (some v) } i (.post r))
  | .post r => some ((s.post r).setExec i .back)
  | .running _ | .back => none

/-- `sem_.wait()` with its mutex held. -/
def semWait (s : Results α) (g r : ℕ) : Results α :=
  if 0 < s.resLimit r then
    setGet { s with resLimit := Function.update s.resLimit r (s.resLimit r - 1) } g r .moving
  else s.setGet g r .waiting

/-- What happens: `ends r` is the end of the caller's variable, or of the temporary, that
`Result` `r` is in. -/
inductive Event (α : Type*)
  | call (sp : ℕ)
  | pool (e : ThreadPool.Event)
  | exec (id : ℕ)
  | returns (id : ℕ) (v : α)
  | ends (r : ℕ)
  | get (g r : ℕ)
  | wait (g : ℕ)
  | wakes (g : ℕ)
  | move (g : ℕ)
deriving DecidableEq

/-- A step of the pool alone: a call of `submitTask` makes its `Result` before it lets go of
the mutex, and a thread is behind its task when `exec` is back. -/
def poolStep (s : Results α) : ThreadPool.Event → Option (Results α)
  | .call => none
  | .commit i => (ThreadPool.step s.pool (.commit i)).map fun pool =>
    if pool.commits[i]? = some .accepted ∨ pool.commits[i]? = some .rejected then setResult { s with pool } i
    else { s with pool }
  | .worker id dur =>
    match s.pool.workers id with
    | .task i =>
      match s.execs i with
      | .back => (ThreadPool.step s.pool (.worker id dur)).map fun pool => { s with pool }
      | _ => none
    | _ => (ThreadPool.step s.pool (.worker id dur)).map fun pool => { s with pool }
  | e => (ThreadPool.step s.pool e).map fun pool => { s with pool }

def act (s : Results α) : Event α → Option (Results α)
  | .call sp => (ThreadPool.step s.pool .call).map fun pool =>
    { s with pool, tasks := Function.update s.tasks s.pool.commits.length sp }
  | .pool e => s.poolStep e
  | .exec id =>
    match s.pool.workers id with
    | .task i => s.exec i
    | _ => none
  | .returns id v =>
    match s.pool.workers id with
    | .task i =>
      match s.execs i with
      | .running r => some (setExec { s with returned := Function.update s.returned i (some v) } i (.store r v))
      | _ => none
    | _ => none
  | .ends r =>
    if s.lives r = true then some { s with lives := Function.update s.lives r false } else none
  | .get g r =>
    match s.gets g, s.pool.commits[r]? with
    | none, some .accepted => some (s.setGet g r .lock)
    | none, some .rejected => some (s.setGet g r .invalid)
    | _, _ => none
  | .wait g =>
    match s.gets g with
    | some (r, .lock) => some (s.semWait g r)
    | _ => none
  | .wakes g =>
    match s.gets g with
    | some (r, .waiting) => some (s.setGet g r .lock)
    | _ => none
  | .move g =>
    match s.gets g with
    | some (r, .moving) => some (setGet { s with any_ := Function.update s.any_ r none } g r (.done (s.any_ r)))
    | _ => none

/-- The `Result` that is used: `exec` uses it when it stores the value and when it posts. -/
def uses (s : Results α) : Event α → Option ℕ
  | .exec id =>
    match s.pool.workers id with
    | .task i =>
      match s.execs i with
      | .store r _ | .post r => some r
      | .unread | .running _ | .back => none
    | _ => none
  | .get _ r => some r
  | .wait g | .wakes g | .move g => (s.gets g).map Prod.fst
  | .call _ | .pool _ | .returns .. | .ends _ => none

/-- The use of a `Result` that has ended is noted; what `act` does to it then means nothing. -/
def mark (s : Results α) (e : Event α) (t : Results α) : Results α :=
  { t with undefined := t.undefined || (s.uses e).any fun r => !s.lives r }

def step (s : Results α) (e : Event α) : Option (Results α) := (s.act e).map (s.mark e)

/-! ## What can go wrong -/

/-- The call has been accepted and `exec` has not read `result_` for it. -/
def Pending (s : Results α) (i : ℕ) : Prop := i ∈ s.pool.log.accepted ∧ s.execs i = .unread

/-- Its `exec` is not back. -/
def Unfinished (s : Results α) (i : ℕ) : Prop := i ∈ s.pool.log.accepted ∧ s.execs i ≠ .back

/-- The `Result` that `exec` is to store in: the one it has read, or is to read. -/
def target (s : Results α) (i : ℕ) : Option ℕ :=
  match s.execs i with
  | .unread => s.result_ (s.tasks i)
  | .running r | .store r _ | .post r => some r
  | .back => none

/-- A task whose `exec` is not back is aimed at the `Result` of its own call, which has not ended. -/
def Own (s : Results α) : Prop := ∀ i, s.Unfinished i → s.target i = some i ∧ s.lives i = true

/-- And no `Result` has been used that had ended. -/
def Aimed (s : Results α) : Prop := s.Own ∧ s.undefined = false

/-- The call that has the mutex has waited for a second, or there is room. -/
def Returns (s : Results α) (i : ℕ) : Prop :=
  s.pool.commits[i]? = some (.lock true) ∨
    (s.pool.commits[i]? = some (.lock false) ∧ s.pool.taskQueue.length < toSize s.pool.taskMaxsize)

/-- No call returns with a task object that is pending, no `Result` ends before the `exec` of
its task is back, and no call of `get` goes on with one that has ended. -/
def Outlives (s : Results α) : Event α → Prop
  | .pool (.commit i) => s.Returns i → ∀ j, s.Pending j → s.tasks j ≠ s.tasks i
  | .ends r => ¬ s.Unfinished r
  | .get _ r => s.lives r = true
  | .wait g | .wakes g | .move g => ∀ p ∈ s.gets g, s.lives p.1 = true
  | .call _ | .exec _ | .returns .. | .pool _ => True

/-! ## The pool's steps -/

section

variable {p q : State} {e : ThreadPool.Event}

theorem log_grow (h : grow p = some q) : q.log = p.log ∧ q.commits = p.commits := by
  unfold grow at h
  split at h
  · obtain ⟨u, hu, rfl⟩ := Option.map_eq_some_iff.1 h
    unfold launch at hu
    split at hu
    · cases hu
      exact ⟨rfl, rfl⟩
    · cases hu
  · cases h
    exact ⟨rfl, rfl⟩

theorem accepted_threadFunc {id dur : ℕ} (h : threadFunc p id dur = some q) : q.log.accepted = p.log.accepted := by
  unfold threadFunc at h
  split at h
  · split at h
    · cases h
      rfl
    · cases h
      unfold loop
      split
      · split <;> rfl
      · unfold take
        split <;> rfl
  all_goals
    cases h
    try rfl

/-- Only a commit brings a task. -/
theorem accepted_step (h : ThreadPool.step p e = some q) (he : ∀ i, e ≠ .commit i) :
    q.log.accepted = p.log.accepted := by
  cases e with
  | call =>
    cases h
    rfl
  | commit i => exact absurd rfl (he i)
  | commitWakes i timeout =>
    simp only [ThreadPool.step] at h
    split at h
    · cases h
      rfl
    · cases h
  | worker id dur => exact accepted_threadFunc h
  | workerWakes id timeout =>
    simp only [ThreadPool.step] at h
    split at h
    · split at h
      · cases h
      · cases h
        rfl
    · cases h
  | destruct =>
    simp only [ThreadPool.step, destruct] at h
    split at h
    all_goals
      cases h
      try rfl
  | destructWakes =>
    simp only [ThreadPool.step] at h
    split at h
    · cases h
      rfl
    · cases h

/-- A commit that has the mutex is accepted where there is room; else it is rejected
or waits. -/
theorem commit_cases {i : ℕ} (h : ThreadPool.step p (.commit i) = some q) :
    ∃ timeout, p.commits[i]? = some (.lock timeout) ∧
      ((p.taskQueue.length < toSize p.taskMaxsize ∧ q.commits[i]? = some .accepted ∧
        q.log.accepted = p.log.accepted ++ [i]) ∨
      (¬ p.taskQueue.length < toSize p.taskMaxsize ∧
        q.commits[i]? = some (if timeout then .rejected else .waiting) ∧ q.log.accepted = p.log.accepted)) := by
  simp only [ThreadPool.step] at h
  split at h
  · rename_i timeout hi
    obtain ⟨hlt, -⟩ := List.getElem?_eq_some_iff.1 hi
    refine ⟨timeout, hi, ?_⟩
    unfold commit at h
    split at h
    · rename_i hroom
      obtain ⟨hlog, hcommits⟩ := log_grow h
      refine .inl ⟨hroom, ?_, ?_⟩
      · rw [hcommits]
        exact List.getElem?_set_self hlt
      · rw [hlog]
        rfl
    · rename_i hroom
      cases h
      exact .inr ⟨hroom, List.getElem?_set_self hlt, rfl⟩
  · cases h

/-- It brings its own task at most. -/
theorem commit_accepted {i : ℕ} (h : ThreadPool.step p (.commit i) = some q) :
    (∀ j ∈ q.log.accepted, j = i ∨ j ∈ p.log.accepted) ∧ ∀ j ∈ p.log.accepted, j ∈ q.log.accepted := by
  obtain ⟨timeout, -, ⟨-, -, hlog⟩ | ⟨-, -, hlog⟩⟩ := commit_cases h
  · rw [hlog]
    refine ⟨fun j hj => ?_, fun j hj => List.mem_append_left _ hj⟩
    rw [List.mem_append, List.mem_singleton] at hj
    exact hj.symm
  · rw [hlog]
    exact ⟨fun j hj => .inr hj, fun j hj => hj⟩

end

/-! ## One step -/

section

variable {s t : Results α} {i j g r : ℕ} {k : Get α} {v : α}

theorem commit_returns {q : State} (hq : ThreadPool.step s.pool (.commit i) = some q) :
    (q.commits[i]? = some .accepted ∨ q.commits[i]? = some .rejected) ↔ s.Returns i := by
  obtain ⟨timeout, hi, ⟨hroom, hdone, -⟩ | ⟨hfull, hwaits, -⟩⟩ := commit_cases hq
  · refine iff_of_true (.inl hdone) ?_
    cases timeout with
    | true => exact .inl hi
    | false => exact .inr ⟨hi, hroom⟩
  · cases timeout with
    | true => exact iff_of_true (.inr hwaits) (.inl hi)
    | false => exact iff_of_false (by simp [hwaits]) (by simp [Returns, hi, hfull])

/-- A call that returns has made its `Result`; one that waits has brought no task. -/
theorem commit_poolStep (h : s.poolStep (.commit i) = some t) :
    ∃ q, ThreadPool.step s.pool (.commit i) = some q ∧
      ((s.Returns i ∧ t = setResult { s with pool := q } i) ∨
        (¬ s.Returns i ∧ q.log.accepted = s.pool.log.accepted ∧ t = { s with pool := q })) := by
  obtain ⟨q, hq, ht⟩ := Option.map_eq_some_iff.1 h
  refine ⟨q, hq, ?_⟩
  rw [← commit_returns hq]
  split at ht
  · exact .inl ⟨‹_›, ht.symm⟩
  · rename_i hback
    obtain ⟨timeout, -, ⟨-, hdone, -⟩ | ⟨-, -, hlog⟩⟩ := commit_cases hq
    · exact absurd (.inl hdone) hback
    · exact .inr ⟨hback, hlog, ht.symm⟩

/-- What a step of the pool leaves alone. -/
theorem poolStep_eq {e : ThreadPool.Event} (h : s.poolStep e = some t) :
    ThreadPool.step s.pool e = some t.pool ∧ t.tasks = s.tasks ∧ t.execs = s.execs ∧ t.any_ = s.any_ ∧
      t.resLimit = s.resLimit ∧ t.gets = s.gets ∧ t.returned = s.returned ∧
      t.undefined = s.undefined ∧ ((∀ i, e ≠ .commit i) → t.result_ = s.result_ ∧ t.lives = s.lives) := by
  cases e with
  | call => cases h
  | commit i =>
    obtain ⟨q, hq, ⟨-, rfl⟩ | ⟨-, -, rfl⟩⟩ := commit_poolStep h
    · exact ⟨hq, rfl, rfl, rfl, rfl, rfl, rfl, rfl, fun he => absurd rfl (he i)⟩
    · exact ⟨hq, rfl, rfl, rfl, rfl, rfl, rfl, rfl, fun _ => ⟨rfl, rfl⟩⟩
  | worker id dur =>
    have hq : ∃ q, ThreadPool.step s.pool (.worker id dur) = some q ∧ { s with pool := q } = t := by
      simp only [poolStep] at h
      split at h
      · split at h
        · exact Option.map_eq_some_iff.1 h
        · cases h
      · exact Option.map_eq_some_iff.1 h
    obtain ⟨q, hq, rfl⟩ := hq
    exact ⟨hq, rfl, rfl, rfl, rfl, rfl, rfl, rfl, fun _ => ⟨rfl, rfl⟩⟩
  | commitWakes _ _ | workerWakes _ _ | destruct | destructWakes =>
    obtain ⟨q, hq, rfl⟩ := Option.map_eq_some_iff.1 h
    exact ⟨hq, rfl, rfl, rfl, rfl, rfl, rfl, rfl, fun _ => ⟨rfl, rfl⟩⟩

/-- The other calls' `exec`s are where they were. -/
theorem exec_frame (h : s.exec i = some t) :
    t.pool = s.pool ∧ t.tasks = s.tasks ∧ t.result_ = s.result_ ∧ (t.lives = s.lives ∧ t.undefined = s.undefined) ∧
      (t.execs i ≠ .back → t.target i = s.target i) ∧ ∀ j, j ≠ i → t.execs j = s.execs j := by
  have hother : ∀ (f : ℕ → Exec α) (e : Exec α) j, j ≠ i → Function.update f i e j = f j :=
    fun f e j hj => Function.update_of_ne hj e f
  unfold exec at h
  split at h
  · rename_i hread
    split at h
    · rename_i r hr
      cases h
      exact ⟨rfl, rfl, rfl, ⟨rfl, rfl⟩, fun _ => by simp [target, setExec, hread, hr], hother _ _⟩
    · cases h
      exact ⟨rfl, rfl, rfl, ⟨rfl, rfl⟩, fun hback => absurd (by simp [setExec]) hback, hother _ _⟩
  · rename_i r v hstore
    cases h
    exact ⟨rfl, rfl, rfl, ⟨rfl, rfl⟩, fun _ => by simp [target, setExec, hstore], hother _ _⟩
  · cases h
    exact ⟨rfl, rfl, rfl, ⟨rfl, rfl⟩, fun hback => absurd (by simp [setExec]) hback, hother _ _⟩
  all_goals cases h

/-- The pool's own accounts, and that `exec` has begun for no call but those accepted. -/
structure Kept (s : Results α) : Prop where
  threads : Threads s.pool
  tasks : Tasks s.pool
  unread : ∀ i, i ∉ s.pool.log.accepted → s.execs i = .unread

theorem call_cases {sp : ℕ} (h : s.act (.call sp) = some t) :
    ∃ q, ThreadPool.step s.pool .call = some q ∧
      t = { s with pool := q, tasks := Function.update s.tasks s.pool.commits.length sp } := by
  simp only [act, Option.map_eq_some_iff] at h
  obtain ⟨q, hq, rfl⟩ := h
  exact ⟨q, hq, rfl⟩

theorem ends_cases (h : s.act (.ends r) = some t) :
    t = { s with lives := Function.update s.lives r false } := by
  simp only [act] at h
  split at h
  · exact (Option.some.inj h).symm
  · cases h

theorem exec_cases {id : ℕ} (h : s.act (.exec id) = some t) :
    ∃ i, s.pool.workers id = .task i ∧ s.exec i = some t := by
  simp only [act] at h
  split at h
  · rename_i i hw
    exact ⟨i, hw, h⟩
  · cases h

theorem returns_cases {id : ℕ} (h : s.act (.returns id v) = some t) :
    ∃ i r, s.pool.workers id = .task i ∧ s.execs i = .running r ∧
      t = setExec { s with returned := Function.update s.returned i (some v) } i (.store r v) := by
  simp only [act] at h
  split at h
  · rename_i i hw
    split at h
    · rename_i r hr
      exact ⟨i, r, hw, hr, (Option.some.inj h).symm⟩
    · cases h
  · cases h

/-- A call of `get` has no permit yet, and does not wait. -/
theorem get_cases (h : s.act (.get g r) = some t) :
    s.gets g = none ∧ ∃ k : Get α, k.holds = false ∧ k ≠ .waiting ∧ t = s.setGet g r k := by
  simp only [act] at h
  split at h
  · rename_i hg _
    exact ⟨hg, .lock, rfl, nofun, (Option.some.inj h).symm⟩
  · rename_i hg _
    exact ⟨hg, .invalid, rfl, nofun, (Option.some.inj h).symm⟩
  · cases h

theorem wait_cases (h : s.act (.wait g) = some t) : ∃ r, s.gets g = some (r, .lock) ∧ t = s.semWait g r := by
  simp only [act] at h
  split at h
  · rename_i r hg
    exact ⟨r, hg, (Option.some.inj h).symm⟩
  · cases h

theorem wakes_cases (h : s.act (.wakes g) = some t) :
    ∃ r, s.gets g = some (r, .waiting) ∧ t = s.setGet g r .lock := by
  simp only [act] at h
  split at h
  · rename_i r hg
    exact ⟨r, hg, (Option.some.inj h).symm⟩
  · cases h

theorem move_cases (h : s.act (.move g) = some t) :
    ∃ r, s.gets g = some (r, .moving) ∧
      t = setGet { s with any_ := Function.update s.any_ r none } g r (.done (s.any_ r)) := by
  simp only [act] at h
  split at h
  · rename_i r hg
    exact ⟨r, hg, (Option.some.inj h).symm⟩
  · cases h

theorem semWait_frame (s : Results α) (g r : ℕ) :
    (s.semWait g r).pool = s.pool ∧ (s.semWait g r).tasks = s.tasks ∧ (s.semWait g r).result_ = s.result_ ∧
      (s.semWait g r).execs = s.execs ∧ (s.semWait g r).lives = s.lives ∧
      (s.semWait g r).undefined = s.undefined := by
  unfold semWait
  split <;> exact ⟨rfl, rfl, rfl, rfl, rfl, rfl⟩

theorem pool_act {e : Event α} (h : s.act e = some t) :
    t.pool = s.pool ∨ ∃ e', ThreadPool.step s.pool e' = some t.pool := by
  cases e with
  | call sp =>
    obtain ⟨q, hq, rfl⟩ := call_cases h
    exact .inr ⟨_, hq⟩
  | pool e => exact .inr ⟨e, (poolStep_eq h).1⟩
  | ends r =>
    obtain rfl := ends_cases h
    exact .inl rfl
  | exec id =>
    obtain ⟨i, -, he⟩ := exec_cases h
    exact .inl (exec_frame he).1
  | returns id v =>
    obtain ⟨i, r, -, -, rfl⟩ := returns_cases h
    exact .inl rfl
  | get g r =>
    obtain ⟨-, k, -, -, rfl⟩ := get_cases h
    exact .inl rfl
  | wait g =>
    obtain ⟨r, -, rfl⟩ := wait_cases h
    exact .inl (s.semWait_frame g r).1
  | wakes g =>
    obtain ⟨r, -, rfl⟩ := wakes_cases h
    exact .inl rfl
  | move g =>
    obtain ⟨r, -, rfl⟩ := move_cases h
    exact .inl rfl

/-- A worker has only tasks that were accepted. -/
theorem Kept.accepted (h : s.Kept) {id : ℕ} (hw : s.pool.workers id = .task i) : i ∈ s.pool.log.accepted := by
  rw [h.tasks.order, List.mem_append]
  exact .inl (List.mem_map.2 ⟨(id, i), (h.tasks.runs id i).2 (.inr hw), rfl⟩)

/-- A step moves the `exec` of an accepted call only. -/
theorem execs_act (h : s.Kept) {e : Event α} (hs : s.act e = some t) :
    (∀ j ∈ s.pool.log.accepted, j ∈ t.pool.log.accepted) ∧
      ∀ j, j ∉ s.pool.log.accepted → t.execs j = s.execs j := by
  cases e with
  | call sp =>
    obtain ⟨q, hq, rfl⟩ := call_cases hs
    exact ⟨fun j hj => accepted_step hq nofun ▸ hj, fun _ _ => rfl⟩
  | pool e =>
    obtain ⟨hpool, -, hexecs, -⟩ := poolStep_eq hs
    refine ⟨fun j hj => ?_, fun _ _ => by rw [hexecs]⟩
    by_cases he : ∃ i, e = .commit i
    · obtain ⟨i, rfl⟩ := he
      exact (commit_accepted hpool).2 j hj
    · rw [accepted_step hpool fun i hi => he ⟨i, hi⟩]
      exact hj
  | exec id =>
    obtain ⟨i, hw, he⟩ := exec_cases hs
    obtain ⟨hpool, -, -, -, -, hother⟩ := exec_frame he
    refine ⟨fun j hj => by rwa [hpool], fun j hj => hother j ?_⟩
    rintro rfl
    exact hj (h.accepted hw)
  | returns id v =>
    obtain ⟨i, r, hw, -, rfl⟩ := returns_cases hs
    refine ⟨fun j hj => hj, fun j hj => Function.update_of_ne ?_ ..⟩
    rintro rfl
    exact hj (h.accepted hw)
  | ends r =>
    obtain rfl := ends_cases hs
    exact ⟨fun _ hj => hj, fun _ _ => rfl⟩
  | get g r =>
    obtain ⟨-, k, -, -, rfl⟩ := get_cases hs
    exact ⟨fun _ hj => hj, fun _ _ => rfl⟩
  | wait g =>
    obtain ⟨r, -, rfl⟩ := wait_cases hs
    obtain ⟨hpool, -, -, hexecs, -⟩ := s.semWait_frame g r
    exact ⟨fun j hj => by rwa [hpool], fun j _ => by rw [hexecs]⟩
  | wakes g =>
    obtain ⟨r, -, rfl⟩ := wakes_cases hs
    exact ⟨fun _ hj => hj, fun _ _ => rfl⟩
  | move g =>
    obtain ⟨r, -, rfl⟩ := move_cases hs
    exact ⟨fun _ hj => hj, fun _ _ => rfl⟩

theorem Kept.act {e : Event α} (h : s.Kept) (hs : s.act e = some t) : t.Kept := by
  obtain ⟨hmem, hexecs⟩ := execs_act h hs
  have hunread : ∀ i, i ∉ t.pool.log.accepted → t.execs i = .unread := by
    intro i hi
    have hnot : i ∉ s.pool.log.accepted := fun hacc => hi (hmem i hacc)
    rw [hexecs i hnot]
    exact h.unread i hnot
  rcases pool_act hs with heq | ⟨e', hpool⟩
  · exact ⟨heq ▸ h.threads, heq ▸ h.tasks, hunread⟩
  · exact ⟨h.threads.step hpool, h.tasks.step h.threads hpool, hunread⟩

/-! ## Tasks and their results -/

/-- No `exec` is further on, and where each is to store is the same. -/
theorem Own.congr (h : s.Own) (hlives : t.lives = s.lives)
    (hp : ∀ i, t.Unfinished i → s.Unfinished i ∧ t.target i = s.target i) : t.Own := by
  intro i hi
  obtain ⟨hi, htarget⟩ := hp i hi
  rw [hlives, htarget]
  exact h i hi

theorem target_congr (hr : t.result_ = s.result_) (htask : t.tasks i = s.tasks i) (hexec : t.execs i = s.execs i) :
    t.target i = s.target i := by
  unfold target
  rw [hr, htask, hexec]

/-- A call that returns points its task object to its `Result`, so no other call that is
pending may have come with it. -/
theorem Own.commit_iff (hkept : s.Kept) (h : s.Own) (hs : s.act (.pool (.commit i)) = some t) :
    t.Own ↔ s.Outlives (.pool (.commit i)) := by
  obtain ⟨q, hq, hcases⟩ := commit_poolStep hs
  obtain ⟨timeout, hi, -⟩ := commit_cases hq
  obtain ⟨hmem, hstay⟩ := commit_accepted hq
  have hnot : i ∉ s.pool.log.accepted := by
    intro hmem
    rw [hkept.tasks.calls i, hi] at hmem
    cases hmem
  rcases hcases with ⟨hreturns, rfl⟩ | ⟨hwaits, hlog, rfl⟩
  · have htarget : ∀ j, s.execs j = .unread → (setResult { s with pool := q } i).target j =
        Function.update s.result_ (s.tasks i) (some i) (s.tasks j) := by
      intro j hread
      simp only [target, setResult, hread]
    constructor
    · intro hown _ j hj hsame
      have hself := (hown j ⟨hstay j hj.1, by simp [setResult, hj.2]⟩).1
      rw [htarget j hj.2, hsame, Function.update_self, Option.some.injEq] at hself
      exact hnot (hself ▸ hj.1)
    · intro hfresh j hj
      rcases hmem j hj.1 with rfl | hj'
      · rw [htarget j (hkept.unread j hnot)]
        exact ⟨Function.update_self .., Function.update_self ..⟩
      · obtain ⟨hown, hlives⟩ := h j ⟨hj', hj.2⟩
        have hji : j ≠ i := fun hji => hnot (hji ▸ hj')
        refine ⟨?_, (Function.update_of_ne hji ..).trans hlives⟩
        cases hread : s.execs j with
        | unread =>
          rw [htarget j hread, Function.update_of_ne (hfresh hreturns j ⟨hj', hread⟩)]
          simpa only [target, hread] using hown
        | running | store | post | back => simpa only [target, setResult, hread] using hown
  · exact iff_of_true (h.congr rfl fun j hj => ⟨⟨hlog ▸ hj.1, hj.2⟩, rfl⟩) fun hreturns => absurd hreturns hwaits

/-- What an event that is about no `Result` of a call of `get` may do to them. -/
def Keeps (s : Results α) : Event α → Prop
  | .get .. | .wait _ | .wakes _ | .move _ => True
  | e => s.Outlives e

theorem Own.act_iff {e : Event α} (hkept : s.Kept) (h : s.Own) (hs : s.act e = some t) : t.Own ↔ s.Keeps e := by
  cases e with
  | call sp =>
    obtain ⟨q, hq, rfl⟩ := call_cases hs
    refine iff_of_true (h.congr rfl fun i hi => ?_) trivial
    have hmem : i ∈ s.pool.log.accepted := accepted_step hq nofun ▸ hi.1
    obtain ⟨hlt, -⟩ := List.getElem?_eq_some_iff.1 ((hkept.tasks.calls i).1 hmem)
    exact ⟨⟨hmem, hi.2⟩, target_congr rfl (Function.update_of_ne hlt.ne _ _) rfl⟩
  | pool e =>
    by_cases he : ∃ i, e = .commit i
    · obtain ⟨i, rfl⟩ := he
      exact h.commit_iff hkept hs
    · have hne : ∀ i, e ≠ .commit i := fun i hi => he ⟨i, hi⟩
      obtain ⟨hpool, htasks, hexecs, -, -, -, -, -, hresult⟩ := poolStep_eq hs
      obtain ⟨hresult, hlives⟩ := hresult hne
      refine iff_of_true (h.congr hlives fun i hi => ⟨⟨?_, ?_⟩, ?_⟩) ?_
      · exact accepted_step hpool hne ▸ hi.1
      · exact hexecs ▸ hi.2
      · exact target_congr hresult (by rw [htasks]) (by rw [hexecs])
      · cases e <;> first | trivial | exact absurd rfl (hne _)
  | exec id =>
    obtain ⟨i, hw, he⟩ := exec_cases hs
    obtain ⟨hpool, htasks, hresult, ⟨hlives, -⟩, htarget, hother⟩ := exec_frame he
    refine iff_of_true (h.congr hlives fun j hj => ?_) trivial
    by_cases hji : j = i
    · subst hji
      refine ⟨⟨hkept.accepted hw, ?_⟩, htarget hj.2⟩
      intro hback
      simp [exec, hback] at he
    · exact ⟨⟨hpool ▸ hj.1, hother j hji ▸ hj.2⟩, target_congr hresult (by rw [htasks]) (hother j hji)⟩
  | returns id v =>
    obtain ⟨i, r, hw, hr, rfl⟩ := returns_cases hs
    refine iff_of_true (h.congr rfl fun j hj => ?_) trivial
    by_cases hji : j = i
    · subst hji
      exact ⟨⟨hj.1, by simp [hr]⟩, by simp [target, setExec, hr]⟩
    · have hexec : Function.update s.execs i (.store r v) j = s.execs j := Function.update_of_ne hji ..
      exact ⟨⟨hj.1, hexec ▸ hj.2⟩, target_congr rfl rfl hexec⟩
  | ends r =>
    obtain rfl := ends_cases hs
    constructor
    · intro hown hr
      have hlives := (hown r hr).2
      simp at hlives
    · intro hnot i hi
      have hir : i ≠ r := by
        rintro rfl
        exact hnot hi
      exact ⟨(h i hi).1, (Function.update_of_ne hir ..).trans (h i hi).2⟩
  | get g r =>
    obtain ⟨-, k, -, -, rfl⟩ := get_cases hs
    exact iff_of_true (h.congr rfl fun j hj => ⟨hj, rfl⟩) trivial
  | wait g =>
    obtain ⟨r, -, rfl⟩ := wait_cases hs
    obtain ⟨hpool, htasks, hresult, hexecs, hlives, -⟩ := s.semWait_frame g r
    exact iff_of_true (h.congr hlives fun j hj => ⟨⟨hpool ▸ hj.1, hexecs ▸ hj.2⟩,
      target_congr hresult (by rw [htasks]) (by rw [hexecs])⟩) trivial
  | wakes g =>
    obtain ⟨r, -, rfl⟩ := wakes_cases hs
    exact iff_of_true (h.congr rfl fun j hj => ⟨hj, rfl⟩) trivial
  | move g =>
    obtain ⟨r, -, rfl⟩ := move_cases hs
    exact iff_of_true (h.congr rfl fun j hj => ⟨hj, rfl⟩) trivial

/-- `act` itself notes nothing. -/
theorem undefined_act {e : Event α} (hs : s.act e = some t) : t.undefined = s.undefined := by
  cases e with
  | call sp =>
    obtain ⟨q, -, rfl⟩ := call_cases hs
    rfl
  | pool e =>
    obtain ⟨-, -, -, -, -, -, -, hundefined, -⟩ := poolStep_eq hs
    exact hundefined
  | exec id =>
    obtain ⟨i, -, he⟩ := exec_cases hs
    obtain ⟨-, -, -, ⟨-, hundefined⟩, -⟩ := exec_frame he
    exact hundefined
  | returns id v =>
    obtain ⟨i, r, -, -, rfl⟩ := returns_cases hs
    rfl
  | ends r =>
    obtain rfl := ends_cases hs
    rfl
  | get g r =>
    obtain ⟨-, k, -, -, rfl⟩ := get_cases hs
    rfl
  | wait g =>
    obtain ⟨r, -, rfl⟩ := wait_cases hs
    obtain ⟨-, -, -, -, -, hundefined⟩ := s.semWait_frame g r
    exact hundefined
  | wakes g =>
    obtain ⟨r, -, rfl⟩ := wakes_cases hs
    rfl
  | move g =>
    obtain ⟨r, -, rfl⟩ := move_cases hs
    rfl

/-- A task that is aimed at its own `Result` uses no other, so only a call of `get` can use
one that has ended. -/
theorem outlives_iff {e : Event α} (hkept : s.Kept) (h : s.Own) :
    s.Outlives e ↔ s.Keeps e ∧ (s.uses e).any (fun r => !s.lives r) = false := by
  cases e with
  | exec id =>
    refine iff_of_true trivial ⟨trivial, ?_⟩
    simp only [uses]
    split
    · rename_i i hw
      have hi := h i
      cases hexec : s.execs i with
      | store r v | post r =>
        obtain ⟨htarget, hlives⟩ := hi ⟨hkept.accepted hw, by simp [hexec]⟩
        simp only [target, hexec, Option.some.injEq] at htarget
        simp [htarget, hlives]
      | unread | running | back => rfl
    · rfl
  | call | returns => exact iff_of_true trivial ⟨trivial, rfl⟩
  | pool | ends => simp [Keeps, uses]
  | get g r => simp [Keeps, Outlives, uses]
  | wait g | wakes g | move g => cases hg : s.gets g <;> simp [Keeps, Outlives, uses, hg]

theorem Aimed.step_iff {e : Event α} (hkept : s.Kept) (h : s.Aimed) (hs : s.step e = some t) :
    t.Aimed ↔ s.Outlives e := by
  obtain ⟨u, hu, rfl⟩ := Option.map_eq_some_iff.1 hs
  rw [outlives_iff hkept h.1, ← h.1.act_iff hkept hu]
  refine and_congr Iff.rfl ?_
  simp only [mark, undefined_act hu, h.2, Bool.false_or]

/-! ## The values -/

/-- Call `g` of `get` has the permit of `Result` `r`, or had it. -/
def Holds (s : Results α) (r g : ℕ) : Prop := ∃ k : Get α, k.holds = true ∧ s.gets g = some (r, k)

/-- No permit has been given for the `Result`, and `a` is in it. -/
structure Idle (s : Results α) (r : ℕ) (a : Option α) : Prop where
  any_ : s.any_ r = a
  resLimit : s.resLimit r = 0
  gets : ∀ g, ¬ s.Holds r g

/-- One permit has been given for the `Result`, with `v` in it; one call of `get` has it,
at most. -/
def Given (s : Results α) (r : ℕ) (v : α) : Prop :=
  (s.any_ r = some v ∧ s.resLimit r = 1 ∧ ∀ g, ¬ s.Holds r g) ∨
    (s.resLimit r = 0 ∧ ∃ g, (∀ g', s.Holds r g' → g' = g) ∧
      ((s.gets g = some (r, .moving) ∧ s.any_ r = some v) ∨ s.gets g = some (r, .done (some v))))

/-- What is in `Result` `i`, by where `exec` is for its call. -/
def Answered (s : Results α) (i : ℕ) : Prop :=
  match s.execs i with
  | .unread => s.returned i = none ∧ s.Idle i none
  | .running r => r = i ∧ s.returned i = none ∧ s.Idle i none
  | .store r v => r = i ∧ s.returned i = some v ∧ s.Idle i none
  | .post r => r = i ∧ ∃ v, s.returned i = some v ∧ s.Idle i (some v)
  | .back => ∃ v, s.returned i = some v ∧ s.Given i v

/-- Nothing of `Result` `i` and its call is another. -/
structure Same (s t : Results α) (i : ℕ) : Prop where
  execs : t.execs i = s.execs i
  returned : t.returned i = s.returned i
  any_ : t.any_ i = s.any_ i
  resLimit : t.resLimit i = s.resLimit i
  gets : ∀ g (k : Get α), k.holds = true → (t.gets g = some (i, k) ↔ s.gets g = some (i, k))

theorem Same.holds (h : Same s t i) (g : ℕ) : t.Holds i g ↔ s.Holds i g :=
  exists_congr fun k => and_congr_right fun hk => h.gets g k hk

theorem Same.idle (h : Same s t i) {a : Option α} (hi : s.Idle i a) : t.Idle i a :=
  ⟨h.any_.trans hi.any_, h.resLimit.trans hi.resLimit, fun g hg => hi.gets g ((h.holds g).1 hg)⟩

theorem Same.given (h : Same s t i) (hi : s.Given i v) : t.Given i v := by
  rcases hi with ⟨hany, hres, hgets⟩ | ⟨hres, g, hone, hg⟩
  · exact .inl ⟨h.any_.trans hany, h.resLimit.trans hres, fun g hg => hgets g ((h.holds g).1 hg)⟩
  · refine .inr ⟨h.resLimit.trans hres, g, fun g' hg' => hone g' ((h.holds g').1 hg'), ?_⟩
    rw [h.gets g _ rfl, h.gets g _ rfl, h.any_]
    exact hg

theorem Answered.congr (hi : s.Answered i) (h : Same s t i) : t.Answered i := by
  unfold Answered at hi ⊢
  rw [h.execs, h.returned]
  split at hi
  · exact ⟨hi.1, h.idle hi.2⟩
  · exact ⟨hi.1, hi.2.1, h.idle hi.2.2⟩
  · exact ⟨hi.1, hi.2.1, h.idle hi.2.2⟩
  · obtain ⟨hr, v, hv, hidle⟩ := hi
    exact ⟨hr, v, hv, h.idle hidle⟩
  · obtain ⟨v, hv, hgiven⟩ := hi
    exact ⟨v, hv, h.given hgiven⟩

/-- A call of `get` that has no permit goes on without one. -/
theorem gets_update {f : ℕ → Option (ℕ × Get α)} {k' : Get α}
    (hg : ∀ k, k.holds = true → f g ≠ some (j, k))
    (hk : k'.holds = false ∨ r ≠ j) (g' : ℕ) (k : Get α) (hholds : k.holds = true) :
    Function.update f g (some (r, k')) g' = some (j, k) ↔ f g' = some (j, k) := by
  by_cases he : g' = g
  · subst he
    rw [Function.update_self]
    refine iff_of_false (fun hsome => ?_) (hg k hholds)
    cases hsome
    rcases hk with hk | hk
    · rw [hk] at hholds
      cases hholds
    · exact hk rfl
  · rw [Function.update_of_ne he]

/-- The post of another `Result`, or a waiting call that is woken. -/
theorem gets_post (s : Results α) (r : ℕ) (g : ℕ) (k : Get α) (hk : k.holds = true) :
    (s.post r).gets g = some (j, k) ↔ s.gets g = some (j, k) := by
  show ((s.gets g).map fun p => if p.1 = r then (p.1, p.2.wake) else p) = some (j, k) ↔ _
  cases hg : s.gets g with
  | none => simp
  | some p =>
    obtain ⟨a, k'⟩ := p
    by_cases ha : a = r
    · cases k' <;> cases k <;> simp_all [Get.wake, Get.holds]
    · simp [ha]

theorem Answered.held (h : s.Answered r) (hhold : s.Holds r g) :
    ∃ v, s.execs r = .back ∧ s.returned r = some v ∧ s.Given r v := by
  unfold Answered at h
  split at h
  · exact absurd hhold (h.2.gets g)
  · exact absurd hhold (h.2.2.gets g)
  · exact absurd hhold (h.2.2.gets g)
  · obtain ⟨-, v, -, hidle⟩ := h
    exact absurd hhold (hidle.gets g)
  · rename_i hback
    obtain ⟨v, hv, hgiven⟩ := h
    exact ⟨v, hback, hv, hgiven⟩

theorem Answered.permit (h : s.Answered r) (hpos : 0 < s.resLimit r) :
    ∃ v, s.execs r = .back ∧ s.returned r = some v ∧ s.any_ r = some v ∧ s.resLimit r = 1 ∧
      ∀ g, ¬ s.Holds r g := by
  unfold Answered at h
  split at h
  · exact absurd h.2.resLimit hpos.ne'
  · exact absurd h.2.2.resLimit hpos.ne'
  · exact absurd h.2.2.resLimit hpos.ne'
  · obtain ⟨-, v, -, hidle⟩ := h
    exact absurd hidle.resLimit hpos.ne'
  · rename_i hback
    obtain ⟨v, hv, ⟨hany, hone, hgets⟩ | ⟨hzero, -⟩⟩ := h
    · exact ⟨v, hback, hv, hany, hone, hgets⟩
    · exact absurd hzero hpos.ne'

/-- A step of `exec`, which is about the `Result` of its own call. -/
theorem answered_exec (hkept : s.Kept) (hown : s.Own) (h : ∀ j, s.Answered j) {id : ℕ}
    (hw : s.pool.workers id = .task i) (he : s.exec i = some t) (j : ℕ) : t.Answered j := by
  have hi := h i
  unfold Answered at hi
  unfold exec at he
  cases hexec : s.execs i with
  | unread =>
    rw [hexec] at hi
    have htarget := (hown i ⟨hkept.accepted hw, by simp [hexec]⟩).1
    simp only [target, hexec] at htarget
    simp only [hexec, htarget, Option.some.injEq] at he
    subst he
    by_cases hji : j = i
    · subst hji
      simp only [Answered, setExec, Function.update_self]
      exact ⟨trivial, hi.1, hi.2.any_, hi.2.resLimit, hi.2.gets⟩
    · exact (h j).congr ⟨Function.update_of_ne hji .., rfl, rfl, rfl, fun _ _ _ => Iff.rfl⟩
  | running r => simp [hexec] at he
  | store r v =>
    rw [hexec] at hi
    simp only [hexec, Option.some.injEq] at he
    subst he
    obtain ⟨rfl, hv, hidle⟩ := hi
    by_cases hji : j = r
    · subst hji
      simp only [Answered, setExec, Function.update_self]
      exact ⟨trivial, v, hv, Function.update_self .., hidle.resLimit, hidle.gets⟩
    · exact (h j).congr
        ⟨Function.update_of_ne hji .., rfl, Function.update_of_ne hji .., rfl, fun _ _ _ => Iff.rfl⟩
  | post r =>
    rw [hexec] at hi
    simp only [hexec, Option.some.injEq] at he
    subst he
    obtain ⟨rfl, v, hv, hidle⟩ := hi
    by_cases hji : j = r
    · subst hji
      simp only [Answered, setExec, Function.update_self]
      refine ⟨v, hv, .inl ⟨hidle.any_, ?_, fun g hg => ?_⟩⟩
      · show Function.update s.resLimit j (s.resLimit j + 1) j = 1
        rw [Function.update_self, hidle.resLimit]
      · obtain ⟨k, hk, hget⟩ := hg
        exact hidle.gets g ⟨k, hk, (s.gets_post j g k hk).1 hget⟩
    · exact (h j).congr ⟨Function.update_of_ne hji .., rfl, rfl, Function.update_of_ne hji ..,
        fun g k hk => s.gets_post r g k hk⟩
  | back => simp [hexec] at he

/-- A call of `get` takes the permit, or waits for it. -/
theorem answered_wait (h : ∀ j, s.Answered j) (hg : s.gets g = some (r, .lock)) (j : ℕ) :
    (s.semWait g r).Answered j := by
  have hnone : ∀ j (k : Get α), k.holds = true → s.gets g ≠ some (j, k) := by
    intro j k hk hget
    rw [hg] at hget
    cases hget
    cases hk
  unfold semWait
  split
  · rename_i hpos
    by_cases hjr : j = r
    · subst hjr
      obtain ⟨v, hback, hv, hany, hone, hgets⟩ := (h j).permit hpos
      simp only [Answered, setGet, hback]
      refine ⟨v, hv, .inr ⟨?_, g, fun g' hg' => ?_, .inl ⟨Function.update_self .., hany⟩⟩⟩
      · show Function.update s.resLimit j (s.resLimit j - 1) j = 0
        rw [Function.update_self, hone]
      · by_contra hne
        obtain ⟨k, hk, hget⟩ := hg'
        have hget' : Function.update s.gets g (some (j, .moving)) g' = some (j, k) := hget
        rw [Function.update_of_ne hne] at hget'
        exact hgets g' ⟨k, hk, hget'⟩
    · exact (h j).congr ⟨rfl, rfl, rfl, Function.update_of_ne hjr ..,
        gets_update (hnone j) (.inr (Ne.symm hjr))⟩
  · exact (h j).congr ⟨rfl, rfl, rfl, rfl, gets_update (hnone j) (.inl rfl)⟩

/-- The call with the permit takes the value. -/
theorem answered_move (h : ∀ j, s.Answered j) (hg : s.gets g = some (r, .moving)) (j : ℕ) :
    (setGet { s with any_ := Function.update s.any_ r none } g r (.done (s.any_ r))).Answered j := by
  by_cases hjr : j = r
  · subst hjr
    obtain ⟨v, hback, hv, hgiven⟩ := (h j).held ⟨_, rfl, hg⟩
    rcases hgiven with ⟨-, -, hnone⟩ | ⟨hzero, g₀, hone, hhas⟩
    · exact absurd ⟨_, rfl, hg⟩ (hnone g)
    · obtain rfl := hone g ⟨_, rfl, hg⟩
      have hany : s.any_ j = some v := by
        rcases hhas with ⟨-, hany⟩ | hdone
        · exact hany
        · rw [hg] at hdone
          cases hdone
      simp only [Answered, setGet, hback]
      refine ⟨v, hv, .inr ⟨hzero, g, fun g' hg' => ?_, .inr ?_⟩⟩
      · by_contra hne
        obtain ⟨k, hk, hget⟩ := hg'
        have hget' : Function.update s.gets g (some (j, .done (s.any_ j))) g' = some (j, k) := hget
        rw [Function.update_of_ne hne] at hget'
        exact hne (hone g' ⟨k, hk, hget'⟩)
      · show Function.update s.gets g (some (j, .done (s.any_ j))) g = some (j, .done (some v))
        rw [Function.update_self, hany]
  · have hnone : ∀ k : Get α, k.holds = true → s.gets g ≠ some (j, k) := by
      intro k _ hget
      rw [hg] at hget
      cases hget
      exact hjr rfl
    exact (h j).congr ⟨rfl, rfl, Function.update_of_ne hjr .., rfl, gets_update hnone (.inr (Ne.symm hjr))⟩

theorem answered_act {e : Event α} (hkept : s.Kept) (hown : s.Own) (h : ∀ j, s.Answered j)
    (hs : s.act e = some t) (j : ℕ) : t.Answered j := by
  cases e with
  | call sp =>
    obtain ⟨q, -, rfl⟩ := call_cases hs
    exact (h j).congr ⟨rfl, rfl, rfl, rfl, fun _ _ _ => Iff.rfl⟩
  | pool e =>
    obtain ⟨-, -, hexecs, hany, hres, hgets, hreturned, -⟩ := poolStep_eq hs
    exact (h j).congr ⟨by rw [hexecs], by rw [hreturned], by rw [hany], by rw [hres], fun g k _ => by rw [hgets]⟩
  | ends r =>
    obtain rfl := ends_cases hs
    exact (h j).congr ⟨rfl, rfl, rfl, rfl, fun _ _ _ => Iff.rfl⟩
  | exec id =>
    obtain ⟨i, hw, he⟩ := exec_cases hs
    exact answered_exec hkept hown h hw he j
  | returns id v =>
    obtain ⟨i, r, -, hr, rfl⟩ := returns_cases hs
    by_cases hji : j = i
    · subst hji
      have hj := h j
      simp only [Answered, hr] at hj
      obtain ⟨rfl, -, hidle⟩ := hj
      simp only [Answered, setExec, Function.update_self]
      exact ⟨trivial, trivial, hidle.any_, hidle.resLimit, hidle.gets⟩
    · exact (h j).congr
        ⟨Function.update_of_ne hji .., Function.update_of_ne hji .., rfl, rfl, fun _ _ _ => Iff.rfl⟩
  | get g r =>
    obtain ⟨hg, k, hk, -, rfl⟩ := get_cases hs
    have hnone : ∀ k : Get α, k.holds = true → s.gets g ≠ some (j, k) := by simp [hg]
    exact (h j).congr ⟨rfl, rfl, rfl, rfl, gets_update hnone (.inl hk)⟩
  | wait g =>
    obtain ⟨r, hg, rfl⟩ := wait_cases hs
    exact answered_wait h hg j
  | wakes g =>
    obtain ⟨r, hg, rfl⟩ := wakes_cases hs
    have hnone : ∀ k : Get α, k.holds = true → s.gets g ≠ some (j, k) := by
      intro k hk hget
      rw [hg] at hget
      cases hget
      cases hk
    exact (h j).congr ⟨rfl, rfl, rfl, rfl, gets_update hnone (.inl rfl)⟩
  | move g =>
    obtain ⟨r, hg, rfl⟩ := move_cases hs
    exact answered_move h hg j

/-! ## The semaphore -/

/-- No call of `get` waits while there is a permit. -/
def Served (s : Results α) : Prop := ∀ g r, s.gets g = some (r, .waiting) → s.resLimit r = 0

theorem Served.congr (h : s.Served) (hgets : t.gets = s.gets) (hres : t.resLimit = s.resLimit) : t.Served := by
  intro g r hg
  rw [hgets] at hg
  rw [hres]
  exact h g r hg

/-- A call of `get` that does not wait. -/
theorem Served.setGet (h : s.Served) (hk : k ≠ .waiting ∨ s.resLimit r = 0) : (s.setGet g r k).Served := by
  intro g' r' hg'
  have hget : Function.update s.gets g (some (r, k)) g' = some (r', .waiting) := hg'
  by_cases he : g' = g
  · subst he
    rw [Function.update_self] at hget
    cases hget
    exact hk.resolve_left fun hne => hne rfl
  · rw [Function.update_of_ne he] at hget
    exact h g' r' hget

/-- The post wakes all who wait for the permit. -/
theorem Served.post (h : s.Served) (r : ℕ) : (s.post r).Served := by
  intro g r' hg
  have hget : ((s.gets g).map fun p => if p.1 = r then (p.1, p.2.wake) else p) = some (r', .waiting) := hg
  obtain ⟨⟨a, k⟩, hk, hp⟩ := Option.map_eq_some_iff.1 hget
  by_cases ha : a = r
  · rw [if_pos ha] at hp
    cases k <;> cases hp
  · rw [if_neg ha] at hp
    cases hp
    exact (Function.update_of_ne ha _ _).trans (h g r' hk)

theorem Served.exec (h : s.Served) (he : s.exec i = some t) : t.Served := by
  unfold Results.exec at he
  split at he
  · split at he
    · cases he
      exact h.congr rfl rfl
    · cases he
      exact h.congr rfl rfl
  · cases he
    exact h.congr rfl rfl
  · rename_i r _
    cases he
    exact (h.post r).congr rfl rfl
  all_goals cases he

theorem Served.semWait (h : s.Served) (g r : ℕ) : (s.semWait g r).Served := by
  unfold Results.semWait
  split
  · rename_i hpos
    refine Served.setGet (s := { s with resLimit := Function.update s.resLimit r (s.resLimit r - 1) }) ?_ (.inl nofun)
    intro g' r' hg'
    -- None waits where there was a permit.
    have hne : r' ≠ r := by
      rintro rfl
      exact hpos.ne' (h g' r' hg')
    exact (Function.update_of_ne hne _ _).trans (h g' r' hg')
  · rename_i hzero
    exact h.setGet (.inr (Nat.eq_zero_of_not_pos hzero))

theorem Served.act {e : Event α} (h : s.Served) (hs : s.act e = some t) : t.Served := by
  cases e with
  | call sp =>
    obtain ⟨q, -, rfl⟩ := call_cases hs
    exact h.congr rfl rfl
  | pool e =>
    obtain ⟨-, -, -, -, hres, hgets, -⟩ := poolStep_eq hs
    exact h.congr hgets hres
  | ends r =>
    obtain rfl := ends_cases hs
    exact h.congr rfl rfl
  | exec id =>
    obtain ⟨i, -, he⟩ := exec_cases hs
    exact h.exec he
  | returns id v =>
    obtain ⟨i, r, -, -, rfl⟩ := returns_cases hs
    exact h.congr rfl rfl
  | get g r =>
    obtain ⟨-, k, -, hk, rfl⟩ := get_cases hs
    exact h.setGet (.inl hk)
  | wait g =>
    obtain ⟨r, -, rfl⟩ := wait_cases hs
    exact h.semWait g r
  | wakes g =>
    obtain ⟨r, -, rfl⟩ := wakes_cases hs
    exact h.setGet (.inl nofun)
  | move g =>
    obtain ⟨r, -, rfl⟩ := move_cases hs
    exact (h.congr (t := { s with any_ := Function.update s.any_ r none }) rfl rfl).setGet (.inl nofun)

/-! ## Every run -/

/-- Each `get` that is back has the value which the task of its own call has returned, and
it is the only one of its `Result`; and one that waits does so for a task which is not
done, or for a value that another one has. -/
structure Delivered (s : Results α) : Prop where
  own : ∀ g r a, s.gets g = some (r, .done a) → ∃ v, a = some v ∧ s.returned r = some v
  one : ∀ g g' r a a', s.gets g = some (r, .done a) → s.gets g' = some (r, .done a') → g = g'
  waits : ∀ g r, s.gets g = some (r, .waiting) → s.resLimit r = 0 ∧ (s.execs r ≠ .back ∨ ∃ g', s.Holds r g')

theorem delivered (h : ∀ j, s.Answered j) (hserved : s.Served) : s.Delivered := by
  have hgiven : ∀ {g r a}, s.gets g = some (r, .done a) → ∃ v, s.returned r = some v ∧ a = some v ∧
      ∀ g', s.Holds r g' → g' = g := by
    intro g r a hg
    obtain ⟨v, -, hv, ⟨-, -, hnone⟩ | ⟨-, g₀, hone, hhas⟩⟩ := (h r).held ⟨_, rfl, hg⟩
    · exact absurd ⟨_, rfl, hg⟩ (hnone g)
    · obtain rfl := hone g ⟨_, rfl, hg⟩
      rcases hhas with ⟨hmoving, -⟩ | hdone
      · rw [hg] at hmoving
        cases hmoving
      · rw [hg] at hdone
        cases hdone
        exact ⟨v, hv, rfl, hone⟩
  refine ⟨fun g r a hg => ?_, fun g g' r a a' hg hg' => ?_, fun g r hg => ⟨hserved g r hg, ?_⟩⟩
  · obtain ⟨v, hv, ha, -⟩ := hgiven hg
    exact ⟨v, ha, hv⟩
  · obtain ⟨-, -, -, hone⟩ := hgiven hg'
    exact hone g ⟨_, rfl, hg⟩
  · by_cases hback : s.execs r = .back
    · have hr := h r
      simp only [Answered, hback] at hr
      obtain ⟨v, -, ⟨-, hone, -⟩ | ⟨-, g₀, -, hhas⟩⟩ := hr
      · rw [hserved g r hg] at hone
        cases hone
      · refine .inr ⟨g₀, ?_⟩
        rcases hhas with ⟨hmoving, -⟩ | hdone
        · exact ⟨_, rfl, hmoving⟩
        · exact ⟨_, rfl, hdone⟩
    · exact .inl hback

end

instance [DecidableEq α] (s : Results α) (i : ℕ) : Decidable (s.Returns i) := inferInstanceAs (Decidable (_ ∨ _))

instance [DecidableEq α] : ∀ (s : Results α) (e : Event α), Decidable (Outlives s e)
  | s, .pool (.commit i) =>
    decidable_of_iff (s.Returns i → ∀ j ∈ s.pool.log.accepted, s.execs j = .unread → s.tasks j ≠ s.tasks i)
      ⟨fun h hr j hj => h hr j hj.1 hj.2, fun h hr j hj hu => h hr j ⟨hj, hu⟩⟩
  | s, .ends r => inferInstanceAs (Decidable (¬ (r ∈ s.pool.log.accepted ∧ s.execs r ≠ .back)))
  | s, .get _ r => inferInstanceAs (Decidable (s.lives r = true))
  | s, .wait g | s, .wakes g | s, .move g => inferInstanceAs (Decidable (∀ p ∈ s.gets g, s.lives p.1 = true))
  | _, .pool .call | _, .pool (.commitWakes ..) | _, .pool (.worker ..) | _, .pool (.workerWakes ..)
  | _, .pool .destruct | _, .pool .destructWakes | _, .call _ | _, .exec _ | _, .returns .. => .isTrue trivial

/-- What every step keeps. -/
def Inv (s : Results α) : Prop := s.Kept ∧ (∀ j, s.Answered j) ∧ s.Served

theorem Kept.step {s t : Results α} {e : Event α} (h : s.Kept) (hs : s.step e = some t) : t.Kept := by
  obtain ⟨u, hu, rfl⟩ := Option.map_eq_some_iff.1 hs
  obtain ⟨hthreads, htasks, hunread⟩ := h.act hu
  exact ⟨hthreads, htasks, hunread⟩

theorem Inv.step {s t : Results α} {e : Event α} (h : s.Inv) (hown : s.Own) (hs : s.step e = some t) : t.Inv := by
  obtain ⟨hkept, hanswered, hserved⟩ := h
  refine ⟨hkept.step hs, ?_⟩
  obtain ⟨u, hu, rfl⟩ := Option.map_eq_some_iff.1 hs
  exact ⟨fun j => (answered_act hkept hown hanswered hu j).congr ⟨rfl, rfl, rfl, rfl, fun _ _ _ => Iff.rfl⟩,
    (hserved.act hu).congr rfl rfl⟩

theorem run_delivered {p : State} {events : List (Event α)} {s : Results α} (hthreads : Threads p) (htasks : Tasks p)
    (hnone : p.log.accepted = []) (hs : Run.run step (init p) events = some s) :
    (Run.Along step (fun s _ => s.Aimed) (init p) events ∧ s.Aimed ↔ Run.Along step Outlives (init p) events) ∧
    (Run.Along step Outlives (init p) events → s.Delivered) := by
  have hkept : (init p : Results α).Kept := ⟨hthreads, htasks, fun _ _ => rfl⟩
  have haimed : (init p : Results α).Aimed := by
    refine ⟨fun i hi => ?_, rfl⟩
    have hmem : i ∈ p.log.accepted := hi.1
    rw [hnone] at hmem
    cases hmem
  have hanswered : ∀ j, (init p : Results α).Answered j := fun j => ⟨rfl, rfl, rfl, fun g hg => by
    obtain ⟨k, -, hget⟩ := hg
    cases hget⟩
  have hserved : (init p : Results α).Served := fun g r hg => by cases hg
  have hiff := Run.along_iff Kept Aimed (fun _ _ _ hkept hs => hkept.step hs)
    (fun _ _ _ hkept haimed hs => haimed.step_iff hkept hs) hkept haimed hs
  refine ⟨hiff, fun halong => ?_⟩
  obtain ⟨-, hanswered', hserved'⟩ := Run.run_along_invariant Inv (fun _ _ _ h ha hs => h.step ha.1 hs)
    ⟨hkept, hanswered, hserved⟩ (hiff.2 halong).1 hs
  exact delivered hanswered' hserved'

/-- **Each `get` has what its own task returned.** For the first pool of a process, with any
settings and any number of threads, and for any interleaving of its threads with the calls
of `submitTask` and `get` and the ends of the `Result`s: every task is aimed at the `Result`
of its own call, which lives, until its `exec` is back, and no `Result` is used after its end,
if and only if no call returns with a task object that is pending, no `Result` ends before the
`exec` of its task is back, and no `get` goes on with one that has ended. Then each `get` that
comes back has the value of its own call's task, at most one does for each `Result`, and none
waits with a permit there. -/
theorem run_values_own (setters : List Setter) (n : ℤ) (hn : 0 ≤ n)
    (hmax : 1 ≤ (configured .threadPoolMain setters).taskMaxsize) :
    ∃ p, start (configured .threadPoolMain setters) n = some p ∧
      ∀ (events : List (Event α)) s, Run.run step (init p) events = some s →
        (Run.Along step (fun s _ => s.Aimed) (init p) events ∧ s.Aimed ↔
          Run.Along step Outlives (init p) events) ∧
        (Run.Along step Outlives (init p) events → s.Delivered) := by
  have hfresh := fresh_configured .threadPoolMain setters
  exact ⟨_, hfresh.start n, fun events s hs => run_delivered (hfresh.threads_start hn (hfresh.start n))
    (hfresh.tasks_start hmax (hfresh.start n)) (congrArg Log.accepted hfresh.log) hs⟩

/-- What may become of the `Result` of the first call: it is kept; its task object comes in
again before the first thread has read `result_`; or it is discarded at once, as in the
header's example. -/
inductive Use
  | kept
  | again
  | discarded

def useEvents : Use → List (Event ℕ)
  | .kept => [.call 0, .pool (.commit 0), .pool (.worker 0 0), .exec 0, .call 0, .pool (.commit 1), .returns 0 7,
      .exec 0, .exec 0, .get 0 0, .wait 0, .move 0, .ends 0]
  | .again => [.call 0, .pool (.commit 0), .call 0, .pool (.commit 1), .pool (.worker 0 0), .exec 0, .returns 0 7,
      .exec 0, .exec 0, .get 0 0, .wait 0]
  | .discarded => [.call 0, .pool (.commit 0), .ends 0, .pool (.worker 0 0), .exec 0, .returns 0 7, .exec 0]

theorem run_values_own_uses :
    ∃ p s t u, start (configured .threadPoolMain []) 1 = some p ∧
      (Run.run step (init p) (useEvents .kept) = some s ∧ s.gets 0 = some (0, .done (some 7)) ∧ s.Delivered) ∧
      (Run.run step (init p) (useEvents .again) = some t ∧ t.gets 0 = some (0, .waiting) ∧
        ¬ (Run.Along step (fun s _ => s.Aimed) (init p) (useEvents .again) ∧ t.Aimed)) ∧
      Run.run step (init p) (useEvents .discarded) = some u ∧ u.undefined = true ∧
        ¬ (Run.Along step (fun s _ => s.Aimed) (init p) (useEvents .discarded) ∧ u.Aimed) := by
  obtain ⟨p, hp, h⟩ := run_values_own (α := ℕ) [] 1 (by decide) (by decide)
  have hruns : ∀ use, ((start (configured .threadPoolMain []) 1).bind fun p =>
      (Run.run step (init p) (useEvents use)).map fun s => (s.gets 0, s.undefined)) = some
        (match use with
        | .kept => (some (0, .done (some 7)), false)
        | .again => (some (0, .waiting), false)
        | .discarded => (none, true)) := by
    intro use
    cases use <;> decide +kernel
  have halong : ∀ use, (start (configured .threadPoolMain []) 1).map (fun p =>
      decide (Run.Along step Outlives (init p) (useEvents use))) = some (use matches .kept) := by
    intro use
    cases use <;> decide +kernel
  have hrun : ∀ use, ∃ s, Run.run step (init p) (useEvents use) = some s ∧ (s.gets 0, s.undefined) =
      (match use with
      | .kept => (some (0, .done (some 7)), false)
      | .again => (some (0, .waiting), false)
      | .discarded => (none, true)) := by
    intro use
    have huse := hruns use
    rw [hp, Option.bind_some] at huse
    exact Option.map_eq_some_iff.1 huse
  have hmeets : ∀ use, Run.Along step Outlives (init p) (useEvents use) ↔ (use matches .kept) = true := by
    intro use
    have huse := halong use
    rw [hp, Option.map_some, Option.some.injEq] at huse
    rw [← huse, decide_eq_true_iff]
  obtain ⟨s, hs, hkept⟩ := hrun .kept
  obtain ⟨t, ht, hagain⟩ := hrun .again
  obtain ⟨u, hu, hdiscarded⟩ := hrun .discarded
  refine ⟨p, s, t, u, hp, ⟨hs, congrArg Prod.fst hkept, (h _ s hs).2 ((hmeets .kept).2 rfl)⟩,
    ⟨ht, congrArg Prod.fst hagain, fun haimed => ?_⟩, hu, congrArg Prod.snd hdiscarded, fun haimed => ?_⟩
  · cases (hmeets .again).1 ((h _ t ht).1.1 haimed)
  · cases (hmeets .discarded).1 ((h _ u hu).1.1 haimed)

end Results

end Learncc.ThreadPool
