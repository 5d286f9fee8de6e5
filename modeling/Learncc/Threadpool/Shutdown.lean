/-
The destructor of a `thread_pool` waits until `threads_` is empty. A thread that
leaves since the pool has been stopped notifies it; one that leaves since it has been
idle for long does not.

`run_never_stuck_iff`: the destructor is never left waiting in exactly the runs in
which no thread of the second kind is the last to leave while it waits.
-/
import Learncc.Threadpool.Accounting

namespace Learncc.ThreadPool

/-- The destructor waits for nothing: `threads_` is empty, and no thread is left that
could notify it. -/
structure Stuck (s : State) : Prop where
  waiting : s.destructor = .waiting
  threads : s.threads = ∅
  silent : ∀ id, (s.workers id).alive = false

/-- While the destructor waits, a thread that leaves since it has been idle leaves
another one behind. -/
def Timely (s : State) : Event → Prop
  | .worker id dur =>
    s.workers id = .lock true → threadMaxIdleTime ≤ dur → s.initSize < s.curThreadCnt → s.destructor = .waiting →
      s.threads.erase id ≠ ∅
  | .call | .commit _ | .commitWakes .. | .workerWakes .. | .destruct | .destructWakes => True

instance : ∀ s e, Decidable (Timely s e)
  | _, .worker .. => inferInstanceAs (Decidable (_ → _))
  | _, .call | _, .commit _ | _, .commitWakes .. | _, .workerWakes .. | _, .destruct | _, .destructWakes =>
    .isTrue trivial

variable {s t : State} {id i dur : ℕ} {e : Event}

theorem Threads.stuck (h : Threads s) (hwaiting : s.destructor = .waiting) (hempty : s.threads = ∅) : Stuck s := by
  refine ⟨hwaiting, hempty, fun id => ?_⟩
  have halive := h.alive id
  rw [hempty] at halive
  simpa using halive

/-! ## One step -/

theorem Destructor.wake_ne_waiting (d : Destructor) : d.wake ≠ .waiting := by cases d <;> simp [Destructor.wake]

theorem threads_put (hp : put s i = some t) : t.destructor = s.destructor ∧ s.threads ⊆ t.threads := by
  unfold put grow at hp
  split at hp
  · simp only [launch, newThread, Finset.mem_insert_self, if_true, Option.map_some, Option.some.injEq] at hp
    subst hp
    exact ⟨rfl, Finset.subset_insert _ _⟩
  · cases hp
    exact ⟨rfl, Finset.Subset.refl _⟩

theorem take_same (rest : List ℕ) :
    (take s id i rest).destructor = s.destructor ∧ (take s id i rest).threads = s.threads := by
  unfold take
  dsimp only
  split
  · exact ⟨rfl, rfl⟩
  · exact ⟨rfl, rfl⟩

/-- A thread that stays, or leaves a stopped pool, leaves no destructor waiting that
did not wait before. -/
theorem threads_loop (hwaiting : (loop s id).destructor = .waiting) :
    s.destructor = .waiting ∧ s.threads ⊆ (loop s id).threads := by
  unfold loop at hwaiting ⊢
  split at hwaiting
  · split at hwaiting
    · rename_i hrun
      rw [if_pos hrun]
      exact ⟨hwaiting, Finset.Subset.refl _⟩
    · exact absurd hwaiting (Destructor.wake_ne_waiting _)
  · rename_i i rest hq
    obtain ⟨hsame, hthreads⟩ := take_same (s := s) (i := i) rest
    rw [hsame] at hwaiting
    rw [hthreads]
    exact ⟨hwaiting, Finset.Subset.refl _⟩

/-- Thread `id` leaves since it has been idle. -/
structure Idle (s : State) (id dur : ℕ) : Prop where
  timeout : s.workers id = .lock true
  long : threadMaxIdleTime ≤ dur
  more : s.initSize < s.curThreadCnt

theorem threadFunc_waiting (ht : threadFunc s id dur = some t) (hwaiting : t.destructor = .waiting) :
    s.destructor = .waiting ∧ (s.threads ⊆ t.threads ∨ Idle s id dur ∧ t.threads = s.threads.erase id) := by
  unfold threadFunc at ht
  split at ht
  · rename_i timeout hw
    split at ht
    · rename_i hidle
      obtain ⟨rfl, hlong, hmore⟩ := hidle
      cases ht
      exact ⟨hwaiting, .inr ⟨⟨hw, hlong, hmore⟩, rfl⟩⟩
    · cases ht
      obtain ⟨hbefore, hsub⟩ := threads_loop hwaiting
      exact ⟨hbefore, .inl hsub⟩
  · cases ht
    exact ⟨hwaiting, .inl (Finset.Subset.refl _)⟩
  · cases ht
    exact ⟨hwaiting, .inl (Finset.Subset.refl _)⟩
  all_goals cases ht

/-- It waits only for threads there are. -/
theorem destruct_waiting (ht : destruct s = some t) (hwaiting : t.destructor = .waiting) : t.threads ≠ ∅ := by
  have hwait : ∀ s : State, (waitThreads s).destructor = .waiting → (waitThreads s).threads ≠ ∅ := by
    intro s hs hempty
    have hcard : s.threads.card = 0 := Finset.card_eq_zero.2 hempty
    simp [waitThreads, hcard] at hs
  unfold destruct at ht
  split at ht
  · cases ht
    cases hwaiting
  · cases ht
    exact hwait _ hwaiting
  · cases ht
    exact hwait _ hwaiting
  all_goals cases ht

/-- When the destructor waits after a step, there is a thread, or it waited before and
no thread is gone but one that had been idle. -/
theorem step_waiting (ht : step s e = some t) (hwaiting : t.destructor = .waiting) :
    t.threads ≠ ∅ ∨ s.destructor = .waiting ∧ (s.threads ⊆ t.threads ∨
      ∃ id dur, e = .worker id dur ∧ Idle s id dur ∧ t.threads = s.threads.erase id) := by
  cases e with
  | call =>
    cases ht
    exact .inr ⟨hwaiting, .inl (Finset.Subset.refl _)⟩
  | commit i =>
    simp only [step] at ht
    split at ht
    · unfold commit at ht
      split at ht
      · obtain ⟨hsame, hsub⟩ := threads_put ht
        rw [hsame] at hwaiting
        exact .inr ⟨hwaiting, .inl hsub⟩
      · cases ht
        exact .inr ⟨hwaiting, .inl (Finset.Subset.refl _)⟩
    · cases ht
  | commitWakes i timeout =>
    simp only [step] at ht
    split at ht
    · cases ht
      exact .inr ⟨hwaiting, .inl (Finset.Subset.refl _)⟩
    · cases ht
  | worker id dur =>
    obtain ⟨hbefore, hsub | ⟨hidle, herase⟩⟩ := threadFunc_waiting ht hwaiting
    · exact .inr ⟨hbefore, .inl hsub⟩
    · exact .inr ⟨hbefore, .inr ⟨id, dur, rfl, hidle, herase⟩⟩
  | workerWakes id timeout =>
    simp only [step] at ht
    split at ht
    · split at ht
      · cases ht
      · cases ht
        exact .inr ⟨hwaiting, .inl (Finset.Subset.refl _)⟩
    · cases ht
  | destruct => exact .inl (destruct_waiting ht hwaiting)
  | destructWakes =>
    simp only [step] at ht
    split at ht
    · cases ht
      cases hwaiting
    · cases ht

/-- An untimely step leaves the destructor waiting for nothing. -/
theorem untimely_stuck (h : Threads s) (ht : step s e = some t) (hlate : ¬ Timely s e) : Stuck t := by
  cases e with
  | worker id dur =>
    simp only [Timely, not_forall, not_not] at hlate
    obtain ⟨hw, hlong, hmore, hwaiting, hempty⟩ := hlate
    have hstep : threadFunc s id dur = some (idleExit s id) := by
      unfold threadFunc
      rw [hw]
      exact if_pos ⟨rfl, hlong, hmore⟩
    have hsame : t = idleExit s id := Option.some.inj (ht.symm.trans hstep)
    exact (h.step ht).stuck (by rw [hsame]; exact hwaiting) (by rw [hsame]; exact hempty)
  | call | commit i | commitWakes i timeout | workerWakes id timeout | destruct | destructWakes =>
    exact absurd trivial hlate

/-- A timely step does not. -/
theorem Timely.not_stuck (hc : Timely s e) (h : Threads s) (hs : ¬ Stuck s) (ht : step s e = some t) : ¬ Stuck t := by
  intro hstuck
  rcases step_waiting ht hstuck.waiting with hsome | ⟨hbefore, hsub | ⟨id, dur, rfl, hidle, herase⟩⟩
  · exact hsome hstuck.threads
  · rw [hstuck.threads, Finset.subset_empty] at hsub
    exact hs (h.stuck hbefore hsub)
  · refine hc hidle.timeout hidle.long hidle.more hbefore ?_
    rw [← herase]
    exact hstuck.threads

/-! ## Every run -/

/-- **The destructor is left waiting only by a thread that had been idle.** From the
start of a pool, in either mode, it never waits for nothing exactly if all steps are
timely. -/
theorem run_never_stuck_iff (c : Class) (setters : List Setter) (n : ℤ) (hn : 0 ≤ n) :
    ∃ s₀, start (configured c setters) n = some s₀ ∧ ∀ events s, Run.run step s₀ events = some s →
      (Run.Along step (fun s _ => ¬ Stuck s) s₀ events ∧ ¬ Stuck s ↔ Run.Along step Timely s₀ events) := by
  have hfresh := fresh_configured c setters
  refine ⟨_, hfresh.start n, fun events s hs => ?_⟩
  refine Run.along_iff Threads (fun s => ¬ Stuck s) (fun s e t h ht => h.step ht) (fun s e t h hs ht => ?_)
    (hfresh.threads_start hn (hfresh.start n)) ?_ hs
  · constructor
    · intro hnot
      by_contra hlate
      exact hnot (untimely_stuck h ht hlate)
    · intro hc
      exact hc.not_stuck h hs ht
  · intro hstuck
    have hwaiting := hstuck.waiting
    rw [show (configured c setters).destructor = .outside from hfresh.destructor] at hwaiting
    cases hwaiting

/-- The extra thread of two has been idle and leaves while the destructor waits, before
the other one. -/
def idleFirst : List Event :=
  [.call, .commit 0, .call, .commit 1, .worker 0 0, .worker 0 0, .worker 0 0, .worker 0 0, .worker 0 0, .worker 1 0,
    .workerWakes 1 true, .destruct, .destruct, .worker 1 60, .worker 0 0, .worker 0 0, .destruct]

theorem run_never_stuck_iff_idleFirst :
    ∃ s₀ s, start (configured .threadPool [.mode .cached]) 1 = some s₀ ∧ Run.run step s₀ idleFirst = some s ∧
      Run.Along step (fun s _ => ¬ Stuck s) s₀ idleFirst ∧ ¬ Stuck s := by
  obtain ⟨s₀, hs₀, h⟩ := run_never_stuck_iff .threadPool [.mode .cached] 1 (by decide)
  have hrun : ((start (configured .threadPool [.mode .cached]) 1).bind fun s₀ => Run.run step s₀ idleFirst).map
      State.destructor = some .done := by
    decide +kernel
  have htimely : ((start (configured .threadPool [.mode .cached]) 1).map fun s₀ =>
      decide (Run.Along step Timely s₀ idleFirst)) = some true := by
    decide +kernel
  rw [hs₀, Option.bind_some] at hrun
  rw [hs₀, Option.map_some] at htimely
  obtain ⟨s, hs, -⟩ := Option.map_eq_some_iff.1 hrun
  exact ⟨s₀, s, hs₀, hs, (h idleFirst s hs).2 (of_decide_eq_true (Option.some.inj htimely))⟩

/-- The wait of the extra thread has run out, a minute after it was made, when the
destructor is called. The other thread finds the pool stopped and leaves; then the
extra one leaves, for it has been idle. -/
def lateTimeout : List Event :=
  [.call, .commit 0, .call, .commit 1, .worker 0 0, .worker 0 0, .worker 0 0, .worker 0 0, .worker 0 0, .worker 1 0,
    .workerWakes 1 true, .destruct, .destruct, .worker 0 0, .worker 0 0, .destruct, .worker 1 60]

theorem stuck_shutdown :
    ∃ s₀ s, start (configured .threadPool [.mode .cached]) 1 = some s₀ ∧ Run.run step s₀ lateTimeout = some s ∧
      Stuck s := by
  have hfresh := fresh_configured .threadPool [.mode .cached]
  have hs₀ := hfresh.start 1
  have hrun : ((start (configured .threadPool [.mode .cached]) 1).bind fun s₀ => Run.run step s₀ lateTimeout).map
      (fun s => (s.destructor, s.threads.card)) = some (.waiting, 0) := by
    decide +kernel
  rw [hs₀, Option.bind_some] at hrun
  obtain ⟨s, hs, he⟩ := Option.map_eq_some_iff.1 hrun
  obtain ⟨hwaiting, hempty⟩ := Prod.mk.inj he
  have hthreads := Run.run_invariant Threads (fun s e t h ht => h.step ht) (hfresh.threads_start (by decide) hs₀) hs
  exact ⟨_, s, hs₀, hs, hthreads.stuck hwaiting (Finset.card_eq_zero.1 hempty)⟩

end Learncc.ThreadPool
