/-
`event_loop` (src/mmuduo/event_loop.cc): the queue through which other
threads, and the loop's own callbacks, hand functors to the loop thread.

The loop thread and the callers interleave step by step: a push under
`mtx_`, the `eventfd` write that follows it, the unlocked `size()` test, each
store of `calling_pending_functors_` and the swap are steps of their own. What
a callback or a functor does is a finite list of calls into the loop, chosen
by the environment when it starts.

`no_functor_lost`: functors run exactly once and in push order, the loop
thread never sleeps on a functor nobody will wake it for, and under a fair
scheduler every functor is run.
-/
import Learncc.Lib.Fair
import Mathlib.Data.Prod.Lex
import Mathlib.Logic.Function.Basic
import Mathlib.Tactic.IntervalCases

namespace Learncc

/-- What code in the loop thread asks of its own loop. `run_in_loop` runs
its functor on the spot: the calls that one makes come next. -/
inductive LoopCall (φ : Type*)
  | queueInLoop (f : φ)
  | runInLoop (f : φ)
  | quit

/-- An entry of `active_channels_`: the wakeup channel, whose callback is
`handle_read`, or another, with the calls its callback makes. -/
inductive ActiveChannel (φ : Type*)
  | wakeup
  | other (calls : List (LoopCall φ))

/-- An upper bound on the steps its callback takes. -/
def ActiveChannel.steps {φ : Type*} : ActiveChannel φ → ℕ
  | .wakeup => 1
  | .other calls => 2 * calls.length + 1

/-- Where the loop thread stands. -/
inductive LoopPc (φ : Type*)
  | start
  | top
  | polling
  | callbacks (calls : List (LoopCall φ)) (active : List (ActiveChannel φ))
  | sizeTest
  | setCalling
  | swap
  | functors (calls : List (LoopCall φ))
  | stopped

namespace LoopPc

variable {φ : Type*}

/-- After the swap, with `funcs_` in scope. -/
def inFunctors : LoopPc φ → Bool
  | .functors _ => true
  | _ => false

/-- Between the two stores of `calling_pending_functors_`. -/
def calling : LoopPc φ → Bool
  | .swap | .functors _ => true
  | _ => false

/-- A callback or a functor runs and may call into the loop. -/
def runsCalls : LoopPc φ → Bool
  | .callbacks _ _ | .functors _ => true
  | _ => false

/-- After the swap and until a poll returns, nothing but a wakeup brings the
thread back to a functor that waits. -/
def needsWakeup : LoopPc φ → Bool
  | .start | .top | .polling | .functors _ => true
  | _ => false

end LoopPc

/-- Where another thread stands: outside the loop's functions, between its
push and its wakeup write, or between `quit_ = true` and its write. -/
inductive ThreadPc
  | idle
  | pushed
  | quitting
deriving Repr, DecidableEq

/-- The loop, its eventfd and the threads that use it. `batch` is what is
left of `funcs_`; `selfPushed` says that the loop thread is itself in
`queue_in_loop`, after the push. The last three record what was pushed, what
`do_pending_functors` ran, and what `run_in_loop` ran on the spot. -/
structure EventLoop (τ φ : Type*) where
  pc : LoopPc φ
  quit : Bool
  callingPendingFunctors : Bool
  pendingFunctors : List φ
  batch : List φ
  eventfd : ℕ
  selfPushed : Bool
  thread : τ → ThreadPc
  pushed : List φ
  executed : List φ
  inlined : List φ

/-- What the loop thread's next step needs from outside. -/
inductive LoopAnswer (φ : Type*)
  | go
  | poll (active : List (ActiveChannel φ))
  | body (calls : List (LoopCall φ))

/-- One step of some thread. For another thread `run_in_loop` is
`queue_in_loop`. -/
inductive LoopAct (τ φ : Type*)
  | queueInLoop (t : τ) (f : φ)
  | quit (t : τ)
  | wakeup (t : τ)
  | loop (answer : LoopAnswer φ)

def LoopAct.isLoop {τ φ : Type*} : LoopAct τ φ → Bool
  | .loop _ => true
  | _ => false

namespace EventLoop

variable {τ φ : Type*}

def init : EventLoop τ φ :=
  { pc := .start, quit := false, callingPendingFunctors := false, pendingFunctors := [], batch := [], eventfd := 0,
    selfPushed := false, thread := fun _ => .idle, pushed := [], executed := [], inlined := [] }

/-- The largest count an eventfd holds: a write that would pass it fails. -/
def eventfdMax : ℕ := 2 ^ 64 - 2

/-- Writes 1 to the eventfd; on a full one the write fails with EAGAIN. -/
def wakeup (l : EventLoop τ φ) : EventLoop τ φ :=
  { l with eventfd := if l.eventfd < eventfdMax then l.eventfd + 1 else l.eventfd }

/-- Reads the eventfd, which empties it. -/
def handleRead (l : EventLoop τ φ) : EventLoop τ φ := { l with eventfd := 0 }

/-- The locked part of `queue_in_loop`. -/
def emplaceBack (l : EventLoop τ φ) (f : φ) : EventLoop τ φ :=
  { l with pendingFunctors := l.pendingFunctors ++ [f], pushed := l.pushed ++ [f] }

/-- The rest of `queue_in_loop` when the caller is the loop thread. -/
def wakeupIfCalling (l : EventLoop τ φ) : EventLoop τ φ :=
  let l := if l.callingPendingFunctors then l.wakeup else l
  { l with selfPushed := false }

def call (l : EventLoop τ φ) : LoopCall φ → EventLoop τ φ
  | .queueInLoop f => { l.emplaceBack f with selfPushed := true }
  | .runInLoop f => { l with inlined := l.inlined ++ [f] }
  | .quit => { l with quit := true }

/-- The steps of `loop` and `do_pending_functors` that only look at the loop. -/
def goStep (l : EventLoop τ φ) : Option (EventLoop τ φ) :=
  match l.pc with
  | .start => some { l with quit := false, pc := .top }
  | .top => some { l with pc := if l.quit then .stopped else .polling }
  | .polling => none
  | .callbacks (c :: cs) active => some { l.call c with pc := .callbacks cs active }
  | .callbacks [] (.wakeup :: active) => some { l.handleRead with pc := .callbacks [] active }
  | .callbacks [] (.other calls :: active) => some { l with pc := .callbacks calls active }
  | .callbacks [] [] => some { l with pc := .sizeTest }
  | .sizeTest => some { l with pc := if l.pendingFunctors.length = 0 then .top else .setCalling }
  | .setCalling => some { l with callingPendingFunctors := true, pc := .swap }
  | .swap => some { l with batch := l.pendingFunctors, pendingFunctors := [], pc := .functors [] }
  | .functors (c :: cs) => some { l.call c with pc := .functors cs }
  | .functors [] =>
    match l.batch with
    | [] => some { l with callingPendingFunctors := false, pc := .top }
    | _ :: _ => none
  | .stopped => none

def loopStep (l : EventLoop τ φ) (answer : LoopAnswer φ) : Option (EventLoop τ φ) :=
  if l.selfPushed then
    match answer with
    | .go => some l.wakeupIfCalling
    | _ => none
  else
    match answer, l.pc, l.batch with
    | .go, _, _ => l.goStep
    | .poll active, .polling, _ => some { l with pc := .callbacks [] active }
    | .body calls, .functors [], f :: fs =>
      some { l with executed := l.executed ++ [f], batch := fs, pc := .functors calls }
    | _, _, _ => none

def step [DecidableEq τ] (l : EventLoop τ φ) : LoopAct τ φ → Option (EventLoop τ φ)
  | .queueInLoop t f =>
    if l.thread t = .idle then some { l.emplaceBack f with thread := Function.update l.thread t .pushed } else none
  | .quit t =>
    if l.thread t = .idle then some { l with quit := true, thread := Function.update l.thread t .quitting } else none
  | .wakeup t =>
    if l.thread t = .idle then none else some { l.wakeup with thread := Function.update l.thread t .idle }
  | .loop answer => l.loopStep answer

/-! ## The invariant -/

structure Inv (l : EventLoop τ φ) : Prop where
  order : l.pushed = l.executed ++ l.batch ++ l.pendingFunctors
  batch : l.pc.inFunctors = false → l.batch = []
  calling : l.pc.calling = true → l.callingPendingFunctors = true
  self : l.selfPushed = true → l.pc.runsCalls = true
  wake : l.pc.needsWakeup = true →
    l.pendingFunctors = [] ∨ 0 < l.eventfd ∨ l.selfPushed = true ∨ ∃ t, l.thread t = .pushed
  stopped : l.pc = .stopped → l.quit = true

theorem init_inv : Inv (init : EventLoop τ φ) := by
  constructor <;> simp [init, LoopPc.calling]

@[simp] theorem wakeup_eventfd_pos (l : EventLoop τ φ) : 0 < l.wakeup.eventfd := by
  have hmax : 0 < eventfdMax := by decide
  simp only [wakeup]
  split <;> omega

theorem call_inv {l : EventLoop τ φ} (h : Inv l) (c : LoopCall φ) {pc : LoopPc φ}
    (hf : l.pc.inFunctors = pc.inFunctors) (hc : l.pc.calling = pc.calling) (hr : pc.runsCalls = true)
    (hw : l.pc.needsWakeup = pc.needsWakeup) : Inv { l.call c with pc } := by
  have hs : pc ≠ .stopped := by rintro rfl; cases hr
  cases c with
  | queueInLoop f =>
    refine ⟨?_, ?_, ?_, ?_, ?_, fun hp => absurd hp hs⟩
    · simp [call, emplaceBack, h.order]
    · intro hb; exact h.batch (hf.trans hb)
    · intro hb; exact h.calling (hc.trans hb)
    · intro _; exact hr
    · intro _; exact .inr (.inr (.inl rfl))
  | runInLoop f =>
    exact ⟨h.order, fun hb => h.batch (hf.trans hb), fun hb => h.calling (hc.trans hb), fun _ => hr,
      fun hb => h.wake (hw.trans hb), fun hp => absurd hp hs⟩
  | quit =>
    exact ⟨h.order, fun hb => h.batch (hf.trans hb), fun hb => h.calling (hc.trans hb), fun _ => hr,
      fun hb => h.wake (hw.trans hb), fun hp => absurd hp hs⟩

theorem goStep_inv {l l' : EventLoop τ φ} (h : Inv l) (hself : l.selfPushed = false) (hs : l.goStep = some l') :
    Inv l' := by
  obtain ⟨hord, hbat, hcal, -, hwake, -⟩ := h
  have hno {p : Prop} : l.selfPushed = true → p := by simp [hself]
  cases hpc : l.pc with
  | start =>
    simp only [goStep, hpc, Option.some.injEq] at hs
    subst hs
    exact ⟨hord, fun _ => hbat (by rw [hpc]; rfl), nofun, hno, fun _ => hwake (by rw [hpc]; rfl), nofun⟩
  | top =>
    simp only [goStep, hpc, Option.some.injEq] at hs
    subst hs
    refine ⟨hord, fun _ => hbat (by rw [hpc]; rfl), ?_, hno, fun _ => hwake (by rw [hpc]; rfl), ?_⟩
    · cases l.quit <;> exact nofun
    · cases hq : l.quit
      · exact nofun
      · exact fun _ => rfl
  | callbacks calls active =>
    have hb : l.batch = [] := hbat (by rw [hpc]; rfl)
    cases calls with
    | cons c cs =>
      simp only [goStep, hpc, Option.some.injEq] at hs
      subst hs
      exact call_inv ⟨hord, hbat, hcal, hno, hwake, by simp [hpc]⟩ c (by rw [hpc]; rfl) (by rw [hpc]; rfl) rfl
        (by rw [hpc]; rfl)
    | nil =>
      cases active with
      | nil =>
        simp only [goStep, hpc, Option.some.injEq] at hs
        subst hs
        exact ⟨hord, fun _ => hb, nofun, hno, nofun, nofun⟩
      | cons ch active =>
        cases ch <;> simp only [goStep, hpc, Option.some.injEq] at hs <;> subst hs <;>
          exact ⟨hord, fun _ => hb, nofun, hno, nofun, nofun⟩
  | sizeTest =>
    have hb : l.batch = [] := hbat (by rw [hpc]; rfl)
    simp only [goStep, hpc, Option.some.injEq] at hs
    subst hs
    by_cases he : l.pendingFunctors.length = 0
    · simp only [if_pos he]
      exact ⟨hord, fun _ => hb, nofun, hno, fun _ => .inl (List.length_eq_zero_iff.1 he), nofun⟩
    · simp only [if_neg he]
      exact ⟨hord, fun _ => hb, nofun, hno, nofun, nofun⟩
  | setCalling =>
    simp only [goStep, hpc, Option.some.injEq] at hs
    subst hs
    exact ⟨hord, fun _ => hbat (by rw [hpc]; rfl), fun _ => rfl, hno, nofun, nofun⟩
  | swap =>
    have hb : l.batch = [] := hbat (by rw [hpc]; rfl)
    simp only [goStep, hpc, Option.some.injEq] at hs
    subst hs
    exact ⟨by simp [hord, hb], nofun, fun _ => hcal (by rw [hpc]; rfl), hno, fun _ => .inl rfl, nofun⟩
  | functors calls =>
    cases calls with
    | cons c cs =>
      simp only [goStep, hpc, Option.some.injEq] at hs
      subst hs
      exact call_inv ⟨hord, hbat, hcal, hno, hwake, by simp [hpc]⟩ c (by rw [hpc]; rfl) (by rw [hpc]; rfl) rfl
        (by rw [hpc]; rfl)
    | nil =>
      simp only [goStep, hpc] at hs
      split at hs
      · rename_i hb
        cases hs
        exact ⟨hord, fun _ => hb, nofun, hno, fun _ => hwake (by rw [hpc]; rfl), nofun⟩
      · cases hs
  | polling | stopped =>
    simp only [goStep, hpc, reduceCtorEq] at hs

theorem wakeupIfCalling_frame (l : EventLoop τ φ) :
    l.wakeupIfCalling.pc = l.pc ∧ l.wakeupIfCalling.batch = l.batch ∧ l.wakeupIfCalling.executed = l.executed ∧
      l.wakeupIfCalling.pushed = l.pushed := by
  simp only [wakeupIfCalling]
  split <;> exact ⟨rfl, rfl, rfl, rfl⟩

/-- A push from a functor is followed by its wakeup; one from a callback
needs none, the size test is still to come. -/
theorem wakeupIfCalling_inv {l : EventLoop τ φ} (h : Inv l) (hself : l.selfPushed = true) :
    Inv l.wakeupIfCalling := by
  obtain ⟨hpc, -⟩ := wakeupIfCalling_frame l
  have hrun : l.pc.runsCalls = true := h.self hself
  refine ⟨?_, ?_, ?_, nofun, ?_, ?_⟩
  · simp only [wakeupIfCalling]
    split <;> exact h.order
  · rw [hpc]
    simp only [wakeupIfCalling]
    split <;> exact h.batch
  · rw [hpc]
    simp only [wakeupIfCalling]
    split <;> exact h.calling
  · rw [hpc]
    intro hw
    cases hl : l.pc with
    | functors calls =>
      have hcall : l.callingPendingFunctors = true := h.calling (by rw [hl]; rfl)
      simp only [wakeupIfCalling, hcall, if_true]
      exact .inr (.inl l.wakeup_eventfd_pos)
    | callbacks calls active => rw [hl] at hw; cases hw
    | start | top | polling | sizeTest | setCalling | swap | stopped => rw [hl] at hrun; cases hrun
  · rw [hpc]
    intro hst
    rw [hst] at hrun
    cases hrun

theorem loopStep_inv {l l' : EventLoop τ φ} {ans : LoopAnswer φ} (h : Inv l) (hs : l.loopStep ans = some l') :
    Inv l' := by
  unfold loopStep at hs
  split at hs
  · rename_i hself
    cases ans <;> simp only [reduceCtorEq, Option.some.injEq] at hs
    subst hs
    exact wakeupIfCalling_inv h hself
  · rename_i hself
    simp only [Bool.not_eq_true] at hself
    split at hs
    · exact goStep_inv h hself hs
    · rename_i hpc
      cases hs
      exact ⟨h.order, fun _ => h.batch (by rw [hpc]; rfl), nofun, by simp [hself], nofun, nofun⟩
    · rename_i hpc hb
      cases hs
      refine ⟨by simp [h.order, hb], nofun, fun _ => h.calling (by rw [hpc]; rfl), by simp [hself],
        fun _ => h.wake (by rw [hpc]; rfl), nofun⟩
    · cases hs

variable [DecidableEq τ]

theorem step_inv {l l' : EventLoop τ φ} {a : LoopAct τ φ} (h : Inv l) (hs : l.step a = some l') : Inv l' := by
  cases a with
  | queueInLoop t f =>
    simp only [step] at hs
    split at hs <;> cases hs
    exact ⟨by simp [emplaceBack, h.order], h.batch, h.calling, h.self,
      fun _ => .inr (.inr (.inr ⟨t, by simp⟩)), h.stopped⟩
  | quit t =>
    simp only [step] at hs
    split at hs <;> cases hs
    rename_i ht
    refine ⟨h.order, h.batch, h.calling, h.self, fun hw => ?_, fun _ => rfl⟩
    refine (h.wake hw).imp_right (.imp_right (.imp_right fun ⟨u, hu⟩ => ⟨u, ?_⟩))
    -- The quitting thread was idle, so it is not the one with the push.
    have hne : u ≠ t := by rintro rfl; rw [ht] at hu; cases hu
    simpa [hne] using hu
  | wakeup t =>
    simp only [step] at hs
    split at hs <;> cases hs
    exact ⟨h.order, h.batch, h.calling, h.self, fun _ => .inr (.inl l.wakeup_eventfd_pos), h.stopped⟩
  | loop ans => exact loopStep_inv h hs

theorem run_inv {as : List (LoopAct τ φ)} {l : EventLoop τ φ} (h : Run.run step init as = some l) : Inv l :=
  Run.run_invariant Inv (fun _ _ _ hl hs => step_inv hl hs) init_inv h

/-! ## What comes next -/

omit [DecidableEq τ] in
/-- The loop thread is never stuck inside `loop`: `epoll_wait` may always
return, and every other phase has a next step. -/
theorem loop_enabled {l : EventLoop τ φ} (hst : l.pc ≠ .stopped) :
    ∃ ans l', l.loopStep ans = some l' := by
  by_cases hself : l.selfPushed = true
  · exact ⟨.go, _, by simp only [loopStep, hself, if_true]; rfl⟩
  · have hgo : ∀ l', l.goStep = some l' → ∃ ans l', l.loopStep ans = some l' :=
      fun l' hl' => ⟨.go, l', by simpa [loopStep, hself] using hl'⟩
    cases hpc : l.pc with
    | stopped => exact absurd hpc hst
    | polling => exact ⟨.poll [], _, by simp only [loopStep, hself, hpc]; rfl⟩
    | functors calls =>
      cases calls with
      | cons c cs => exact hgo _ (by simp only [goStep, hpc]; rfl)
      | nil =>
        cases hb : l.batch with
        | nil => exact hgo _ (by simp only [goStep, hpc, hb]; rfl)
        | cons f fs => exact ⟨.body [], _, by simp only [loopStep, hself, hpc, hb]; rfl⟩
    | callbacks calls active =>
      cases calls with
      | cons c cs => exact hgo _ (by simp only [goStep, hpc]; rfl)
      | nil =>
        rcases active with _ | ⟨_ | _, _⟩ <;> exact hgo _ (by simp only [goStep, hpc]; rfl)
    | start | top | sizeTest | setCalling | swap => exact hgo _ (by simp only [goStep, hpc]; rfl)

/-- How many phases the loop thread is away from running a functor, when one
waits. -/
def phase (l : EventLoop τ φ) : ℕ :=
  match l.pc with
  | .functors _ => if l.batch.isEmpty then 7 else 0
  | .swap => 1
  | .setCalling => 2
  | .sizeTest => 3
  | .callbacks _ _ => 4
  | .polling => 5
  | .top => 6
  | .start => 7
  | .stopped => 0

/-- The steps left in callbacks or in a functor's body: a call may take two. -/
def work (l : EventLoop τ φ) : ℕ :=
  (match l.pc with
    | .callbacks calls active => 2 * calls.length + (active.map ActiveChannel.steps).sum
    | .functors calls => 2 * calls.length
    | _ => 0) + if l.selfPushed then 1 else 0

def rank (l : EventLoop τ φ) : ℕ ×ₗ ℕ := toLex (l.phase, l.work)

omit [DecidableEq τ] in
theorem rank_lt_of_phase {l l' : EventLoop τ φ} (h : l'.phase < l.phase) : l'.rank < l.rank :=
  Prod.Lex.toLex_lt_toLex.2 (.inl h)

omit [DecidableEq τ] in
theorem rank_lt_of_work {l l' : EventLoop τ φ} (hp : l'.phase = l.phase) (h : l'.work < l.work) : l'.rank < l.rank :=
  Prod.Lex.toLex_lt_toLex.2 (.inr ⟨hp, h⟩)

omit [DecidableEq τ] in
theorem call_frame (l : EventLoop τ φ) (c : LoopCall φ) :
    (l.call c).executed = l.executed ∧ (l.call c).batch = l.batch ∧ l.pushed <+: (l.call c).pushed := by
  cases c with
  | queueInLoop f => exact ⟨rfl, rfl, List.prefix_append _ _⟩
  | runInLoop f | quit => exact ⟨rfl, rfl, List.prefix_rfl⟩

omit [DecidableEq τ] in
/-- While a functor waits, each step of the loop thread brings it nearer. -/
theorem goStep_rank {l l' : EventLoop τ φ} (h : Inv l) (hq : l.quit = false) (hself : l.selfPushed = false)
    (hout : l.batch ++ l.pendingFunctors ≠ []) (hs : l.goStep = some l') :
    l'.executed = l.executed ∧ l'.rank < l.rank := by
  cases hpc : l.pc with
  | start | setCalling =>
    simp only [goStep, hpc, Option.some.injEq] at hs
    subst hs
    exact ⟨rfl, rank_lt_of_phase (by simp [phase, hpc])⟩
  | top =>
    simp only [goStep, hpc, hq, Option.some.injEq] at hs
    subst hs
    exact ⟨rfl, rank_lt_of_phase (by simp [phase, hpc])⟩
  | callbacks calls active =>
    cases calls with
    | cons c cs =>
      simp only [goStep, hpc, Option.some.injEq] at hs
      subst hs
      obtain ⟨he, hb, -⟩ := call_frame l c
      refine ⟨he, rank_lt_of_work (by simp [phase, hpc]) ?_⟩
      simp only [work, hpc, hself, List.length_cons, Bool.false_eq_true, if_false]
      split <;> omega
    | nil =>
      rcases active with _ | ⟨_ | calls, active⟩ <;> simp only [goStep, hpc, Option.some.injEq] at hs <;> subst hs
      · exact ⟨rfl, rank_lt_of_phase (by simp [phase, hpc])⟩
      · exact ⟨rfl, rank_lt_of_work (by simp [phase, hpc])
          (by simp [work, hpc, handleRead, ActiveChannel.steps])⟩
      · exact ⟨rfl, rank_lt_of_work (by simp [phase, hpc])
          (by simp [work, hpc, ActiveChannel.steps])⟩
  | sizeTest =>
    have hb : l.batch = [] := h.batch (by rw [hpc]; rfl)
    have hp : l.pendingFunctors.length ≠ 0 := by simpa [hb] using hout
    simp only [goStep, hpc, if_neg hp, Option.some.injEq] at hs
    subst hs
    exact ⟨rfl, rank_lt_of_phase (by simp [phase, hpc])⟩
  | swap =>
    have hb : l.batch = [] := h.batch (by rw [hpc]; rfl)
    have hp : l.pendingFunctors ≠ [] := by simpa [hb] using hout
    simp only [goStep, hpc, Option.some.injEq] at hs
    subst hs
    exact ⟨rfl, rank_lt_of_phase (by simp [phase, hpc, hp])⟩
  | functors calls =>
    cases calls with
    | cons c cs =>
      simp only [goStep, hpc, Option.some.injEq] at hs
      subst hs
      obtain ⟨he, hb, -⟩ := call_frame l c
      refine ⟨he, rank_lt_of_work (by simp [phase, hpc, hb]) ?_⟩
      simp only [work, hpc, hself, List.length_cons, Bool.false_eq_true, if_false]
      split <;> omega
    | nil =>
      simp only [goStep, hpc] at hs
      split at hs
      · rename_i hb
        cases hs
        exact ⟨rfl, rank_lt_of_phase (by simp [phase, hpc, hb])⟩
      · cases hs
  | polling | stopped => simp only [goStep, hpc, reduceCtorEq] at hs

omit [DecidableEq τ] in
theorem loopStep_rank {l l' : EventLoop τ φ} {ans : LoopAnswer φ} (h : Inv l) (hq : l.quit = false)
    (hout : l.batch ++ l.pendingFunctors ≠ []) (hs : l.loopStep ans = some l') :
    l'.executed.length = l.executed.length + 1 ∨ l'.executed = l.executed ∧ l'.rank < l.rank := by
  unfold loopStep at hs
  split at hs
  · rename_i hself
    cases ans <;> simp only [reduceCtorEq, Option.some.injEq] at hs
    subst hs
    obtain ⟨hpc, hb, he, -⟩ := wakeupIfCalling_frame l
    refine .inr ⟨he, rank_lt_of_work (by simp [phase, hpc, hb]) ?_⟩
    have hdone : l.wakeupIfCalling.selfPushed = false := rfl
    simp [work, hpc, hself, hdone]
  · rename_i hself
    simp only [Bool.not_eq_true] at hself
    split at hs
    · exact .inr (goStep_rank h hq hself hout hs)
    · rename_i hpc
      cases hs
      exact .inr ⟨rfl, rank_lt_of_phase (by simp [phase, hpc])⟩
    · cases hs
      exact .inl (by simp)
    · cases hs

/-- A step of another thread leaves the loop thread where it is. -/
theorem step_rank_other {l l' : EventLoop τ φ} {a : LoopAct τ φ} (ha : a.isLoop = false) (hs : l.step a = some l') :
    l'.executed = l.executed ∧ l'.rank = l.rank ∧ l'.pc = l.pc ∧ l.eventfd ≤ l'.eventfd := by
  cases a with
  | loop ans => cases ha
  | queueInLoop t f =>
    simp only [step] at hs
    split at hs <;> cases hs
    exact ⟨rfl, rfl, rfl, Nat.le_refl _⟩
  | quit t =>
    simp only [step] at hs
    split at hs <;> cases hs
    exact ⟨rfl, rfl, rfl, Nat.le_refl _⟩
  | wakeup t =>
    simp only [step] at hs
    split at hs <;> cases hs
    refine ⟨rfl, rfl, rfl, ?_⟩
    simp only [wakeup]
    split <;> omega

omit [DecidableEq τ] in
theorem goStep_pushed {l l' : EventLoop τ φ} (hs : l.goStep = some l') : l.pushed <+: l'.pushed := by
  cases hpc : l.pc with
  | callbacks calls active =>
    rcases calls with _ | ⟨c, cs⟩
    · rcases active with _ | ⟨_ | _, _⟩ <;> simp only [goStep, hpc, Option.some.injEq] at hs <;> subst hs <;>
        exact List.prefix_rfl
    · simp only [goStep, hpc, Option.some.injEq] at hs
      subst hs
      exact (call_frame l c).2.2
  | functors calls =>
    rcases calls with _ | ⟨c, cs⟩
    · simp only [goStep, hpc] at hs
      split at hs <;> cases hs
      exact List.prefix_rfl
    · simp only [goStep, hpc, Option.some.injEq] at hs
      subst hs
      exact (call_frame l c).2.2
  | start | top | sizeTest | setCalling | swap =>
    simp only [goStep, hpc, Option.some.injEq] at hs
    subst hs
    exact List.prefix_rfl
  | polling | stopped => simp only [goStep, hpc, reduceCtorEq] at hs

/-- A push is never undone. -/
theorem step_pushed {l l' : EventLoop τ φ} {a : LoopAct τ φ} (hs : l.step a = some l') : l.pushed <+: l'.pushed := by
  cases a with
  | queueInLoop t f =>
    simp only [step] at hs
    split at hs <;> cases hs
    exact List.prefix_append _ _
  | quit t | wakeup t =>
    simp only [step] at hs
    split at hs <;> cases hs
    exact List.prefix_rfl
  | loop ans =>
    simp only [step, loopStep] at hs
    split at hs
    · cases ans <;> simp only [reduceCtorEq, Option.some.injEq] at hs
      subst hs
      exact (wakeupIfCalling_frame l).2.2.2 ▸ List.prefix_rfl
    · split at hs
      · exact goStep_pushed hs
      · cases hs
        exact List.prefix_rfl
      · cases hs
        exact List.prefix_rfl
      · cases hs

/-! ## Fair runs -/

/-- The loop thread can go on without help: it is inside `loop`, and not
asleep in `epoll_wait` on an empty eventfd. -/
def Runnable (l : EventLoop τ φ) : Prop := l.pc ≠ .stopped ∧ (l.pc = .polling → 0 < l.eventfd)

/-- An infinite run in which a thread that can go on does: the loop thread
when it stays runnable, any other between its push and its wakeup write. -/
structure FairRun (s : ℕ → EventLoop τ φ) (a : ℕ → LoopAct τ φ) : Prop where
  start : s 0 = init
  trace : Run.Trace step s a
  loop : ∀ n, (∀ m, n ≤ m → (s m).Runnable) → ∃ m, n ≤ m ∧ (a m).isLoop = true
  wakeup : ∀ n t, (s n).thread t = .pushed → ∃ m, n ≤ m ∧ a m = .wakeup t

section Fair

variable {s : ℕ → EventLoop τ φ} {a : ℕ → LoopAct τ φ}

theorem FairRun.inv (h : FairRun s a) (n : ℕ) : Inv (s n) := by
  have hr := h.trace.run n
  rw [h.start] at hr
  exact run_inv hr

theorem FairRun.pushed_prefix (h : FairRun s a) {n m : ℕ} (hnm : n ≤ m) : (s n).pushed <+: (s m).pushed :=
  h.trace.keeps (P := fun _ _ => True) (Q := fun l => (s n).pushed <+: l.pushed)
    (fun _ _ _ hl _ hs => hl.trans (step_pushed hs)) List.prefix_rfl (fun _ _ => trivial) hnm

/-- While a functor waits, the loop thread takes another step. -/
theorem FairRun.loop_steps (h : FairRun s a) (hq : ∀ n, (s n).quit = false) {n : ℕ}
    (hout : (s n).batch ++ (s n).pendingFunctors ≠ []) : ∃ m, n ≤ m ∧ (a m).isLoop = true := by
  by_contra hno
  push Not at hno
  have hother : ∀ m, n ≤ m → (a m).isLoop = false := fun m hm => by simpa using hno m hm
  have hstop : ∀ m, (s m).pc ≠ .stopped := fun m hm => by
    have := (h.inv m).stopped hm
    simp [hq m] at this
  -- Without a step of the loop thread its position stands still and the eventfd only grows.
  have hpc : ∀ m, n ≤ m → (s m).pc = (s n).pc := fun m hm =>
    h.trace.keeps (P := fun _ i => i.isLoop = false) (Q := fun l => l.pc = (s n).pc)
      (fun l i l' hl hi hs => ((step_rank_other hi hs).2.2.1).trans hl) rfl hother hm
  have hfd : ∀ k, n ≤ k → 0 < (s k).eventfd → ∀ m, k ≤ m → 0 < (s m).eventfd := fun k hk h0 m hm =>
    h.trace.keeps (P := fun _ i => i.isLoop = false) (Q := fun l => 0 < l.eventfd)
      (fun l i l' hl hi hs => Nat.lt_of_lt_of_le hl (step_rank_other hi hs).2.2.2) h0
      (fun j hj => hother j (by omega)) hm
  have hgo : ∀ k, n ≤ k → (∀ m, k ≤ m → (s m).Runnable) → False := fun k hk hrun => by
    obtain ⟨m, hm, hl⟩ := h.loop k hrun
    exact hno m (by omega) hl
  by_cases hpoll : (s n).pc = .polling
  · have hp : (s n).pendingFunctors ≠ [] := by
      have hb := (h.inv n).batch (by rw [hpoll]; rfl)
      simpa [hb] using hout
    rcases (h.inv n).wake (by rw [hpoll]; rfl) with he | he | he | ⟨t, ht⟩
    · exact hp he
    · exact hgo n (Nat.le_refl n) fun m hm => ⟨hstop m, fun _ => hfd n (Nat.le_refl n) he m hm⟩
    · have := (h.inv n).self he
      rw [hpoll] at this
      cases this
    · obtain ⟨m, hm, ha⟩ := h.wakeup n t ht
      have hs := h.trace m
      rw [ha] at hs
      have h0 : 0 < (s (m + 1)).eventfd := by
        simp only [step] at hs
        split at hs
        · cases hs
        · rw [← Option.some.inj hs]
          exact wakeup_eventfd_pos _
      exact hgo (m + 1) (by omega) fun j hj => ⟨hstop j, fun _ => hfd (m + 1) (by omega) h0 j hj⟩
  · exact hgo n (Nat.le_refl n) fun m hm => ⟨hstop m, fun hp => absurd ((hpc m hm).symm.trans hp) hpoll⟩

theorem FairRun.executes_next (h : FairRun s a) (hq : ∀ n, (s n).quit = false) {n : ℕ}
    (hlt : (s n).executed.length < (s n).pushed.length) :
    ∃ m, n ≤ m ∧ (s n).executed.length < (s m).executed.length := by
  let e := (s n).executed.length
  have hout : ∀ m, (s m).executed.length < (s m).pushed.length → (s m).batch ++ (s m).pendingFunctors ≠ [] := by
    intro m hm he
    rw [(h.inv m).order, List.append_assoc, he] at hm
    simp at hm
  refine Run.eventually_of_rank (r := fun m => (s m).rank) (H := fun m => (a m).isLoop = true)
    (P := fun m => (s m).executed.length = e ∧ e < (s m).pushed.length)
    (G := fun m => e < (s m).executed.length) ?_ ?_ ?_ ⟨rfl, hlt⟩
  · intro m hy
    obtain ⟨he, hp⟩ := hy
    have hp' : e < (s (m + 1)).pushed.length := Nat.lt_of_lt_of_le hp (step_pushed (h.trace m)).length_le
    cases hl : (a m).isLoop with
    | false =>
      obtain ⟨he', hr, -⟩ := step_rank_other hl (h.trace m)
      exact .inr ⟨⟨by rw [he', he], hp'⟩, le_of_eq hr⟩
    | true =>
      have hs := h.trace m
      cases ha : a m with
      | loop ans =>
        rw [ha] at hs
        rcases loopStep_rank (h.inv m) (hq m) (hout m (he ▸ hp)) hs with hx | ⟨hx, hr⟩
        · exact .inl (by omega)
        · exact .inr ⟨⟨by rw [hx, he], hp'⟩, le_of_lt hr⟩
      | queueInLoop t f | quit t | wakeup t => rw [ha] at hl; cases hl
  · intro m hy hl
    obtain ⟨he, hp⟩ := hy
    have hs := h.trace m
    cases ha : a m with
    | loop ans =>
      rw [ha] at hs
      rcases loopStep_rank (h.inv m) (hq m) (hout m (he ▸ hp)) hs with hx | ⟨-, hr⟩
      · exact .inl (by omega)
      · exact .inr hr
    | queueInLoop t f | quit t | wakeup t => rw [ha] at hl; cases hl
  · intro m hy
    obtain ⟨he, hp⟩ := hy
    exact h.loop_steps hq (hout m (he ▸ hp))

/-- Every functor pushed by some point of a fair run is run by a later one. -/
theorem FairRun.executes (h : FairRun s a) (hq : ∀ n, (s n).quit = false) (n : ℕ) :
    ∃ m, (s n).pushed <+: (s m).executed := by
  -- By induction on how many of them are still to run at `m`.
  have hlen : ∀ d m, n ≤ m → (s n).pushed.length - (s m).executed.length = d →
      ∃ k, n ≤ k ∧ (s n).pushed.length ≤ (s k).executed.length := by
    intro d
    induction d using Nat.strongRecOn with
    | ind d ih =>
      intro m hm hd
      by_cases hle : (s n).pushed.length ≤ (s m).executed.length
      · exact ⟨m, hm, hle⟩
      · have hpm := (h.pushed_prefix hm).length_le
        obtain ⟨k, hk, hlt⟩ := h.executes_next hq (n := m) (by omega)
        exact ih _ (by omega) k (by omega) rfl
  obtain ⟨m, hm, hle⟩ := hlen _ n (Nat.le_refl n) rfl
  have hex : (s m).executed <+: (s m).pushed := by
    rw [(h.inv m).order, List.append_assoc]
    exact List.prefix_append _ _
  exact ⟨m, List.prefix_of_prefix_length_le (h.pushed_prefix hm) hex hle⟩

end Fair

/-- **No functor and no wakeup is lost.** In every state of every
interleaving what was pushed is what ran, what is left of the batch and what
waits, in this order; a loop thread asleep on an empty eventfd has nothing
waiting, or some thread is between its push and its wakeup write; and the
loop thread can always go on. In every fair run without a `quit`, what was
pushed is run. -/
theorem no_functor_lost :
    (∀ (as : List (LoopAct τ φ)) (l : EventLoop τ φ), Run.run step init as = some l →
      l.pushed = l.executed ++ l.batch ++ l.pendingFunctors ∧
      (l.pc = .polling → l.eventfd = 0 → l.pendingFunctors = [] ∨ ∃ t, l.thread t = .pushed) ∧
      (l.quit = false → ∃ ans l', l.step (.loop ans) = some l')) ∧
    ∀ (s : ℕ → EventLoop τ φ) (a : ℕ → LoopAct τ φ), FairRun s a → (∀ n, (s n).quit = false) →
      ∀ n, ∃ m, (s n).pushed <+: (s m).executed := by
  refine ⟨fun as l h => ?_, fun s a h hq n => h.executes hq n⟩
  have hi := run_inv h
  refine ⟨hi.order, fun hpc h0 => ?_, fun hq => ?_⟩
  · rcases hi.wake (by rw [hpc]; rfl) with he | he | he | he
    · exact .inl he
    · omega
    · have := hi.self he
      rw [hpc] at this
      cases this
    · exact .inr he
  · exact loop_enabled fun hst => by simp [hi.stopped hst] at hq

/-! ## A fair run

One other thread queues one functor while the loop thread sleeps; after it
the loop polls for ever. -/

def oneFunctorAct : ℕ → LoopAct Unit ℕ
  | 2 => .queueInLoop () 7
  | 3 => .wakeup ()
  | 4 => .loop (.poll [.wakeup])
  | 10 => .loop (.body [])
  | n => if 13 ≤ n ∧ n % 4 = 1 then .loop (.poll []) else .loop .go

def oneFunctorState : ℕ → EventLoop Unit ℕ
  | 0 => init
  | n + 1 => ((oneFunctorState n).step (oneFunctorAct n)).getD init

/-- The loop's position in each of the four steps of an idle turn. -/
def idlePc : ℕ → LoopPc ℕ
  | 1 => .polling
  | 2 => .callbacks [] []
  | 3 => .sizeTest
  | _ => .top

theorem oneFunctorAct_idle {n : ℕ} (h : 13 ≤ n) :
    oneFunctorAct n = if n % 4 = 1 then .loop (.poll []) else .loop .go := by
  unfold oneFunctorAct
  split
  case h_5 => simp [h]
  all_goals omega

def idleState (n : ℕ) : EventLoop Unit ℕ := { oneFunctorState 13 with pc := idlePc (n % 4) }

theorem idleState_step {n : ℕ} (h : 13 ≤ n) : (idleState n).step (oneFunctorAct n) = some (idleState (n + 1)) := by
  rw [oneFunctorAct_idle h, idleState, idleState]
  have hcases : n % 4 = 0 ∧ (n + 1) % 4 = 1 ∨ n % 4 = 1 ∧ (n + 1) % 4 = 2 ∨ n % 4 = 2 ∧ (n + 1) % 4 = 3 ∨
      n % 4 = 3 ∧ (n + 1) % 4 = 0 := by omega
  rcases hcases with ⟨h₁, h₂⟩ | ⟨h₁, h₂⟩ | ⟨h₁, h₂⟩ | ⟨h₁, h₂⟩ <;> rw [h₁, h₂] <;> rfl

theorem oneFunctorState_idle {n : ℕ} (h : 13 ≤ n) : oneFunctorState n = idleState n := by
  induction n, h using Nat.le_induction with
  | base => rfl
  | succ n hn ih => rw [oneFunctorState, ih, idleState_step hn, Option.getD_some]

theorem oneFunctor_trace : Run.Trace step oneFunctorState oneFunctorAct := by
  intro n
  by_cases h : 13 ≤ n
  · rw [oneFunctorState_idle h, oneFunctorState_idle (by omega), idleState_step h]
  · have hn : n < 13 := by omega
    interval_cases n <;> rfl

theorem oneFunctor_fair : FairRun oneFunctorState oneFunctorAct where
  start := rfl
  trace := oneFunctor_trace
  loop n _ := by
    refine ⟨n + 13, by omega, ?_⟩
    rw [oneFunctorAct_idle (by omega)]
    split <;> rfl
  wakeup n t ht := by
    have hsmall : ∀ n < 14, (oneFunctorState n).thread () = .pushed → n ≤ 3 := by decide
    by_cases h : 13 ≤ n
    · rw [oneFunctorState_idle h] at ht
      exact absurd (hsmall 13 (by decide) ht) (by decide)
    · exact ⟨3, hsmall n (by omega) ht, rfl⟩

theorem oneFunctor_quit (n : ℕ) : (oneFunctorState n).quit = false := by
  have hsmall : ∀ n < 13, (oneFunctorState n).quit = false := by decide
  by_cases h : 13 ≤ n
  · rw [oneFunctorState_idle h]
    rfl
  · exact hsmall n (by omega)

/-- The functor that waits after the third step is run. -/
theorem no_functor_lost_one : (oneFunctorState 3).pushed = [7] ∧
    ∃ m, (oneFunctorState 3).pushed <+: (oneFunctorState m).executed :=
  ⟨rfl, no_functor_lost.2 _ _ oneFunctor_fair oneFunctor_quit 3⟩

end EventLoop

end Learncc
