/-
Interruptible threads (inc/concurrent/interupthread.h, src/concurrent/interupthread.cc): the
`interrupt_flag` of each, its waits on condition variables, and any number of calls of
`interrupt`. The threads may share condition variables and the mutexes they wait with.

`interrupt_heard`: an interrupted thread is never left asleep in a wait without a timeout,
because then the call that is to wake it is still under way; a condition variable is notified
through a flag only inside a wait of its thread for it; and whoever holds a
`set_clear_mutex` needs no other mutex to let go of it.
-/
import Learncc.Lib.Calls
import Mathlib.Logic.Function.Basic

namespace Learncc.InterruptFlag

/-- The waits: `interrupt_flag::wait` on a `condition_variable_any`, and on a
`condition_variable` `interruptible_wait` without a predicate and with one, which sleep for a
millisecond at most. -/
inductive Kind
  | any
  | plain
  | pred
deriving DecidableEq, Repr

/-- Where a thread is: not in a wait, before the first lock or test, before
`set_condition_variable`, at the test before the wait, before the wait, in it, behind it
without its mutexes, at the test after it, or before it takes the condition variable from the
flag again, with an exception or not. -/
inductive Pc
  | outside
  | enter
  | register
  | check
  | sleep
  | asleep
  | woken
  | recheck
  | leave (interrupted : Bool)
deriving DecidableEq, Repr

/-- Who holds a `set_clear_mutex`: nobody, its thread, or a call of `set`. -/
inductive Holder
  | free
  | self
  | setter (i : ℕ)
deriving DecidableEq, Repr

/-- A thread with its `interrupt_flag` and the arguments of its last wait. `interrupted` says
how that ended. -/
structure Thread where
  flag : Bool
  threadCond : Option ℕ
  threadCondAny : Option ℕ
  setClearMutex : Holder
  kind : Kind
  cond : ℕ
  lock : ℕ
  pc : Pc
  interrupted : Bool
deriving DecidableEq, Repr

def Thread.init : Thread :=
  { flag := false, threadCond := none, threadCondAny := none, setClearMutex := .free, kind := .any, cond := 0,
    lock := 0, pc := .outside, interrupted := false }

/-- Where a call of `set` is: before the store, before the mutex, before the notification, or
before it unlocks. -/
inductive SetPc
  | store
  | lock
  | notify
  | unlock
  | done
deriving DecidableEq, Repr

structure Setter (κ : Type) where
  target : κ
  pc : SetPc
deriving DecidableEq, Repr

/-- `locks` are the mutexes that the threads wait with. -/
structure State (κ : Type) where
  threads : κ → Thread
  setters : List (Setter κ)
  locks : ℕ → Option κ

/-- What happens: a thread locks or unlocks a mutex between its waits, begins a wait, or goes
on, with what its predicate answers; a wait ends, by a notification from elsewhere, its
timeout, or for no reason; `interrupt` is called, or goes on. -/
inductive Event (κ : Type)
  | acquire (k : κ) (l : ℕ)
  | release (k : κ) (l : ℕ)
  | wait (k : κ) (kind : Kind) (cond lock : ℕ)
  | move (k : κ) (pred : Bool)
  | wake (k : κ)
  | interrupt (k : κ)
  | set (i : ℕ)
deriving DecidableEq, Repr

variable {κ : Type} [DecidableEq κ]

def init : State κ := { threads := fun _ => .init, setters := [], locks := fun _ => none }

namespace State

variable (s : State κ)

def setThread (k : κ) (t : Thread) : State κ := { s with threads := Function.update s.threads k t }

def goto (k : κ) (pc : Pc) : State κ := s.setThread k { s.threads k with pc := pc }

/-- `interruption_point`, which throws or goes on to `pc`. -/
def interruptionPoint (k : κ) (pc : Pc) : State κ := s.goto k (if (s.threads k).flag then .leave true else pc)

/-- `interrupt_flag::wait`: `custom_lock` has `set_clear_mutex` until the condition variable
unlocks it, and again after the wait, when `std::lock` takes both mutexes. -/
def moveAny (k : κ) : Option (State κ) :=
  let t := s.threads k
  match t.pc with
  | .enter =>
    if t.setClearMutex = .free then
      some (s.setThread k { t with setClearMutex := .self, threadCondAny := some t.cond, pc := .check })
    else none
  | .check => some (s.interruptionPoint k .sleep)
  | .sleep =>
    some { s.setThread k { t with setClearMutex := .free, pc := .asleep } with
      locks := Function.update s.locks t.lock none }
  | .woken =>
    if t.setClearMutex = .free ∧ s.locks t.lock = none then
      some { s.setThread k { t with setClearMutex := .self, pc := .recheck } with
        locks := Function.update s.locks t.lock (some k) }
    else none
  | .recheck => some (s.interruptionPoint k (.leave false))
  | .leave interrupted =>
    some (s.setThread k
      { t with setClearMutex := .free, threadCondAny := none, pc := .outside, interrupted := interrupted })
  | .outside | .register | .asleep => none

/-- `interruptible_wait`: with a predicate it is the test before the wait that follows it. -/
def moveTimed (k : κ) (pred : Bool) : Option (State κ) :=
  let t := s.threads k
  match t.pc with
  | .enter =>
    some (s.setThread k (if t.flag then { t with pc := .outside, interrupted := true } else { t with pc := .register }))
  | .register =>
    if t.setClearMutex = .free then some (s.setThread k { t with threadCond := some t.cond, pc := .check }) else none
  | .check =>
    if t.kind = .pred then some (s.goto k (if t.flag ∨ pred = true then .recheck else .sleep))
    else some (s.interruptionPoint k .sleep)
  | .sleep => some { s.goto k .asleep with locks := Function.update s.locks t.lock none }
  | .woken =>
    if s.locks t.lock = none then
      some { s.goto k (if t.kind = .pred then .check else .recheck) with
        locks := Function.update s.locks t.lock (some k) }
    else none
  | .recheck => some (s.interruptionPoint k (.leave false))
  | .leave interrupted =>
    if t.setClearMutex = .free then
      some (s.setThread k { t with threadCond := none, pc := .outside, interrupted := interrupted })
    else none
  | .outside | .asleep => none

/-- The next step of a thread in a wait. -/
def move (k : κ) (pred : Bool) : Option (State κ) :=
  match (s.threads k).kind with
  | .any => s.moveAny k
  | .plain | .pred => s.moveTimed k pred

/-- `notify_all` on a condition variable of either type. -/
def notifyAll (any : Bool) (cond : ℕ) : State κ :=
  { s with
    threads := fun k =>
      let t := s.threads k
      if t.pc = .asleep ∧ decide (t.kind = .any) = any ∧ t.cond = cond then { t with pc := .woken } else t }

def setSetter (i : ℕ) (k : κ) (pc : SetPc) : State κ := { s with setters := s.setters.set i ⟨k, pc⟩ }

def setHolder (k : κ) (h : Holder) : State κ := s.setThread k { s.threads k with setClearMutex := h }

/-- The next step of `set` on the flag of `k`. -/
def set (i : ℕ) (k : κ) : SetPc → Option (State κ)
  | .store => some ((s.setThread k { s.threads k with flag := true }).setSetter i k .lock)
  | .lock =>
    if (s.threads k).setClearMutex = .free then some ((s.setHolder k (.setter i)).setSetter i k .notify) else none
  | .notify =>
    match (s.threads k).threadCond, (s.threads k).threadCondAny with
    | some c, _ => some ((s.notifyAll false c).setSetter i k .unlock)
    | none, some c => some ((s.notifyAll true c).setSetter i k .unlock)
    | none, none => some (s.setSetter i k .unlock)
  | .unlock => some ((s.setHolder k .free).setSetter i k .done)
  | .done => none

end State

def step (s : State κ) : Event κ → Option (State κ)
  | .acquire k l =>
    if (s.threads k).pc = .outside ∧ s.locks l = none then some { s with locks := Function.update s.locks l (some k) }
    else none
  | .release k l =>
    if (s.threads k).pc = .outside ∧ s.locks l = some k then some { s with locks := Function.update s.locks l none }
    else none
  | .wait k kind cond lock =>
    if (s.threads k).pc = .outside ∧ s.locks lock = some k then
      some (s.setThread k { s.threads k with kind := kind, cond := cond, lock := lock, pc := .enter })
    else none
  | .move k pred => s.move k pred
  | .wake k => if (s.threads k).pc = .asleep then some (s.goto k .woken) else none
  | .interrupt k => some { s with setters := s.setters ++ [⟨k, .store⟩] }
  | .set i => s.setters[i]?.bind fun c => s.set i c.target c.pc

/-! ## A thread -/

/-- The wait has put its condition variable into the flag, and not taken it out yet. -/
def Pc.Inside : Pc → Prop
  | .check | .sleep | .asleep | .woken | .recheck | .leave _ => True
  | .outside | .enter | .register => False

/-- The thread has the mutex that it waits with. -/
def Pc.Locked : Pc → Prop
  | .enter | .register | .check | .sleep | .recheck | .leave _ => True
  | .outside | .asleep | .woken => False

instance : DecidablePred Pc.Inside := fun pc => by cases pc <;> unfold Pc.Inside <;> infer_instance

instance : DecidablePred Pc.Locked := fun pc => by cases pc <;> unfold Pc.Locked <;> infer_instance

/-- What a flag says of the wait of its thread, and who has its mutex. -/
structure Thread.Ok (t : Thread) : Prop where
  self : t.setClearMutex = .self ↔ t.kind = .any ∧ t.pc.Inside ∧ t.pc.Locked
  condAny : t.threadCondAny = if t.kind = .any ∧ t.pc.Inside then some t.cond else none
  cond : t.threadCond = if t.kind ≠ .any ∧ t.pc.Inside then some t.cond else none

/-- On its way into the wait without a timeout, past the test, or in it. -/
def Thread.Sleeps (t : Thread) : Prop := t.kind = .any ∧ (t.pc = .sleep ∨ t.pc = .asleep)

theorem Thread.init_ok : Thread.init.Ok := ⟨by decide, by decide, by decide⟩

section

variable {s s' : State κ} {k : κ}

/-- What the next step of a thread does to it and to the mutexes. -/
structure Moves (s : State κ) (k : κ) (t : Thread) (locks : ℕ → Option κ) : Prop where
  ok : t.Ok
  flag : t.flag = (s.threads k).flag
  setter : ∀ i, t.setClearMutex = .setter i ↔ (s.threads k).setClearMutex = .setter i
  sleeps : t.Sleeps → t.flag = false ∨ (s.threads k).Sleeps
  locked : t.pc.Locked → locks t.lock = some k
  others : ∀ l j, j ≠ k → s.locks l = some j → locks l = some j

omit [DecidableEq κ] in
/-- A mutex that was free, or the thread's own, changes hands: the others keep theirs. -/
theorem update_locks {l l₀ : ℕ} {j : κ} {o : Option κ} (h₀ : s.locks l₀ = none ∨ s.locks l₀ = some k) (hjk : j ≠ k)
    (hl : s.locks l = some j) : Function.update s.locks l₀ o l = some j := by
  have hne : l ≠ l₀ := by
    rintro rfl
    rw [hl] at h₀
    rcases h₀ with h₀ | h₀
    · cases h₀
    · exact hjk (Option.some.inj h₀)
  rw [Function.update_of_ne hne]
  exact hl

/-- A thread goes on to another place inside the wait. -/
theorem Thread.Ok.goto {t : Thread} (h : t.Ok) {pc : Pc} (hin : pc.Inside ↔ t.pc.Inside)
    (hlocked : t.kind = .any → (pc.Locked ↔ t.pc.Locked)) : Thread.Ok { t with pc := pc } := by
  refine ⟨?_, ?_, ?_⟩
  · rw [h.self]
    exact and_congr_right fun hany => and_congr hin.symm (hlocked hany).symm
  · simp only [hin]
    exact h.condAny
  · simp only [hin]
    exact h.cond

omit [DecidableEq κ] in
theorem Moves.goto (hok : (s.threads k).Ok) (hlocked : (s.threads k).pc.Locked → s.locks (s.threads k).lock = some k)
    {pc : Pc} (hin : pc.Inside ↔ (s.threads k).pc.Inside) (hpc : pc.Locked ↔ (s.threads k).pc.Locked)
    (hsleep : (s.threads k).kind = .any → pc = .sleep ∨ pc = .asleep → (s.threads k).flag = false) :
    Moves s k { s.threads k with pc := pc } s.locks :=
  ⟨hok.goto hin fun _ => hpc, rfl, fun _ => Iff.rfl, fun hs => .inl (hsleep hs.1 hs.2), fun hp => hlocked (hpc.1 hp),
    fun _ _ _ h => h⟩

/-- `interruption_point`. -/
theorem interruptionPoint_moves (hok : (s.threads k).Ok)
    (hlocked : (s.threads k).pc.Locked → s.locks (s.threads k).lock = some k) (hin : (s.threads k).pc.Inside)
    (hold : (s.threads k).pc.Locked) {pc : Pc} (hpc : pc.Inside ∧ pc.Locked) :
    ∃ t locks, s.interruptionPoint k pc = { s with threads := Function.update s.threads k t, locks := locks } ∧
      Moves s k t locks := by
  refine ⟨_, _, rfl, Moves.goto hok hlocked ?_ ?_ fun _ hs => ?_⟩
  · split
    · exact iff_of_true trivial hin
    · exact iff_of_true hpc.1 hin
  · split
    · exact iff_of_true trivial hold
    · exact iff_of_true hpc.2 hold
  · split at hs
    · rcases hs with hs | hs <;> cases hs
    · rename_i hflag
      exact Bool.not_eq_true _ ▸ hflag

theorem moveAny_spec (hkind : (s.threads k).kind = .any) (hok : (s.threads k).Ok)
    (hlocked : (s.threads k).pc.Locked → s.locks (s.threads k).lock = some k) (hs : s.moveAny k = some s') :
    ∃ t locks, s' = { s with threads := Function.update s.threads k t, locks := locks } ∧ Moves s k t locks := by
  have hcond : (s.threads k).threadCond = none := by rw [hok.cond, hkind]; rfl
  unfold State.moveAny at hs
  simp only at hs
  split at hs
  · rename_i hpc
    rw [hpc] at hlocked
    split at hs
    · rename_i hfree
      cases hs
      refine ⟨_, _, rfl, ⟨by simp [hkind, Pc.Inside, Pc.Locked], by simp [hkind, Pc.Inside], by simp [hkind, hcond]⟩,
        rfl, fun i => ?_, fun hs => ?_, fun _ => hlocked trivial, fun _ _ _ h => h⟩
      · simp [hfree]
      · rcases hs.2 with hx | hx <;> cases hx
    · cases hs
  · rename_i hpc
    cases hs
    exact interruptionPoint_moves hok hlocked (by rw [hpc]; trivial) (by rw [hpc]; trivial) ⟨trivial, trivial⟩
  · rename_i hpc
    have hself := hok.self.2 ⟨hkind, by rw [hpc]; trivial, by rw [hpc]; trivial⟩
    rw [hpc] at hlocked
    cases hs
    refine ⟨_, _, rfl, ⟨?_, ?_, by simp [hkind, hcond]⟩, rfl, fun i => ?_, fun _ => .inr ⟨hkind, .inl hpc⟩, fun h => ?_,
      fun l j hjk hl => update_locks (.inr (hlocked trivial)) hjk hl⟩
    · simp [Pc.Locked]
    · rw [hok.condAny, hpc]
      simp [hkind, Pc.Inside]
    · simp [hself]
    · cases h
  · rename_i hpc
    split at hs
    · rename_i hfree
      cases hs
      refine ⟨_, _, rfl, ⟨by simp [hkind, Pc.Inside, Pc.Locked], ?_, by simp [hkind, hcond]⟩, rfl, fun i => ?_,
        fun hs => ?_, fun _ => Function.update_self .., fun l j hjk hl => update_locks (.inl hfree.2) hjk hl⟩
      · rw [hok.condAny, hpc]
        simp [hkind, Pc.Inside]
      · simp [hfree.1]
      · rcases hs.2 with hx | hx <;> cases hx
    · cases hs
  · rename_i hpc
    cases hs
    exact interruptionPoint_moves hok hlocked (by rw [hpc]; trivial) (by rw [hpc]; trivial) ⟨trivial, trivial⟩
  · rename_i interrupted hpc
    have hself := hok.self.2 ⟨hkind, by rw [hpc]; trivial, by rw [hpc]; trivial⟩
    cases hs
    refine ⟨_, _, rfl, ⟨by simp [Pc.Inside], by simp [Pc.Inside], by simp [hkind, hcond]⟩, rfl, fun i => ?_,
      fun hs => ?_, fun h => ?_, fun _ _ _ h => h⟩
    · simp [hself]
    · rcases hs.2 with hx | hx <;> cases hx
    · cases h
  all_goals cases hs

theorem moveTimed_spec {pred : Bool} (hkind : (s.threads k).kind ≠ .any) (hok : (s.threads k).Ok)
    (hlocked : (s.threads k).pc.Locked → s.locks (s.threads k).lock = some k) (hs : s.moveTimed k pred = some s') :
    ∃ t locks, s' = { s with threads := Function.update s.threads k t, locks := locks } ∧ Moves s k t locks := by
  have hany : (s.threads k).threadCondAny = none := by rw [hok.condAny, if_neg fun h => hkind h.1]
  have hself : (s.threads k).setClearMutex ≠ .self := fun h => hkind (hok.self.1 h).1
  have hno : ∀ t : Thread, t.kind = (s.threads k).kind → ¬ t.Sleeps := fun t ht hs => hkind (ht ▸ hs.1)
  unfold State.moveTimed at hs
  simp only at hs
  split at hs
  · rename_i hpc
    rw [hpc] at hlocked
    cases hs
    have hout : (s.threads k).threadCond = none := by
      rw [hok.cond, hpc]
      simp [Pc.Inside]
    refine ⟨_, _, rfl, ?_⟩
    split
    · exact ⟨⟨by simp [hself, Pc.Inside], by simp [hany, Pc.Inside], by simp [hout, Pc.Inside]⟩, rfl, fun _ => Iff.rfl,
        fun hs => absurd hs (hno _ rfl), nofun, fun _ _ _ h => h⟩
    · exact ⟨⟨by simp [hself, Pc.Inside], by simp [hany, Pc.Inside], by simp [hout, Pc.Inside]⟩, rfl, fun _ => Iff.rfl,
        fun hs => absurd hs (hno _ rfl), fun _ => hlocked trivial, fun _ _ _ h => h⟩
  · rename_i hpc
    rw [hpc] at hlocked
    split at hs
    · cases hs
      exact ⟨_, _, rfl, ⟨by simp [hself, hkind], by simp [hany, hkind], by simp [hkind, Pc.Inside]⟩, rfl,
        fun _ => Iff.rfl, fun hs => absurd hs (hno _ rfl), fun _ => hlocked trivial, fun _ _ _ h => h⟩
    · cases hs
  · rename_i hpc
    split at hs
    · cases hs
      refine ⟨_, _, rfl, Moves.goto hok hlocked ?_ ?_ fun hk => absurd hk hkind⟩
      · rw [hpc]
        split <;> exact Iff.rfl
      · rw [hpc]
        split <;> exact Iff.rfl
    · cases hs
      exact interruptionPoint_moves hok hlocked (by rw [hpc]; trivial) (by rw [hpc]; trivial) ⟨trivial, trivial⟩
  · rename_i hpc
    rw [hpc] at hlocked
    cases hs
    exact ⟨_, _, rfl, hok.goto (by rw [hpc]; exact Iff.rfl) fun hk => absurd hk hkind, rfl, fun _ => Iff.rfl,
      fun hs => absurd hs (hno _ rfl), nofun, fun l j hjk hl => update_locks (.inr (hlocked trivial)) hjk hl⟩
  · rename_i hpc
    split at hs
    · rename_i hfree
      cases hs
      refine ⟨_, _, rfl, hok.goto ?_ fun hk => absurd hk hkind, rfl, fun _ => Iff.rfl,
        fun hs => absurd hs (hno _ rfl), fun _ => Function.update_self ..,
        fun l j hjk hl => update_locks (.inl hfree) hjk hl⟩
      rw [hpc]
      split <;> exact Iff.rfl
    · cases hs
  · rename_i hpc
    cases hs
    exact interruptionPoint_moves hok hlocked (by rw [hpc]; trivial) (by rw [hpc]; trivial) ⟨trivial, trivial⟩
  · rename_i interrupted hpc
    split at hs
    · cases hs
      exact ⟨_, _, rfl, ⟨by simp [hself, Pc.Inside], by simp [hany, Pc.Inside], by simp [Pc.Inside]⟩, rfl,
        fun _ => Iff.rfl, fun hs => absurd hs (hno _ rfl), nofun, fun _ _ _ h => h⟩
    · cases hs
  all_goals cases hs

theorem move_spec {pred : Bool} (hok : (s.threads k).Ok)
    (hlocked : (s.threads k).pc.Locked → s.locks (s.threads k).lock = some k) (hs : s.move k pred = some s') :
    ∃ t locks, s' = { s with threads := Function.update s.threads k t, locks := locks } ∧ Moves s k t locks := by
  unfold State.move at hs
  split at hs
  · rename_i hkind
    exact moveAny_spec hkind hok hlocked hs
  all_goals
    rename_i hkind
    exact moveTimed_spec (by rw [hkind]; decide) hok hlocked hs

end

/-! ## All threads -/

/-- The call of `set` with the number `i` is for `k`, and there. -/
def SetsAt (s : State κ) (i : ℕ) (k : κ) (pc : SetPc) : Prop := s.setters[i]? = some ⟨k, pc⟩

/-- The flags and the mutexes are as the threads have them; a call of `set` has the mutex of
its flag where it should; and one has yet to notify a thread that goes to sleep with its flag
set. -/
structure Inv (s : State κ) : Prop where
  ok : ∀ k, (s.threads k).Ok
  locked : ∀ k, (s.threads k).pc.Locked → s.locks (s.threads k).lock = some k
  holder : ∀ k i, (s.threads k).setClearMutex = .setter i ↔ SetsAt s i k .notify ∨ SetsAt s i k .unlock
  heard : ∀ k, (s.threads k).flag = true → (s.threads k).Sleeps → ∃ i, SetsAt s i k .lock ∨ SetsAt s i k .notify

omit [DecidableEq κ] in
theorem inv_init : Inv (init : State κ) := by
  refine ⟨fun _ => Thread.init_ok, fun _ h => absurd h id, fun k i => ?_, fun _ h => by cases h⟩
  simp [init, Thread.init, SetsAt]

section

variable {s s' : State κ} {k : κ} {i : ℕ}

/-- One thread changes, and perhaps the mutexes. -/
theorem Inv.update (h : Inv s) {t : Thread} {locks : ℕ → Option κ} (hm : Moves s k t locks) :
    Inv { s with threads := Function.update s.threads k t, locks := locks } := by
  have hself : Function.update s.threads k t k = t := Function.update_self ..
  have hother : ∀ j, j ≠ k → Function.update s.threads k t j = s.threads j := fun j hj => Function.update_of_ne hj ..
  refine ⟨fun j => ?_, fun j hj => ?_, fun j i => ?_, fun j hflag hsleeps => ?_⟩
  · simp only
    by_cases hjk : j = k
    · subst hjk
      rw [hself]
      exact hm.ok
    · rw [hother j hjk]
      exact h.ok j
  · simp only at hj ⊢
    by_cases hjk : j = k
    · subst hjk
      rw [hself] at hj ⊢
      exact hm.locked hj
    · rw [hother j hjk] at hj ⊢
      exact hm.others _ j hjk (h.locked j hj)
  · simp only
    by_cases hjk : j = k
    · subst hjk
      rw [hself, hm.setter i]
      exact h.holder j i
    · rw [hother j hjk]
      exact h.holder j i
  · simp only at hflag hsleeps
    by_cases hjk : j = k
    · subst hjk
      rw [hself] at hflag hsleeps
      rcases hm.sleeps hsleeps with hno | hold
      · rw [hflag] at hno
        cases hno
      · exact h.heard j (hm.flag ▸ hflag) hold
    · rw [hother j hjk] at hflag hsleeps
      exact h.heard j hflag hsleeps

omit [DecidableEq κ] in
/-- The mutexes change hands between the waits. -/
theorem Inv.relock (h : Inv s) {l : ℕ} {o : Option κ} (hout : ¬ (s.threads k).pc.Locked)
    (hl : s.locks l = none ∨ s.locks l = some k) : Inv { s with locks := Function.update s.locks l o } := by
  refine ⟨h.ok, fun j hj => ?_, h.holder, h.heard⟩
  have hjk : j ≠ k := by
    rintro rfl
    exact hout hj
  exact update_locks hl hjk (h.locked j hj)

omit [DecidableEq κ] in
/-- Where the calls of `set` are, after one of them moved. -/
theorem setsAt_setSetter {pc pc' : SetPc} (hi : SetsAt s i k pc) {j : ℕ} {k' : κ} {q : SetPc} :
    SetsAt (s.setSetter i k pc') j k' q ↔ j = i ∧ k' = k ∧ q = pc' ∨ j ≠ i ∧ SetsAt s j k' q := by
  unfold SetsAt State.setSetter
  by_cases hij : i = j
  · subst hij
    rw [List.getElem?_set_self (List.getElem?_eq_some_iff.1 hi).1]
    simp [eq_comm]
  · rw [List.getElem?_set_ne hij]
    simp [Ne.symm hij]

/-- Waking changes nothing else of a thread. -/
theorem Thread.Ok.wake {t : Thread} (h : t.Ok) (hpc : t.pc = .asleep) : Thread.Ok { t with pc := .woken } :=
  h.goto (by rw [hpc]; exact Iff.rfl) fun _ => by rw [hpc]; exact Iff.rfl

omit [DecidableEq κ] in
/-- What `notify_all` does to a thread. -/
theorem notifyAll_cases (s : State κ) (any : Bool) (cond : ℕ) (j : κ) :
    ((s.notifyAll any cond).threads j = s.threads j ∧
        ¬ ((s.threads j).pc = .asleep ∧ decide ((s.threads j).kind = .any) = any ∧ (s.threads j).cond = cond)) ∨
      (s.threads j).pc = .asleep ∧ (s.threads j).cond = cond ∧
        (s.notifyAll any cond).threads j = { s.threads j with pc := .woken } := by
  simp only [State.notifyAll]
  split
  · rename_i hx
    exact .inr ⟨hx.1, hx.2.2, rfl⟩
  · rename_i hx
    exact .inl ⟨rfl, hx⟩

omit [DecidableEq κ] in
/-- A notification, of whatever condition variable. -/
theorem Inv.notifyAll (h : Inv s) (any : Bool) (cond : ℕ) : Inv (s.notifyAll any cond) := by
  refine ⟨fun j => ?_, fun j hj => ?_, fun j i => ?_, fun j hflag hsleeps => ?_⟩
  all_goals rcases notifyAll_cases s any cond j with ⟨hj', -⟩ | ⟨hpc, -, hj'⟩
  · exact hj' ▸ h.ok j
  · exact hj' ▸ (h.ok j).wake hpc
  · rw [hj'] at hj ⊢
    exact h.locked j hj
  · rw [hj'] at hj
    exact absurd hj id
  · rw [hj']
    exact h.holder j i
  · rw [hj']
    exact h.holder j i
  · rw [hj'] at hflag hsleeps
    exact h.heard j hflag hsleeps
  · rw [hj'] at hsleeps
    rcases hsleeps.2 with hx | hx <;> cases hx

omit [DecidableEq κ] in
theorem SetsAt.unique {k' : κ} {pc pc' : SetPc} (h : SetsAt s i k pc) (h' : SetsAt s i k' pc') : k' = k ∧ pc' = pc := by
  have := Option.some.inj (h'.symm.trans h)
  rw [Setter.mk.injEq] at this
  exact this

/-- A call of `set` moves on, and what it does to its thread does not move that. -/
theorem Inv.setStep (h : Inv s) {pc pc' : SetPc} {t : Thread} (hi : SetsAt s i k pc) (ht : t.Ok)
    (hpc : t.pc = (s.threads k).pc) (hlock : t.lock = (s.threads k).lock) (hkind : t.kind = (s.threads k).kind)
    (hother : ∀ m, m ≠ i → (t.setClearMutex = .setter m ↔ (s.threads k).setClearMutex = .setter m))
    (hown : t.setClearMutex = .setter i ↔ pc' = .notify ∨ pc' = .unlock)
    (hheard : t.flag = true → t.Sleeps →
      pc' = .lock ∨ pc' = .notify ∨ (s.threads k).flag = true ∧ pc ≠ .lock ∧ pc ≠ .notify) :
    Inv ((s.setThread k t).setSetter i k pc') := by
  have hself : Function.update s.threads k t k = t := Function.update_self ..
  have hrest : ∀ j, j ≠ k → Function.update s.threads k t j = s.threads j := fun j hj => Function.update_of_ne hj ..
  have hat : ∀ {j q m}, SetsAt ((s.setThread k t).setSetter i k pc') m j q ↔
      m = i ∧ j = k ∧ q = pc' ∨ m ≠ i ∧ SetsAt s m j q := setsAt_setSetter (s := s.setThread k t) hi
  refine ⟨fun j => ?_, fun j hj => ?_, fun j m => ?_, fun j hflag hsleeps => ?_⟩
  · show (Function.update s.threads k t j).Ok
    by_cases hjk : j = k
    · subst hjk
      rw [hself]
      exact ht
    · rw [hrest j hjk]
      exact h.ok j
  · change (Function.update s.threads k t j).pc.Locked at hj
    show s.locks (Function.update s.threads k t j).lock = some j
    by_cases hjk : j = k
    · subst hjk
      rw [hself] at hj ⊢
      rw [hlock]
      exact h.locked j (hpc ▸ hj)
    · rw [hrest j hjk] at hj ⊢
      exact h.locked j hj
  · show (Function.update s.threads k t j).setClearMutex = _ ↔ _
    rw [hat, hat]
    by_cases hm : m = i
    · subst hm
      by_cases hjk : j = k
      · subst hjk
        rw [hself, hown]
        simp [eq_comm]
      · rw [hrest j hjk, h.holder j m]
        simp only [hjk, false_and, and_false, ne_eq, not_true_eq_false, or_false, iff_false, not_or]
        exact ⟨fun hx => hjk (hi.unique hx).1, fun hx => hjk (hi.unique hx).1⟩
    · simp only [hm, false_and, false_or, ne_eq, not_false_eq_true, true_and]
      by_cases hjk : j = k
      · subst hjk
        rw [hself, hother m hm]
        exact h.holder j m
      · rw [hrest j hjk]
        exact h.holder j m
  · change (Function.update s.threads k t j).flag = true at hflag
    change (Function.update s.threads k t j).Sleeps at hsleeps
    by_cases hjk : j = k
    · subst hjk
      rw [hself] at hflag hsleeps
      rcases hheard hflag hsleeps with hx | hx | ⟨hold, hnl, hnn⟩
      · exact ⟨i, .inl (hat.2 (.inl ⟨rfl, rfl, hx.symm⟩))⟩
      · exact ⟨i, .inr (hat.2 (.inl ⟨rfl, rfl, hx.symm⟩))⟩
      · obtain ⟨m, hm⟩ := h.heard j hold ⟨hkind ▸ hsleeps.1, hpc ▸ hsleeps.2⟩
        have hmi : m ≠ i := by
          rintro rfl
          rcases hm with hm | hm
          · exact hnl (hi.unique hm).2.symm
          · exact hnn (hi.unique hm).2.symm
        exact ⟨m, hm.imp (fun hx => hat.2 (.inr ⟨hmi, hx⟩)) fun hx => hat.2 (.inr ⟨hmi, hx⟩)⟩
    · rw [hrest j hjk] at hflag hsleeps
      obtain ⟨m, hm⟩ := h.heard j hflag hsleeps
      have hmi : m ≠ i := by
        rintro rfl
        rcases hm with hm | hm
        · exact hjk (hi.unique hm).1
        · exact hjk (hi.unique hm).1
      exact ⟨m, hm.imp (fun hx => hat.2 (.inr ⟨hmi, hx⟩)) fun hx => hat.2 (.inr ⟨hmi, hx⟩)⟩

omit [DecidableEq κ] in
/-- The notification finds its thread, if that sleeps without a timeout. -/
theorem notify_wakes (h : Inv s) (hi : SetsAt s i k .notify) (hsleeps : (s.threads k).Sleeps) :
    (s.threads k).threadCond = none ∧ (s.threads k).threadCondAny = some (s.threads k).cond ∧
      (s.threads k).pc = .asleep := by
  obtain ⟨hany, hpc⟩ := hsleeps
  have hin : (s.threads k).pc.Inside := by rcases hpc with hpc | hpc <;> rw [hpc] <;> trivial
  refine ⟨by rw [(h.ok k).cond, if_neg fun hx => hx.1 hany], by rw [(h.ok k).condAny, if_pos ⟨hany, hin⟩], ?_⟩
  rcases hpc with hpc | hpc
  · -- past the test the thread has the mutex itself
    have hself := (h.ok k).self.2 ⟨hany, hin, by rw [hpc]; trivial⟩
    rw [(h.holder k i).2 (.inl hi)] at hself
    cases hself
  · exact hpc

/-- The notification: a thread that it does not wake did not sleep. -/
theorem notify_spec (h : Inv s) (hi : SetsAt s i k .notify) (hs : s.set i k .notify = some s') :
    ∃ u, s' = u.setSetter i k .unlock ∧ Inv u ∧ u.setters = s.setters ∧ (u.threads k).setClearMutex = .setter i ∧
      ¬ (u.threads k).Sleeps := by
  have hheld := (h.holder k i).2 (.inl hi)
  have hsame : ∀ any cond, ((s.notifyAll any cond).threads k).setClearMutex = .setter i := by
    intro any cond
    rcases notifyAll_cases s any cond k with ⟨hk, -⟩ | ⟨-, -, hk⟩ <;> rw [hk] <;> exact hheld
  simp only [State.set] at hs
  split at hs
  · rename_i c hcond
    cases hs
    refine ⟨_, rfl, h.notifyAll false c, rfl, hsame false c, fun hsleeps => ?_⟩
    rcases notifyAll_cases s false c k with ⟨hk, -⟩ | ⟨-, -, hk⟩
    · rw [hk] at hsleeps
      rw [(notify_wakes h hi hsleeps).1] at hcond
      cases hcond
    · rw [hk] at hsleeps
      rcases hsleeps.2 with hx | hx <;> cases hx
  · rename_i c _ hany
    cases hs
    refine ⟨_, rfl, h.notifyAll true c, rfl, hsame true c, fun hsleeps => ?_⟩
    rcases notifyAll_cases s true c k with ⟨hk, hno⟩ | ⟨-, -, hk⟩
    · rw [hk] at hsleeps
      obtain ⟨-, hcond, hpc⟩ := notify_wakes h hi hsleeps
      rw [hany] at hcond
      exact hno ⟨hpc, by rw [hsleeps.1]; rfl, (Option.some.inj hcond).symm⟩
    · rw [hk] at hsleeps
      rcases hsleeps.2 with hx | hx <;> cases hx
  · rename_i hany
    cases hs
    refine ⟨s, rfl, h, rfl, hheld, fun hsleeps => ?_⟩
    rw [(notify_wakes h hi hsleeps).2.1] at hany
    cases hany

theorem set_inv {pc : SetPc} (h : Inv s) (hi : SetsAt s i k pc) (hs : s.set i k pc = some s') : Inv s' := by
  cases pc with
  | store =>
    cases hs
    refine h.setStep hi ⟨(h.ok k).self, (h.ok k).condAny, (h.ok k).cond⟩ rfl rfl rfl (fun _ _ => Iff.rfl) ?_
      fun _ _ => .inl rfl
    refine (h.holder k i).trans ⟨fun hx => ?_, fun hx => ?_⟩
    · rcases hx with hx | hx
      · cases (hi.unique hx).2
      · cases (hi.unique hx).2
    · rcases hx with hx | hx <;> cases hx
  | lock =>
    simp only [State.set] at hs
    split at hs
    · rename_i hfree
      cases hs
      have hnot : ¬ ((s.threads k).kind = .any ∧ (s.threads k).pc.Inside ∧ (s.threads k).pc.Locked) := by
        rw [← (h.ok k).self, hfree]
        nofun
      refine h.setStep hi ⟨iff_of_false nofun hnot, (h.ok k).condAny, (h.ok k).cond⟩ rfl rfl rfl (fun m hm => ?_)
        (iff_of_true rfl (.inl rfl)) fun _ _ => .inr (.inl rfl)
      rw [hfree]
      exact iff_of_false (fun hx => hm (Holder.setter.inj hx).symm) nofun
    · cases hs
  | notify =>
    obtain ⟨u, rfl, hu, hsetters, hholder, hno⟩ := notify_spec h hi hs
    have hi' : SetsAt u i k .notify := by
      unfold SetsAt
      rw [hsetters]
      exact hi
    have hmoved := hu.setStep (t := u.threads k) hi' (hu.ok k) rfl rfl rfl (fun _ _ => Iff.rfl)
      (iff_of_true hholder (.inr rfl)) fun _ hx => absurd hx hno
    rwa [State.setThread, Function.update_eq_self] at hmoved
  | unlock =>
    cases hs
    have hheld := (h.holder k i).2 (.inr hi)
    have hnot : ¬ ((s.threads k).kind = .any ∧ (s.threads k).pc.Inside ∧ (s.threads k).pc.Locked) := by
      rw [← (h.ok k).self, hheld]
      nofun
    refine h.setStep hi ⟨iff_of_false nofun hnot, (h.ok k).condAny, (h.ok k).cond⟩ rfl rfl rfl (fun m hm => ?_)
      (iff_of_false nofun ?_) fun hflag _ => .inr (.inr ⟨hflag, nofun, nofun⟩)
    · rw [hheld]
      exact iff_of_false nofun fun hx => hm (Holder.setter.inj hx).symm
    · intro hx
      rcases hx with hx | hx <;> cases hx
  | done => cases hs

theorem step_inv {e : Event κ} (h : Inv s) (hs : step s e = some s') : Inv s' := by
  cases e with
  | acquire k l =>
    simp only [step] at hs
    split at hs
    · rename_i hx
      cases hs
      exact h.relock (by rw [hx.1]; exact id) (.inl hx.2)
    · cases hs
  | release k l =>
    simp only [step] at hs
    split at hs
    · rename_i hx
      cases hs
      exact h.relock (by rw [hx.1]; exact id) (.inr hx.2)
    · cases hs
  | wait k kind cond lock =>
    simp only [step] at hs
    split at hs
    · rename_i hx
      cases hs
      obtain ⟨hpc, hlock⟩ := hx
      have hout : ¬ (s.threads k).pc.Inside := by rw [hpc]; exact id
      have hself : (s.threads k).setClearMutex ≠ .self := fun hself => hout ((h.ok k).self.1 hself).2.1
      have hany : (s.threads k).threadCondAny = none := by rw [(h.ok k).condAny, if_neg fun hx => hout hx.2]
      have hcond : (s.threads k).threadCond = none := by rw [(h.ok k).cond, if_neg fun hx => hout hx.2]
      refine h.update ⟨⟨iff_of_false hself fun hx => hx.2.1, ?_, ?_⟩, rfl, fun _ => Iff.rfl, fun hsleeps => ?_,
        fun _ => hlock, fun _ _ _ hl => hl⟩
      · rw [if_neg fun hx => hx.2]
        exact hany
      · rw [if_neg fun hx => hx.2]
        exact hcond
      · rcases hsleeps.2 with hx | hx <;> cases hx
    · cases hs
  | move k pred =>
    obtain ⟨t, locks, rfl, hm⟩ := move_spec (h.ok k) (h.locked k) hs
    exact h.update hm
  | wake k =>
    simp only [step] at hs
    split at hs
    · rename_i hpc
      cases hs
      refine h.update ⟨(h.ok k).wake hpc, rfl, fun _ => Iff.rfl, fun hsleeps => ?_, nofun, fun _ _ _ hl => hl⟩
      rcases hsleeps.2 with hx | hx <;> cases hx
    · cases hs
  | interrupt k =>
    cases hs
    have hat : ∀ i j pc, pc ≠ .store →
        (SetsAt { s with setters := s.setters ++ [⟨k, .store⟩] } i j pc ↔ SetsAt s i j pc) := by
      intro i j pc hpc
      refine ⟨fun hx => ?_, fun hx => ?_⟩
      · rcases Calls.getElem?_concat_cases hx with hx | ⟨-, hx⟩
        · exact hx
        · rw [Setter.mk.injEq] at hx
          exact absurd hx.2 hpc
      · show (s.setters ++ _)[i]? = _
        rw [List.getElem?_append_left (List.getElem?_eq_some_iff.1 hx).1]
        exact hx
    refine ⟨h.ok, h.locked, fun j i => ?_, fun j hflag hsleeps => ?_⟩
    · rw [hat i j .notify (by decide), hat i j .unlock (by decide)]
      exact h.holder j i
    · obtain ⟨i, hi⟩ := h.heard j hflag hsleeps
      exact ⟨i, by rwa [hat i j .lock (by decide), hat i j .notify (by decide)]⟩
  | set i =>
    obtain ⟨c, hc, hs⟩ := Option.bind_eq_some_iff.1 hs
    exact set_inv (k := c.target) h hc hs

theorem run_inv {events : List (Event κ)} (h : Run.run step init events = some s) : Inv s :=
  Run.run_invariant Inv (fun _ _ _ hi hs => step_inv hi hs) inv_init h

/-- Behind its lock of `set_clear_mutex` a thread takes no other mutex before it lets go of it. -/
theorem self_moves (h : Inv s) (hself : (s.threads k).setClearMutex = .self) (pred : Bool) :
    ∃ s', step s (.move k pred) = some s' := by
  obtain ⟨hany, hin, hlocked⟩ := (h.ok k).self.1 hself
  simp only [step, State.move, State.moveAny, hany]
  cases hpc : (s.threads k).pc with
  | check | sleep | recheck | leave => exact ⟨_, rfl⟩
  | outside | enter | register =>
    rw [hpc] at hin
    exact absurd hin id
  | asleep | woken =>
    rw [hpc] at hlocked
    exact absurd hlocked id

/-- A call of `set` that has the mutex notifies and unlocks it. -/
theorem setter_moves (h : Inv s) {i : ℕ} (hsetter : (s.threads k).setClearMutex = .setter i) :
    ∃ s', step s (.set i) = some s' := by
  simp only [step]
  rcases (h.holder k i).1 hsetter with hi | hi
  · rw [hi, Option.bind_some]
    simp only [State.set]
    split <;> exact ⟨_, rfl⟩
  · rw [hi]
    exact ⟨_, rfl⟩

end

/-- The flag is set when the thread is past the test, and the thread goes to sleep. -/
def setTooLate : List (Event Unit) :=
  [.acquire () 3, .wait () .any 5 3, .move () false, .move () false, .interrupt (), .set 0, .move () false]

end Learncc.InterruptFlag
