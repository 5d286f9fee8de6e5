/-
`threadsafe_queue` and `threadsafe_queue_ptr` (inc/public/ts_queue.h), any number of calls at
a time. Each has one mutex, which `push` holds over its `notify_one` as well, so a step is
what a call does from one lock to where it is released, at its end or in the wait.

`stalls_iff`: no value is lost, doubled or out of order, whatever throws; and values can be
left lying, with every consumer asleep, exactly in the runs in which a consumer that was
woken throws while those still on their way are too few. The comment in
`wait_and_pop` fears that; the queue of pointers is there to avoid it.
-/
import Learncc.Lib.Run
import Learncc.Lib.Waiters

namespace Learncc.WaitingQueue

inductive Class
  | threadsafeQueue
  | threadsafeQueuePtr
deriving DecidableEq, Repr

/-- The calls; `waitAndPop` and `tryPop` are given a reference, the others answer a
`shared_ptr`. -/
inductive Op (α : Type)
  | push (value : α)
  | waitAndPop
  | waitAndPopPtr
  | tryPop
  | tryPopPtr
deriving DecidableEq, Repr

/-- Whether a value is copied, moved or made there, or only a pointer. -/
def Class.canThrow {α : Type} : Class → Op α → Bool
  | .threadsafeQueue, _ => true
  | .threadsafeQueuePtr, .push _ | .threadsafeQueuePtr, .waitAndPop | .threadsafeQueuePtr, .tryPop => true
  | .threadsafeQueuePtr, .waitAndPopPtr | .threadsafeQueuePtr, .tryPopPtr => false

/-- How a call ends: `empty` is false or a null pointer. -/
inductive Answer (α : Type)
  | done
  | item (value : α)
  | empty
  | threw
deriving DecidableEq, Repr

inductive Pc (α : Type)
  | start
  | asleep
  | woken
  | returned (answer : Answer α)
deriving DecidableEq, Repr

structure Call (α : Type) where
  op : Op α
  pc : Pc α
deriving DecidableEq, Repr

/-- The queue and the calls, and what was ever put in and taken out, which nothing reads. -/
structure State (α : Type) where
  data : List α
  calls : List (Call α)
  pushed : List α
  taken : List α

variable {α : Type}

def init : State α := { data := [], calls := [], pushed := [], taken := [] }

def Call.mode (c : Call α) : Waiters.Mode :=
  match c.pc with
  | .asleep => .asleep
  | .woken => .awake
  | .start | .returned _ => .elsewhere

def Call.wake (c : Call α) : Call α := { c with pc := .woken }

/-- A new call, the next step of one, with whether it throws and whom it wakes, or the end of
a wait for no reason. -/
inductive Event (α : Type)
  | call (op : Op α)
  | move (i : ℕ) (throws : Bool) (wakes : Option ℕ)
  | spurious (i : ℕ)
deriving DecidableEq, Repr

def State.setPc (s : State α) (i : ℕ) (op : Op α) (pc : Pc α) : State α :=
  { s with calls := s.calls.set i { op := op, pc := pc } }

@[simp] theorem setPc_data (s : State α) (i : ℕ) (op : Op α) (pc : Pc α) : (s.setPc i op pc).data = s.data := rfl

@[simp] theorem setPc_calls (s : State α) (i : ℕ) (op : Op α) (pc : Pc α) :
    (s.setPc i op pc).calls = s.calls.set i { op := op, pc := pc } := rfl

/-- Takes the front out, unless that throws. `found` is where the call goes when there is none. -/
def State.pop (s : State α) (i : ℕ) (op : Op α) (throws : Bool) (found : Pc α) : State α :=
  match s.data with
  | [] => s.setPc i op found
  | value :: rest =>
    if throws then s.setPc i op (.returned .threw)
    else { s.setPc i op (.returned (.item value)) with data := rest, taken := s.taken ++ [value] }

/-- What a call does under the mutex. -/
def State.exec (s : State α) (i : ℕ) (throws : Bool) (wakes : Option ℕ) : Op α → Option (State α)
  | .push value =>
    if throws then some (s.setPc i (.push value) (.returned .threw))
    else (Waiters.notifyOne Call.mode Call.wake (s.calls.set i ⟨.push value, .returned .done⟩) wakes).map fun calls =>
      { s with data := s.data ++ [value], calls := calls, pushed := s.pushed ++ [value] }
  | .waitAndPop => some (s.pop i .waitAndPop throws .asleep)
  | .waitAndPopPtr => some (s.pop i .waitAndPopPtr throws .asleep)
  | .tryPop => some (s.pop i .tryPop throws (.returned .empty))
  | .tryPopPtr => some (s.pop i .tryPopPtr throws (.returned .empty))

def step (c : Class) (s : State α) : Event α → Option (State α)
  | .call op => some { s with calls := s.calls ++ [⟨op, .start⟩] }
  | .move i throws wakes =>
    match s.calls[i]? with
    | none => none
    | some call =>
      if throws = true ∧ c.canThrow call.op = false then none
      else match call.pc with
        | .start | .woken => s.exec i throws wakes call.op
        | .asleep | .returned _ => none
  | .spurious i =>
    match s.calls[i]? with
    | some ⟨op, .asleep⟩ => some (s.setPc i op .woken)
    | _ => none

/-! ## What a step can do -/

/-- The calls that may sleep. -/
def Op.waits : Op α → Prop
  | .waitAndPop | .waitAndPopPtr => True
  | .push _ | .tryPop | .tryPopPtr => False

/-- A call that is or was in the wait is one that may. -/
def WellFormed (s : State α) : Prop := ∀ call ∈ s.calls, call.pc = .asleep ∨ call.pc = .woken → call.op.waits

/-- Under the mutex is a call that just came or was woken. -/
def Call.Runs (call : Call α) : Prop := call.pc = .start ∨ call.pc = .woken

/-- What a step does with the values and the calls. -/
inductive Steps (c : Class) (s : State α) : Event α → State α → Prop
  | call (op : Op α) : Steps c s (.call op) { s with calls := s.calls ++ [⟨op, .start⟩] }
  | push {i : ℕ} {value : α} {pc : Pc α} {calls : List (Call α)} {wakes : Option ℕ}
      (hi : s.calls[i]? = some ⟨.push value, pc⟩) (hrun : (⟨.push value, pc⟩ : Call α).Runs)
      (hn : Waiters.notifyOne Call.mode Call.wake (s.calls.set i ⟨.push value, .returned .done⟩) wakes = some calls) :
      Steps c s (.move i false wakes)
        { s with data := s.data ++ [value], calls := calls, pushed := s.pushed ++ [value] }
  | pushThrows {i : ℕ} {value : α} {pc : Pc α} {wakes : Option ℕ} (hi : s.calls[i]? = some ⟨.push value, pc⟩)
      (hrun : (⟨.push value, pc⟩ : Call α).Runs) :
      Steps c s (.move i true wakes) (s.setPc i (.push value) (.returned .threw))
  | sleep {i : ℕ} {call : Call α} {throws : Bool} {wakes : Option ℕ} (hi : s.calls[i]? = some call) (hrun : call.Runs)
      (hop : call.op.waits) (hdata : s.data = []) : Steps c s (.move i throws wakes) (s.setPc i call.op .asleep)
  | empty {i : ℕ} {call : Call α} {throws : Bool} {wakes : Option ℕ} (hi : s.calls[i]? = some call) (hrun : call.Runs)
      (hop : ¬ call.op.waits) (hdata : s.data = []) :
      Steps c s (.move i throws wakes) (s.setPc i call.op (.returned .empty))
  | take {i : ℕ} {call : Call α} {value : α} {rest : List α} {wakes : Option ℕ} (hi : s.calls[i]? = some call)
      (hrun : call.Runs) (hdata : s.data = value :: rest) :
      Steps c s (.move i false wakes)
        { s.setPc i call.op (.returned (.item value)) with data := rest, taken := s.taken ++ [value] }
  | throws {i : ℕ} {call : Call α} {wakes : Option ℕ} (hi : s.calls[i]? = some call) (hrun : call.Runs)
      (hcan : c.canThrow call.op = true) (hdata : s.data ≠ []) :
      Steps c s (.move i true wakes) (s.setPc i call.op (.returned .threw))
  | spurious {i : ℕ} {op : Op α} (hi : s.calls[i]? = some ⟨op, .asleep⟩) :
      Steps c s (.spurious i) (s.setPc i op .woken)

section

variable {c : Class} {s t : State α} {e : Event α} {i : ℕ} {wakes : Option ℕ} {throws : Bool}

theorem pop_steps {call : Call α} {found : Pc α} (hi : s.calls[i]? = some call) (hrun : call.Runs)
    (hcan : throws = true → c.canThrow call.op = true)
    (hfound : call.op.waits ∧ found = .asleep ∨ ¬ call.op.waits ∧ found = .returned .empty) :
    Steps c s (.move i throws wakes) (s.pop i call.op throws found) := by
  unfold State.pop
  split
  · rename_i hdata
    rcases hfound with ⟨hop, rfl⟩ | ⟨hop, rfl⟩
    · exact .sleep hi hrun hop hdata
    · exact .empty hi hrun hop hdata
  · rename_i value rest hdata
    cases throws with
    | true => exact .throws hi hrun (hcan rfl) (by rw [hdata]; simp)
    | false => exact .take hi hrun hdata

theorem exec_steps {op : Op α} {pc : Pc α} (hi : s.calls[i]? = some ⟨op, pc⟩) (hrun : (⟨op, pc⟩ : Call α).Runs)
    (hcan : throws = true → c.canThrow op = true) (hs : s.exec i throws wakes op = some t) :
    Steps c s (.move i throws wakes) t := by
  cases op with
  | push value =>
    simp only [State.exec] at hs
    split at hs
    · rename_i hthrows
      subst hthrows
      cases hs
      exact .pushThrows hi hrun
    · rename_i hthrows
      rw [Bool.not_eq_true] at hthrows
      subst hthrows
      obtain ⟨calls, hn, rfl⟩ := Option.map_eq_some_iff.1 hs
      exact .push hi hrun hn
  | waitAndPop | waitAndPopPtr =>
    cases hs
    exact pop_steps hi hrun hcan (.inl ⟨trivial, rfl⟩)
  | tryPop | tryPopPtr =>
    cases hs
    exact pop_steps hi hrun hcan (.inr ⟨id, rfl⟩)

theorem step_cases (hs : step c s e = some t) : Steps c s e t := by
  cases e with
  | call op =>
    cases hs
    exact .call op
  | move i throws wakes =>
    simp only [step] at hs
    split at hs
    · cases hs
    rename_i call hi
    split at hs
    · cases hs
    rename_i hcan
    have hcan' : throws = true → c.canThrow call.op = true := by
      intro hthrows
      rw [not_and, Bool.not_eq_false] at hcan
      exact hcan hthrows
    split at hs
    · rename_i hpc
      exact exec_steps hi (.inl hpc) hcan' hs
    · rename_i hpc
      exact exec_steps hi (.inr hpc) hcan' hs
    · cases hs
    · cases hs
  | spurious i =>
    simp only [step] at hs
    split at hs
    · rename_i op hi
      cases hs
      exact .spurious hi
    · cases hs

/-! ## The values -/

/-- What was put in has been taken out in that order, or is there. -/
theorem step_values (h : s.pushed = s.taken ++ s.data) (hs : step c s e = some t) : t.pushed = t.taken ++ t.data := by
  cases step_cases hs with
  | call | pushThrows | sleep | empty | throws | spurious => exact h
  | push _ _ _ =>
    show s.pushed ++ _ = s.taken ++ (s.data ++ _)
    rw [h, List.append_assoc]
  | take _ _ hdata =>
    show s.pushed = s.taken ++ _ ++ _
    rw [h, hdata, List.append_assoc, List.singleton_append]

theorem run_values {events : List (Event α)} (h : Run.run (step c) init events = some s) :
    s.pushed = s.taken ++ s.data :=
  Run.run_invariant (fun s => s.pushed = s.taken ++ s.data) (fun _ _ _ hv hs => step_values hv hs) rfl h

/-! ## Waiting -/

theorem mode_wake (call : Call α) : call.wake.mode = .awake := rfl

theorem WellFormed.set {op : Op α} {pc : Pc α} (h : WellFormed s) (hpc : pc = .asleep ∨ pc = .woken → op.waits) :
    ∀ d ∈ s.calls.set i ⟨op, pc⟩, d.pc = .asleep ∨ d.pc = .woken → d.op.waits := by
  intro d hd
  rcases List.mem_or_eq_of_mem_set hd with hd | rfl
  · exact h d hd
  · exact hpc

theorem step_wellFormed (h : WellFormed s) (hs : step c s e = some t) : WellFormed t := by
  cases step_cases hs with
  | call op =>
    intro d hd
    rcases List.mem_append.1 hd with hd | hd
    · exact h d hd
    · rw [List.mem_singleton.1 hd]
      intro hpc
      rcases hpc with hpc | hpc <;> cases hpc
  | @push i value pc calls wakes hi _ hn =>
    have hset : ∀ d ∈ s.calls.set i ⟨.push value, .returned .done⟩, d.pc = .asleep ∨ d.pc = .woken → d.op.waits :=
      h.set (by simp)
    rcases Waiters.notifyOne_cases hn with ⟨-, rfl⟩ | ⟨j, d, hj, hd, rfl⟩
    · exact hset
    · intro d' hd'
      rcases List.mem_or_eq_of_mem_set hd' with hd' | rfl
      · exact hset d' hd'
      · intro _
        refine hset d (List.mem_of_getElem? hj) (.inl ?_)
        obtain ⟨op, pc⟩ := d
        cases pc with
        | asleep => rfl
        | start | woken | returned => cases hd
  | pushThrows | empty | take | throws => exact h.set (by simp)
  | sleep hi _ hop => exact h.set fun _ => hop
  | spurious hi => exact h.set fun _ => h _ (List.mem_of_getElem? hi) (.inl rfl)

/-- The consumers that were woken are enough for the values that are there, or none sleeps. -/
def Served (s : State α) : Prop := Waiters.Enough Call.mode s.calls s.data.length 0

/-- There is a value, somebody waits for one, and nobody who was woken is still to come; a call
that has not taken the mutex yet may be. -/
def Stalled (s : State α) : Prop := Waiters.Stalled Call.mode s.calls s.data.length 0

/-- A consumer that was woken does not throw over a value, unless the others that were woken
are enough. -/
def Timely (s : State α) : Event α → Prop
  | .move i true _ => ∀ op, s.calls[i]? = some ⟨op, .woken⟩ → s.data ≠ [] → Waiters.Sleeps Call.mode s.calls →
    s.data.length < Waiters.awake Call.mode s.calls
  | .move _ false _ | .call _ | .spurious _ => True

/-- A call that was not woken moves on. -/
theorem Served.setPc {i : ℕ} {call : Call α} {op : Op α} {pc : Pc α} (h : Served s) (hi : s.calls[i]? = some call)
    (hcall : call.pc ≠ .woken) (hpc : pc ≠ .asleep) : Served (s.setPc i op pc) := by
  have hold : call.mode ≠ .awake := by
    unfold Call.mode
    cases hc : call.pc with
    | woken => exact absurd hc hcall
    | start | asleep | returned => simp
  have hnew : (⟨op, pc⟩ : Call α).mode ≠ .asleep := by
    unfold Call.mode
    cases pc with
    | asleep => exact absurd rfl hpc
    | start | woken | returned => simp
  refine Waiters.Enough.set h hi hnew ?_
  rw [Waiters.unit_other hold, setPc_data]
  omega

/-- A `push` is never in the wait. -/
theorem push_start (hw : WellFormed s) {i : ℕ} {value : α} {pc : Pc α} (hi : s.calls[i]? = some ⟨.push value, pc⟩) :
    pc ≠ .woken := by
  intro hpc
  exact hw _ (List.mem_of_getElem? hi) (.inr hpc)

/-- Only such a step leaves values behind. -/
theorem step_served (hw : WellFormed s) (h : Served s) (hs : step c s e = some t) : Served t ↔ Timely s e := by
  cases step_cases hs with
  | call op => exact iff_of_true (h.concat (by simp [Call.mode])) trivial
  | @push i value pc calls wakes hi _ hn =>
    refine iff_of_true ?_ trivial
    have hpush : Served (s.setPc i (.push value) (.returned .done)) := h.setPc hi (push_start hw hi) nofun
    show Waiters.Enough Call.mode calls (s.data ++ [value]).length 0
    rw [List.length_append, List.length_singleton]
    exact Waiters.Enough.notifyOne (fun call _ => mode_wake call) hpush.put hn
  | pushThrows hi =>
    refine iff_of_true (h.setPc hi (push_start hw hi) nofun) fun op hop => ?_
    rw [hi] at hop
    cases hop
    exact absurd rfl (push_start hw hi)
  | @sleep i call throws wakes hi _ _ hdata | @empty i call throws wakes hi _ _ hdata =>
    refine iff_of_true ?_ ?_
    · unfold Served
      rw [setPc_data, hdata]
      exact .nothing
    · cases throws with
      | false => trivial
      | true => exact fun _ _ hne => absurd hdata hne
  | @take i call value rest wakes hi _ hdata =>
    refine iff_of_true (Waiters.Enough.set h hi (by simp [Call.mode]) ?_) trivial
    have := Waiters.unit_le_one Call.mode call
    rw [hdata, List.length_cons]
    show rest.length + _ + 0 ≤ _
    omega
  | @throws i call wakes hi hrun _ hdata =>
    obtain ⟨op, pc⟩ := call
    rcases hrun with hpc | hpc
    · change pc = .start at hpc
      subst hpc
      refine iff_of_true (h.setPc hi nofun nofun) fun op' hop => ?_
      rw [hi] at hop
      cases hop
    · change pc = .woken at hpc
      subst hpc
      refine Iff.trans (Waiters.leave_iff hi rfl rfl) ?_
      exact ⟨fun hx _ _ _ hsleeps => hx hsleeps, fun hx => hx op hi hdata⟩
  | spurious hi =>
    refine iff_of_true (Waiters.Enough.set h hi (by simp [Call.mode]) ?_) trivial
    rw [setPc_data, Waiters.unit_other (by simp [Call.mode])]
    omega

/-! ## What can come of a state -/

/-- From here, with none but the calls there are, and nobody throwing, values can come to be
left behind. -/
def Stalls (c : Class) (s : State α) : Prop :=
  ∃ events t, (∀ e ∈ events, ∃ i, e = .move i false none) ∧ Run.run (step c) s events = some t ∧ Stalled t

theorem Served.not_stalls (hw : WellFormed s) (h : Served s) : ¬ Stalls c s := by
  intro hstalls
  obtain ⟨events, t, hquiet, hrun, hstalled⟩ := hstalls
  have htimely : Run.Along (step c) Timely s events := by
    refine Run.along_mono (fun _ e he => ?_) (Run.along_of_forall (C := fun e => ∃ i, e = .move i false none) hquiet)
    obtain ⟨i, rfl⟩ := he
    trivial
  have hend := Run.run_along_invariant (C := Timely) (fun u => WellFormed u ∧ Served u)
    (fun u e v hu ht hv => ⟨step_wellFormed hu.1 hv, (step_served hu.1 hu.2 hv).2 ht⟩) ⟨hw, h⟩ htimely hrun
  exact hend.2.not_stalled hstalled

/-- Those that were woken each take a value, and there is still one when the last has left. -/
theorem stalls_of_not_served (hw : WellFormed s) (h : ¬ Served s) : Stalls c s := by
  generalize hn : Waiters.awake Call.mode s.calls = n
  induction n generalizing s with
  | zero =>
    simp only [Served, Waiters.Enough, Classical.not_imp, Nat.not_le, hn] at h
    exact ⟨[], s, nofun, rfl, ⟨h.1, by omega, hn, rfl⟩⟩
  | succ n ih =>
    simp only [Served, Waiters.Enough, Classical.not_imp, Nat.not_le, hn] at h
    obtain ⟨hsleeps, hlen⟩ := h
    obtain ⟨call, hcall, hawake⟩ := List.countP_pos_iff.1 (by rw [← Waiters.awake, hn]; omega)
    obtain ⟨i, hi⟩ := List.mem_iff_getElem?.1 hcall
    obtain ⟨op, pc⟩ := call
    have hpc : pc = .woken := by
      cases pc with
      | woken => rfl
      | start | asleep | returned => simp [Call.mode] at hawake
    subst hpc
    obtain ⟨value, rest, hdata⟩ := List.exists_cons_of_length_pos (l := s.data) (by omega)
    have hstep : step c s (.move i false none) =
        some { s.setPc i op (.returned (.item value)) with data := rest, taken := s.taken ++ [value] } := by
      have hwaits := hw _ hcall (.inr rfl)
      cases op with
      | waitAndPop | waitAndPopPtr => simp [step, hi, State.exec, State.pop, hdata]
      | push | tryPop | tryPopPtr => exact absurd hwaits id
    have hset : Waiters.awake Call.mode (s.calls.set i ⟨op, .returned (.item value)⟩) + 1 = n + 1 := by
      rw [← hn]
      exact Waiters.awake_set hi
    rw [hdata, List.length_cons] at hlen
    have hleft : ¬ Served
        { s.setPc i op (.returned (.item value)) with data := rest, taken := s.taken ++ [value] } := by
      intro hserved
      have hle := hserved ((Waiters.sleeps_set_iff hi (by simp [Call.mode]) (by simp [Call.mode])).2 hsleeps)
      change rest.length ≤ Waiters.awake Call.mode (s.calls.set i ⟨op, .returned (.item value)⟩) + 0 at hle
      omega
    obtain ⟨events, t, hquiet, hrun, hstalled⟩ := ih (step_wellFormed hw hstep) hleft (by
      show Waiters.awake Call.mode (s.calls.set i ⟨op, .returned (.item value)⟩) = n
      omega)
    refine ⟨.move i false none :: events, t, fun e he => ?_, Run.run_cons.2 ⟨_, hstep, hrun⟩, hstalled⟩
    rcases List.mem_cons.1 he with rfl | he
    · exact ⟨i, rfl⟩
    · exact hquiet e he

/-! ## The queue of pointers -/

/-- No consumer is given a reference to wait with. -/
def PointersOnly (s : State α) : Prop := ∀ call ∈ s.calls, call.op ≠ .waitAndPop

theorem mem_of_set {l : List (Call α)} {op : Op α} {pc pc' : Pc α} (hi : l[i]? = some ⟨op, pc⟩)
    (h : ∀ d ∈ l.set i ⟨op, pc'⟩, d.op ≠ .waitAndPop) : ∀ d ∈ l, d.op ≠ .waitAndPop := by
  intro d hd
  obtain ⟨j, hj⟩ := List.mem_iff_getElem?.1 hd
  by_cases hij : i = j
  · subst hij
    rw [hi] at hj
    cases hj
    exact h ⟨op, pc'⟩ (List.mem_set (List.getElem?_eq_some_iff.1 hi).1 _)
  · exact h d (List.mem_of_getElem? (i := j) (by rw [List.getElem?_set_ne hij]; exact hj))

/-- The calls keep what they are. -/
theorem PointersOnly.before (hs : step c s e = some t) (h : PointersOnly t) : PointersOnly s := by
  cases step_cases hs with
  | call op => exact fun d hd => h d (List.mem_append_left _ hd)
  | push hi _ hn =>
    rcases Waiters.notifyOne_cases hn with ⟨-, rfl⟩ | ⟨j, d, hj, -, rfl⟩
    · exact mem_of_set hi h
    · exact mem_of_set hi (mem_of_set hj h)
  | pushThrows hi | sleep hi | empty hi | take hi | throws hi | spurious hi => exact mem_of_set hi h

/-- Then nobody who was woken throws. -/
theorem PointersOnly.timely (h : PointersOnly s) (hw : WellFormed s) (hs : step .threadsafeQueuePtr s e = some t) :
    Timely s e := by
  cases e with
  | call | spurious => trivial
  | move i throws wakes =>
    cases throws with
    | false => trivial
    | true =>
      intro op hi
      have hmem := List.mem_of_getElem? hi
      have hwaits := hw _ hmem (.inr rfl)
      have hop := h _ hmem
      simp only [step, hi] at hs
      cases op with
      | waitAndPop => exact absurd rfl hop
      | waitAndPopPtr => cases hs
      | push | tryPop | tryPopPtr => exact absurd hwaits id

end

/-- Two consumers wait, two values come, and the first to come back throws over its own. -/
def throwsAwake : List (Event ℕ) :=
  [.call .waitAndPopPtr, .call .waitAndPopPtr, .call (.push 7), .move 0 false none, .move 1 false none,
    .move 2 false (some 0), .move 0 true none]

end Learncc.WaitingQueue
