/-
`hierarchical_mutex` (src/concurrent/mutex_.cc): a mutex with a value, which a
thread may lock only while the value of the last one it locked is greater. The
thread's level is a thread local; each mutex keeps the level that was there
before. A call is several steps, and throws in the first or not at all.

`run_no_cycle`: the levels are the values of the mutexes held, so these decrease,
and threads never wait for each other in a circle.
-/
import Learncc.Lib.Run
import Mathlib.Algebra.Group.Nat.Defs
import Mathlib.Data.List.Nodup
import Mathlib.Logic.Relation

namespace Learncc.HierarchicalMutex

/-- `ULONG_MAX`. -/
def ULONGMAX : ℕ := 2 ^ 64 - 1

/-- How a call ended; `ok` is what `try_lock` answers. -/
inductive Outcome
  | done (ok : Bool)
  | threw
deriving Repr, DecidableEq

/-- What a thread does next. -/
inductive Pc (μ : Type)
  | idle
  | lockInternal (m : μ)
  | tryLockInternal (m : μ)
  | updatePrevious (m : μ)
  | updateThis (m : μ)
  | restoreThis (m : μ)
  | unlockInternal (m : μ)
deriving Repr, DecidableEq

/-- The call has the inner mutex and is still to write a level, or to unlock. -/
def Pc.inside {μ : Type} : Pc μ → Bool
  | .idle | .lockInternal _ | .tryLockInternal _ => false
  | .updatePrevious _ | .updateThis _ | .restoreThis _ | .unlockInternal _ => true

/-- `owner` is who has `_internal_mutex`, `previous` is
`_previous_hierarchy_value`, `this` is `_this_thread_hierarchy_value`. `held` is
no part of the program: it has the mutexes a thread locked, the last one first. -/
structure State (τ μ : Type) where
  owner : μ → Option τ
  previous : μ → ℕ
  this : τ → ℕ
  pc : τ → Pc μ
  result : τ → Option Outcome
  held : τ → List μ

inductive Op
  | lock
  | tryLock
  | unlock
deriving Repr, DecidableEq

/-- A thread calls, or goes on with its call. `spurious`: a `try_lock` of the
inner mutex fails although it could succeed. -/
inductive Event (τ μ : Type)
  | call (t : τ) (op : Op) (m : μ)
  | move (t : τ) (spurious : Bool)
deriving Repr, DecidableEq

section

variable {τ μ : Type} (value : μ → ℕ)

def init : State τ μ :=
  { owner := fun _ => none, previous := fun _ => 0, this := fun _ => ULONGMAX, pc := fun _ => .idle,
    result := fun _ => none, held := fun _ => [] }

namespace State

variable [DecidableEq τ] (s : State τ μ) (t : τ) (m : μ)

def goto (pc : Pc μ) : State τ μ := { s with pc := Function.update s.pc t pc }

def finish (outcome : Outcome) : State τ μ :=
  { s with pc := Function.update s.pc t .idle, result := Function.update s.result t (some outcome) }

@[simp] theorem goto_pc (pc : Pc μ) : (s.goto t pc).pc t = pc := Function.update_self ..

@[simp] theorem finish_pc (outcome : Outcome) : (s.finish t outcome).pc t = .idle := Function.update_self ..

variable [DecidableEq μ]

/-- `_internal_mutex` goes to the thread. -/
def take : State τ μ :=
  { s with owner := Function.update s.owner m (some t), held := Function.update s.held t (m :: s.held t) }

/-- The test with which a call starts, and where it goes on. -/
def begin (op : Op) : State τ μ :=
  let s' := { s with result := Function.update s.result t none }
  match op with
  | .lock => if s.this t ≤ value m then s.finish t .threw else s'.goto t (.lockInternal m)
  | .tryLock => if s.this t ≤ value m then s.finish t .threw else s'.goto t (.tryLockInternal m)
  | .unlock => if s.this t ≠ value m then s.finish t .threw else s'.goto t (.restoreThis m)

def move (spurious : Bool) : Pc μ → Option (State τ μ)
  | .idle => none
  | .lockInternal m => if s.owner m = none then some ((s.take t m).goto t (.updatePrevious m)) else none
  | .tryLockInternal m =>
    if s.owner m = none ∧ spurious = false then some ((s.take t m).goto t (.updatePrevious m))
    else some (s.finish t (.done false))
  | .updatePrevious m =>
    some ({ s with previous := Function.update s.previous m (s.this t) }.goto t (.updateThis m))
  | .updateThis m => some ({ s with this := Function.update s.this t (value m) }.finish t (.done true))
  | .restoreThis m =>
    some ({ s with this := Function.update s.this t (s.previous m) }.goto t (.unlockInternal m))
  | .unlockInternal m =>
    some ({ s with
      owner := Function.update s.owner m none
      held := Function.update s.held t ((s.held t).erase m) }.finish t (.done true))

end State

/-- A thread makes one call at a time, and unlocks only what it has. -/
def step [DecidableEq τ] [DecidableEq μ] (s : State τ μ) : Event τ μ → Option (State τ μ)
  | .call t op m =>
    if s.pc t = .idle ∧ (op = .unlock → s.owner m = some t) then some (s.begin value t m op) else none
  | .move t spurious => s.move value t spurious (s.pc t)

/-- `t` waits for a mutex that `u` has. -/
def Blocked (s : State τ μ) (t u : τ) : Prop := ∃ m, s.pc t = .lockInternal m ∧ s.owner m = some u

/-! ## Levels -/

/-- The value of the last of the mutexes. -/
def level : List μ → ℕ
  | [] => ULONGMAX
  | m :: _ => value m

/-- Each mutex has the level that was there before it. -/
def Saved (previous : μ → ℕ) : List μ → Prop
  | [] => True
  | m :: l => previous m = level value l ∧ Saved previous l

/-- What a thread's level is where it is in its call. -/
def At (s : State τ μ) (t : τ) : Pc μ → Prop
  | .idle => s.this t = level value (s.held t) ∧ Saved value s.previous (s.held t)
  | .lockInternal m | .tryLockInternal m =>
    value m < s.this t ∧ s.this t = level value (s.held t) ∧ Saved value s.previous (s.held t)
  | .updatePrevious m => ∃ l, s.held t = m :: l ∧ s.this t = level value l ∧ Saved value s.previous l
  | .updateThis m => ∃ l, s.held t = m :: l ∧ Saved value s.previous (m :: l)
  | .restoreThis m => ∃ l, s.held t = m :: l ∧ Saved value s.previous (m :: l)
  | .unlockInternal m => ∃ l, s.held t = m :: l ∧ s.this t = level value l ∧ Saved value s.previous l

structure Inv (s : State τ μ) : Prop where
  sorted : ∀ t, (s.held t).Pairwise fun m n => value m < value n
  holds : ∀ t m, m ∈ s.held t ↔ s.owner m = some t
  at_pc : ∀ t, At value s t (s.pc t)

variable {value} {s s' : State τ μ} {t u : τ} {m n : μ} {l : List μ} {previous previous' : μ → ℕ}

theorem level_le (h : l.Pairwise fun m n => value m < value n) (hn : n ∈ l) : level value l ≤ value n := by
  cases l with
  | nil => cases hn
  | cons m l =>
    rcases List.mem_cons.1 hn with rfl | hn
    · exact Nat.le_refl _
    · exact Nat.le_of_lt ((List.pairwise_cons.1 h).1 n hn)

/-- A mutex whose value is the level is the last. -/
theorem eq_cons_of_level (h : l.Pairwise fun m n => value m < value n) (hm : m ∈ l) (hl : level value l = value m) :
    ∃ l', l = m :: l' := by
  cases l with
  | nil => cases hm
  | cons n l =>
    rcases List.mem_cons.1 hm with rfl | hm
    · exact ⟨l, rfl⟩
    · have hlt := (List.pairwise_cons.1 h).1 m hm
      have hle : value n = value m := hl
      omega

theorem Saved.congr (h : Saved value previous l) (hp : ∀ n ∈ l, previous' n = previous n) :
    Saved value previous' l := by
  induction l with
  | nil => trivial
  | cons m l ih =>
    obtain ⟨hm, hl⟩ := h
    exact ⟨(hp m List.mem_cons_self).trans hm, ih hl fun n hn => hp n (List.mem_cons_of_mem m hn)⟩

theorem inv_init : Inv value (init : State τ μ) where
  sorted := fun _ => List.Pairwise.nil
  holds := fun t _ => ⟨fun h => (List.not_mem_nil h).elim, fun h => (Option.some_ne_none t h.symm).elim⟩
  at_pc := fun _ => ⟨rfl, trivial⟩

/-- What a thread knows depends on its level, on what it has locked, and on what
these mutexes saved. -/
theorem At.congr {pc : Pc μ} (h : At value s t pc) (hthis : s'.this t = s.this t) (hheld : s'.held t = s.held t)
    (hprev : ∀ n ∈ s.held t, s'.previous n = s.previous n) : At value s' t pc := by
  have htail : ∀ m l, s.held t = m :: l → ∀ n ∈ l, s'.previous n = s.previous n := by
    intro m l hl n hn
    exact hprev n (by rw [hl]; exact List.mem_cons_of_mem m hn)
  cases pc with
  | idle =>
    obtain ⟨hlevel, hsaved⟩ := h
    exact ⟨by rw [hthis, hheld]; exact hlevel, by rw [hheld]; exact hsaved.congr hprev⟩
  | lockInternal m =>
    obtain ⟨hlt, hlevel, hsaved⟩ := h
    exact ⟨by rw [hthis]; exact hlt, by rw [hthis, hheld]; exact hlevel, by rw [hheld]; exact hsaved.congr hprev⟩
  | tryLockInternal m =>
    obtain ⟨hlt, hlevel, hsaved⟩ := h
    exact ⟨by rw [hthis]; exact hlt, by rw [hthis, hheld]; exact hlevel, by rw [hheld]; exact hsaved.congr hprev⟩
  | updatePrevious m =>
    obtain ⟨l, hl, hlevel, hsaved⟩ := h
    exact ⟨l, hheld.trans hl, hthis.trans hlevel, hsaved.congr (htail m l hl)⟩
  | updateThis m =>
    obtain ⟨l, hl, hsaved⟩ := h
    exact ⟨l, hheld.trans hl, hsaved.congr (by rw [← hl]; exact hprev)⟩
  | restoreThis m =>
    obtain ⟨l, hl, hsaved⟩ := h
    exact ⟨l, hheld.trans hl, hsaved.congr (by rw [← hl]; exact hprev)⟩
  | unlockInternal m =>
    obtain ⟨l, hl, hlevel, hsaved⟩ := h
    exact ⟨l, hheld.trans hl, hthis.trans hlevel, hsaved.congr (htail m l hl)⟩

/-- A step of `t` leaves to the others what they know. -/
theorem Inv.at_other (h : Inv value s) (hu : u ≠ t) (hpc : ∀ u, u ≠ t → s'.pc u = s.pc u)
    (hthis : ∀ u, u ≠ t → s'.this u = s.this u) (hheld : ∀ u, u ≠ t → s'.held u = s.held u)
    (hprev : ∀ n, s.owner n ≠ some t → s'.previous n = s.previous n) : At value s' u (s'.pc u) := by
  rw [hpc u hu]
  refine (h.at_pc u).congr (hthis u hu) (hheld u hu) fun n hn => hprev n fun ho => ?_
  rw [(h.holds u n).1 hn] at ho
  exact hu (Option.some.inj ho)

/-- A step of `t` that changes neither what is locked nor what others know. -/
theorem Inv.settle (h : Inv value s) (hpc : ∀ u, u ≠ t → s'.pc u = s.pc u) (hthis : ∀ u, u ≠ t → s'.this u = s.this u)
    (hheld : s'.held = s.held) (howner : s'.owner = s.owner)
    (hprev : ∀ n, s.owner n ≠ some t → s'.previous n = s.previous n) (hat : At value s' t (s'.pc t)) :
    Inv value s' where
  sorted := fun u => by rw [hheld]; exact h.sorted u
  holds := fun u n => by rw [hheld, howner]; exact h.holds u n
  at_pc := fun u => by
    by_cases hu : u = t
    · rw [hu]
      exact hat
    · exact h.at_other hu hpc hthis (fun u _ => by rw [hheld]) hprev

/-- Who waits has a greater level than the one it waits for. -/
theorem Inv.level_lt (h : Inv value s) (hb : Blocked s t u) : level value (s.held u) < level value (s.held t) := by
  obtain ⟨m, hpc, howner⟩ := hb
  have hat := h.at_pc t
  rw [hpc] at hat
  obtain ⟨hlt, hlevel, -⟩ := hat
  have hle := level_le (h.sorted u) ((h.holds u m).2 howner)
  omega

theorem Inv.no_cycle (h : Inv value s) (t : τ) : ¬ Relation.TransGen (Blocked s) t t := by
  intro hcycle
  have hlt : ∀ u, Relation.TransGen (Blocked s) t u → level value (s.held u) < level value (s.held t) := by
    intro u hu
    induction hu with
    | single hb => exact h.level_lt hb
    | tail _ hb ih => exact Nat.lt_trans (h.level_lt hb) ih
  exact Nat.lt_irrefl _ (hlt t hcycle)

/-! ## Steps -/

variable [DecidableEq τ]

/-- A call starts: it throws, and nothing has changed, or it goes on. -/
theorem Inv.begin (h : Inv value s) {op : Op} (hpc : s.pc t = .idle) (hop : op = .unlock → s.owner m = some t) :
    Inv value (s.begin value t m op) := by
  have hat := h.at_pc t
  rw [hpc] at hat
  obtain ⟨hlevel, hsaved⟩ := hat
  have hother : ∀ (f : τ → Pc μ) (pc : Pc μ) (u : τ), u ≠ t → Function.update f t pc u = f u :=
    fun f pc u hu => Function.update_of_ne hu pc f
  have hthrow : Inv value (s.finish t .threw) := by
    refine h.settle (hother s.pc _) (fun _ _ => rfl) rfl rfl (fun _ _ => rfl) ?_
    rw [State.finish_pc]
    exact ⟨hlevel, hsaved⟩
  have hgo : ∀ pc, At value s t pc →
      Inv value ({ s with result := Function.update s.result t none }.goto t pc) := by
    intro pc hat
    refine h.settle (hother s.pc _) (fun _ _ => rfl) rfl rfl (fun _ _ => rfl) ?_
    rw [State.goto_pc]
    exact hat.congr rfl rfl fun _ _ => rfl
  unfold State.begin
  cases op with
  | lock =>
    dsimp only
    split
    · exact hthrow
    · rename_i hlt
      exact hgo (.lockInternal m) ⟨Nat.lt_of_not_le hlt, hlevel, hsaved⟩
  | tryLock =>
    dsimp only
    split
    · exact hthrow
    · rename_i hlt
      exact hgo (.tryLockInternal m) ⟨Nat.lt_of_not_le hlt, hlevel, hsaved⟩
  | unlock =>
    dsimp only
    split
    · exact hthrow
    · rename_i heq
      have hthis : s.this t = value m := by simpa using heq
      obtain ⟨l, hl⟩ := eq_cons_of_level (h.sorted t) ((h.holds t m).2 (hop rfl)) (hlevel.symm.trans hthis)
      exact hgo (.restoreThis m) ⟨l, hl, by rw [← hl]; exact hsaved⟩

variable [DecidableEq μ]

/-- The inner mutex goes to a thread whose level is above its value. -/
theorem Inv.take (h : Inv value s) (hfree : s.owner m = none) (hlt : value m < s.this t)
    (hlevel : s.this t = level value (s.held t)) (hsaved : Saved value s.previous (s.held t)) :
    Inv value ((s.take t m).goto t (.updatePrevious m)) := by
  have hheld : ((s.take t m).goto t (.updatePrevious m)).held t = m :: s.held t := Function.update_self ..
  have hother : ∀ u, u ≠ t → ((s.take t m).goto t (.updatePrevious m)).held u = s.held u :=
    fun u hu => Function.update_of_ne hu ..
  have hnot : ∀ u, m ∉ s.held u := by
    intro u hm
    rw [(h.holds u m).1 hm] at hfree
    cases hfree
  refine ⟨fun u => ?_, fun u n => ?_, fun u => ?_⟩
  · by_cases hu : u = t
    · rw [hu, hheld]
      refine List.pairwise_cons.2 ⟨fun n hn => ?_, h.sorted t⟩
      have hle := level_le (h.sorted t) hn
      omega
    · rw [hother u hu]
      exact h.sorted u
  · show n ∈ Function.update s.held t (m :: s.held t) u ↔ Function.update s.owner m (some t) n = some u
    by_cases hu : u = t
    · subst hu
      by_cases hn : n = m
      · rw [hn, Function.update_self, Function.update_self]
        exact ⟨fun _ => rfl, fun _ => List.mem_cons_self⟩
      · rw [Function.update_self, Function.update_of_ne hn, List.mem_cons, h.holds u n]
        exact or_iff_right hn
    · rw [Function.update_of_ne hu]
      by_cases hn : n = m
      · rw [hn, Function.update_self]
        exact ⟨fun hm => (hnot u hm).elim, fun he => (hu (Option.some.inj he).symm).elim⟩
      · rw [Function.update_of_ne hn]
        exact h.holds u n
  · by_cases hu : u = t
    · subst hu
      have hpc : ((s.take u m).goto u (.updatePrevious m)).pc u = .updatePrevious m := Function.update_self ..
      rw [hpc]
      exact ⟨s.held u, hheld, hlevel, hsaved⟩
    · exact h.at_other hu (fun u hu => Function.update_of_ne hu ..) (fun _ _ => rfl) hother (fun _ _ => rfl)

/-- The last mutex is given back. -/
theorem Inv.release (h : Inv value s) (hl : s.held t = m :: l) (hlevel : s.this t = level value l)
    (hsaved : Saved value s.previous l) :
    Inv value ({ s with
      owner := Function.update s.owner m none
      held := Function.update s.held t ((s.held t).erase m) }.finish t (.done true)) := by
  rw [hl, List.erase_cons_head]
  have hsorted := h.sorted t
  rw [hl] at hsorted
  obtain ⟨hlt, hsorted⟩ := List.pairwise_cons.1 hsorted
  have hnot : m ∉ l := fun hm => Nat.lt_irrefl _ (hlt m hm)
  have howner : s.owner m = some t := (h.holds t m).1 (by rw [hl]; exact List.mem_cons_self)
  refine ⟨fun u => ?_, fun u n => ?_, fun u => ?_⟩
  · show (Function.update s.held t l u).Pairwise _
    by_cases hu : u = t
    · rw [hu, Function.update_self]
      exact hsorted
    · rw [Function.update_of_ne hu]
      exact h.sorted u
  · show n ∈ Function.update s.held t l u ↔ Function.update s.owner m none n = some u
    by_cases hn : n = m
    · rw [hn, Function.update_self]
      refine ⟨fun hm => ?_, fun he => (by cases he)⟩
      by_cases hu : u = t
      · rw [hu, Function.update_self] at hm
        exact (hnot hm).elim
      · rw [Function.update_of_ne hu, h.holds u m, howner] at hm
        exact (hu (Option.some.inj hm).symm).elim
    · rw [Function.update_of_ne hn, ← h.holds u n]
      by_cases hu : u = t
      · rw [hu, Function.update_self, hl, List.mem_cons]
        exact (or_iff_right hn).symm
      · rw [Function.update_of_ne hu]
  · by_cases hu : u = t
    · subst hu
      rw [State.finish_pc]
      have hheld : Function.update s.held u l u = l := Function.update_self ..
      refine ⟨?_, ?_⟩
      · show s.this u = level value (Function.update s.held u l u)
        rw [hheld]
        exact hlevel
      · show Saved value s.previous (Function.update s.held u l u)
        rw [hheld]
        exact hsaved
    · exact h.at_other hu (fun u hu => Function.update_of_ne hu ..) (fun _ _ => rfl)
        (fun u hu => Function.update_of_ne hu ..) (fun _ _ => rfl)

theorem Inv.move (h : Inv value s) {spurious : Bool} (hm : s.move value t spurious (s.pc t) = some s') :
    Inv value s' := by
  have hat := h.at_pc t
  cases hpc : s.pc t with
  | idle =>
    rw [hpc] at hm
    cases hm
  | lockInternal m =>
    rw [hpc] at hm hat
    obtain ⟨hlt, hlevel, hsaved⟩ := hat
    simp only [State.move] at hm
    split at hm
    · rename_i hfree
      cases hm
      exact h.take hfree hlt hlevel hsaved
    · cases hm
  | tryLockInternal m =>
    rw [hpc] at hm hat
    obtain ⟨hlt, hlevel, hsaved⟩ := hat
    simp only [State.move] at hm
    split at hm
    · rename_i hfree
      cases hm
      exact h.take hfree.1 hlt hlevel hsaved
    · cases hm
      refine h.settle (fun u hu => Function.update_of_ne hu ..) (fun _ _ => rfl) rfl rfl (fun _ _ => rfl) ?_
      rw [State.finish_pc]
      exact ⟨hlevel, hsaved⟩
  | updatePrevious m =>
    rw [hpc] at hm hat
    obtain ⟨l, hl, hlevel, hsaved⟩ := hat
    have howner : s.owner m = some t := (h.holds t m).1 (by rw [hl]; exact List.mem_cons_self)
    have hsorted := h.sorted t
    rw [hl] at hsorted
    cases hm
    refine h.settle (fun u hu => Function.update_of_ne hu ..) (fun _ _ => rfl) rfl rfl (fun n hn => ?_) ?_
    · refine Function.update_of_ne (fun he => hn ?_) ..
      rw [he]
      exact howner
    · rw [State.goto_pc]
      refine ⟨l, hl, (Function.update_self ..).trans hlevel, hsaved.congr fun n hn => Function.update_of_ne ?_ ..⟩
      have hlt := (List.pairwise_cons.1 hsorted).1 n hn
      exact fun he => Nat.lt_irrefl _ (by rw [he] at hlt; exact hlt)
  | updateThis m =>
    rw [hpc] at hm hat
    obtain ⟨l, hl, hsaved⟩ := hat
    cases hm
    refine h.settle (fun u hu => Function.update_of_ne hu ..) (fun u hu => Function.update_of_ne hu ..) rfl rfl
      (fun _ _ => rfl) ?_
    rw [State.finish_pc]
    have hthis : Function.update s.this t (value m) t = value m := Function.update_self ..
    refine ⟨?_, ?_⟩
    · show Function.update s.this t (value m) t = level value (s.held t)
      rw [hthis, hl]
      rfl
    · show Saved value s.previous (s.held t)
      rw [hl]
      exact hsaved
  | restoreThis m =>
    rw [hpc] at hm hat
    obtain ⟨l, hl, hprev, hsaved⟩ := hat
    cases hm
    refine h.settle (fun u hu => Function.update_of_ne hu ..) (fun u hu => Function.update_of_ne hu ..) rfl rfl
      (fun _ _ => rfl) ?_
    rw [State.goto_pc]
    exact ⟨l, hl, (Function.update_self ..).trans hprev, hsaved⟩
  | unlockInternal m =>
    rw [hpc] at hm hat
    obtain ⟨l, hl, hlevel, hsaved⟩ := hat
    cases hm
    exact h.release hl hlevel hsaved

theorem step_inv {e : Event τ μ} (h : Inv value s) (hs : step value s e = some s') : Inv value s' := by
  cases e with
  | call t op m =>
    simp only [step] at hs
    split at hs
    · rename_i hready
      cases hs
      exact h.begin hready.1 hready.2
    · cases hs
  | move t spurious => exact h.move hs

/-! ## Runs -/

/-- A call that throws is over, and has changed nothing. -/
theorem step_call_threw {op : Op} (hs : step value s (.call t op m) = some s') (hr : s'.result t = some .threw) :
    s' = s.finish t .threw := by
  have hgo : ∀ pc, ({ s with result := Function.update s.result t none }.goto t pc).result t ≠ some .threw := by
    intro pc he
    have hnone : Function.update s.result t none t = none := Function.update_self ..
    rw [show Function.update s.result t none t = some .threw from he] at hnone
    cases hnone
  simp only [step] at hs
  split at hs
  · cases hs
    unfold State.begin at hr ⊢
    cases op with
    | lock =>
      dsimp only at hr ⊢
      split at hr
      · rename_i hle
        rw [if_pos hle]
      · exact absurd hr (hgo _)
    | tryLock =>
      dsimp only at hr ⊢
      split at hr
      · rename_i hle
        rw [if_pos hle]
      · exact absurd hr (hgo _)
    | unlock =>
      dsimp only at hr ⊢
      split at hr
      · rename_i hne
        rw [if_pos hne]
      · exact absurd hr (hgo _)
  · cases hs

/-- What is past its test does not throw. -/
theorem step_move_result {spurious : Bool} (hs : step value s (.move t spurious) = some s')
    (hr : s.result t ≠ some .threw) : s'.result t ≠ some .threw := by
  have hdone : ∀ (s : State τ μ) (ok : Bool), (s.finish t (.done ok)).result t ≠ some .threw := by
    intro s ok he
    have hself : (s.finish t (.done ok)).result t = some (.done ok) := Function.update_self ..
    rw [hself] at he
    cases he
  simp only [step, State.move] at hs
  split at hs
  · cases hs
  · split at hs
    · cases hs
      exact hr
    · cases hs
  · split at hs
    · cases hs
      exact hr
    · cases hs
      exact hdone s false
  · cases hs
    exact hr
  · cases hs
    exact hdone _ true
  · cases hs
    exact hr
  · cases hs
    exact hdone _ true

/-- **Ordered locking.** In every run the values of the mutexes a thread has
decrease in the order it locked them, and unless a call of it is about to change
that its level is the value of the last one; a call that throws changes nothing, and only the test at
its start throws; and no thread waits, through others, for itself. -/
theorem run_no_cycle {events : List (Event τ μ)} (h : Run.run (step value) init events = some s) :
    (∀ t m, m ∈ s.held t ↔ s.owner m = some t) ∧
    (∀ t, (s.held t).Pairwise (fun m n => value m < value n) ∧
      ((s.pc t).inside = false → s.this t = level value (s.held t))) ∧
    (∀ t op m s', step value s (.call t op m) = some s' → s'.result t = some .threw → s' = s.finish t .threw) ∧
    (∀ t spurious s', step value s (.move t spurious) = some s' → s.result t ≠ some .threw →
      s'.result t ≠ some .threw) ∧
    ∀ t, ¬ Relation.TransGen (Blocked s) t t := by
  have hinv : Inv value s := Run.run_invariant (Inv value) (fun _ _ _ hs => step_inv hs) inv_init h
  refine ⟨hinv.holds, fun t => ⟨hinv.sorted t, fun hpc => ?_⟩, fun _ _ _ _ => step_call_threw,
    fun _ _ _ => step_move_result, hinv.no_cycle⟩
  have hat := hinv.at_pc t
  cases hp : s.pc t with
  | idle =>
    rw [hp] at hat
    exact hat.1
  | lockInternal m =>
    rw [hp] at hat
    exact hat.2.1
  | tryLockInternal m =>
    rw [hp] at hat
    exact hat.2.1
  | updatePrevious m | updateThis m | restoreThis m | unlockInternal m =>
    rw [hp] at hpc
    cases hpc

end

/-- One thread has two mutexes and unlocks the first of them first, which throws;
another one tries the second of them, and then waits for it. -/
def wrongOrder : List (Event ℕ ℕ) :=
  [.call 1 .lock 1000, .move 1 false, .move 1 false, .move 1 false, .call 1 .lock 500, .move 1 false, .move 1 false,
    .move 1 false, .call 2 .tryLock 500, .move 2 false, .call 1 .unlock 1000, .call 2 .lock 500]

theorem run_no_cycle_wrongOrder :
    ∃ s, Run.run (step id) init wrongOrder = some s ∧ s.result 1 = some .threw ∧ s.result 2 = none ∧
      s.held 1 = [500, 1000] ∧ ∀ t, ¬ Relation.TransGen (Blocked s) t t := by
  have heval : (Run.run (step id) init wrongOrder).map (fun s => (s.result 1, s.result 2, s.held 1)) =
      some (some .threw, none, [500, 1000]) := by decide +kernel
  obtain ⟨s, hs, he⟩ := Option.map_eq_some_iff.1 heval
  obtain ⟨hfirst, hrest⟩ := Prod.mk.inj he
  obtain ⟨hsecond, hheld⟩ := Prod.mk.inj hrest
  exact ⟨s, hs, hfirst, hsecond, hheld, (run_no_cycle hs).2.2.2.2⟩

end Learncc.HierarchicalMutex
