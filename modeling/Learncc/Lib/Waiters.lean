/-
Threads on a condition variable, all waiting for the same thing: that there is something to
take. To the variable a thread is asleep in the wait, or awake and on its way to the test,
or elsewhere.

`Enough`: whoever sleeps may, because the threads on their way, with the notifications still
to come, are enough for what there is to take. A move of a thread keeps it as far as the
numbers add up (`Enough.set`); a notification turns one that was to come into a thread on its
way (`Enough.notifyOne`). While it holds, nothing is left lying with everybody asleep
(`Enough.not_stalled`).
-/
import Mathlib.Data.List.Count

namespace Waiters

inductive Mode
  | elsewhere
  | awake
  | asleep
deriving DecidableEq, Repr

variable {κ : Type*} (mode : κ → Mode) (wake : κ → κ)

/-- How many threads are on their way to the test. -/
def awake (l : List κ) : ℕ := l.countP fun c => mode c = .awake

def Sleeps (l : List κ) : Prop := ∃ c ∈ l, mode c = .asleep

instance (l : List κ) : Decidable (Sleeps mode l) := inferInstanceAs (Decidable (∃ c ∈ l, _))

/-- `notify_one`, by which the thread that is named wakes up; none is if nobody sleeps. -/
def notifyOne (l : List κ) : Option ℕ → Option (List κ)
  | none => if Sleeps mode l then none else some l
  | some i =>
    match l[i]? with
    | none => none
    | some c => if mode c = .asleep then some (l.set i (wake c)) else none

def notifyAll (l : List κ) : List κ := l.map fun c => if mode c = .asleep then wake c else c

/-- `items` is what there is to take, `pending` the notifications still to come. -/
def Enough (l : List κ) (items pending : ℕ) : Prop := Sleeps mode l → items ≤ awake mode l + pending

/-- There is something to take, somebody sleeps, and nobody is on the way or will be notified.
Threads that are elsewhere may still come. -/
structure Stalled (l : List κ) (items pending : ℕ) : Prop where
  sleeps : Sleeps mode l
  items : 0 < items
  awake : awake mode l = 0
  pending : pending = 0

variable {mode wake} {l l' : List κ} {c c' : κ} {i items items' pending pending' : ℕ} {choice : Option ℕ}

theorem Enough.not_stalled (h : Enough mode l items pending) : ¬ Stalled mode l items pending := by
  intro hs
  have := h hs.sleeps
  have := hs.items
  have := hs.awake
  have := hs.pending
  omega

/-! ## One thread -/

/-- What a thread counts for among those on their way. -/
def unit (mode : κ → Mode) (c : κ) : ℕ := if mode c = .awake then 1 else 0

theorem unit_awake (h : mode c = .awake) : unit mode c = 1 := if_pos h

theorem unit_other (h : mode c ≠ .awake) : unit mode c = 0 := if_neg h

theorem unit_le_one (mode : κ → Mode) (c : κ) : unit mode c ≤ 1 := by
  unfold unit
  split <;> omega

theorem awake_set (h : l[i]? = some c) : awake mode (l.set i c') + unit mode c = awake mode l + unit mode c' := by
  obtain ⟨hi, rfl⟩ := List.getElem?_eq_some_iff.1 h
  have hle := List.boole_getElem_le_countP (p := fun c => decide (mode c = .awake)) (l := l) (i := i) hi
  rw [awake, List.countP_set hi]
  simp only [unit, awake, decide_eq_true_eq] at hle ⊢
  omega

theorem awake_concat (l : List κ) (c : κ) : awake mode (l ++ [c]) = awake mode l + unit mode c := by
  simp [awake, unit, List.countP_append, List.countP_singleton]

theorem sleeps_set (h : mode c' ≠ .asleep) (hs : Sleeps mode (l.set i c')) : Sleeps mode l := by
  obtain ⟨d, hd, hasleep⟩ := hs
  rcases List.mem_or_eq_of_mem_set hd with hd | rfl
  · exact ⟨d, hd, hasleep⟩
  · exact absurd hasleep h

theorem sleeps_set_iff (hi : l[i]? = some c) (hc : mode c ≠ .asleep) (hc' : mode c' ≠ .asleep) :
    Sleeps mode (l.set i c') ↔ Sleeps mode l := by
  refine ⟨sleeps_set hc', fun hs => ?_⟩
  obtain ⟨d, hd, hasleep⟩ := hs
  obtain ⟨j, hj⟩ := List.mem_iff_getElem?.1 hd
  have hij : i ≠ j := by
    rintro rfl
    rw [hi] at hj
    cases hj
    exact hc hasleep
  refine ⟨d, List.mem_of_getElem? (i := j) ?_, hasleep⟩
  rw [List.getElem?_set_ne hij]
  exact hj

/-- A thread moves, but not into the wait. -/
theorem Enough.set (h : Enough mode l items pending) (hi : l[i]? = some c) (hc' : mode c' ≠ .asleep)
    (hle : items' + unit mode c + pending ≤ items + unit mode c' + pending') :
    Enough mode (l.set i c') items' pending' := by
  intro hs
  have := h (sleeps_set hc' hs)
  have hset : awake mode (l.set i c') + unit mode c = awake mode l + unit mode c' := awake_set hi
  omega

/-- A thread that was woken leaves without taking anything. -/
theorem leave_iff (hi : l[i]? = some c) (hc : mode c = .awake) (hc' : mode c' = .elsewhere) :
    Enough mode (l.set i c') items pending ↔ (Sleeps mode l → items < awake mode l + pending) := by
  have hset : awake mode (l.set i c') + unit mode c = awake mode l + unit mode c' := awake_set hi
  rw [unit_awake hc, unit_other (by rw [hc']; decide)] at hset
  unfold Enough
  rw [sleeps_set_iff hi (by rw [hc]; decide) (by rw [hc']; decide)]
  exact imp_congr_right fun _ => by omega

/-- A thread that is not asleep comes in. -/
theorem Enough.concat (h : Enough mode l items pending) (hc : mode c ≠ .asleep) :
    Enough mode (l ++ [c]) items pending := by
  intro hs
  obtain ⟨d, hd, hasleep⟩ := hs
  rcases List.mem_append.1 hd with hd | hd
  · have := h ⟨d, hd, hasleep⟩
    rw [awake_concat]
    omega
  · rw [List.mem_singleton.1 hd] at hasleep
    exact absurd hasleep hc

/-- When there is nothing to take, anybody may sleep. -/
theorem Enough.nothing : Enough mode l 0 pending := fun _ => Nat.zero_le _

/-- Something is put in, with a notification to follow. -/
theorem Enough.put (h : Enough mode l items pending) : Enough mode l (items + 1) (pending + 1) := by
  intro hs
  have := h hs
  omega

/-! ## Notifications -/

theorem notifyOne_cases (h : notifyOne mode wake l choice = some l') :
    ¬ Sleeps mode l ∧ l' = l ∨ ∃ i c, l[i]? = some c ∧ mode c = .asleep ∧ l' = l.set i (wake c) := by
  unfold notifyOne at h
  split at h
  · split at h
    · cases h
    · rename_i hs
      exact .inl ⟨hs, (Option.some.inj h).symm⟩
  · rename_i i
    split at h
    · cases h
    · rename_i c hc
      split at h
      · rename_i hasleep
        exact .inr ⟨i, c, hc, hasleep, (Option.some.inj h).symm⟩
      · cases h

theorem Enough.notifyOne (hwake : ∀ c, mode c = .asleep → mode (wake c) = .awake)
    (h : Enough mode l items (pending + 1)) (hn : notifyOne mode wake l choice = some l') :
    Enough mode l' items pending := by
  rcases notifyOne_cases hn with ⟨hs, rfl⟩ | ⟨i, c, hi, hc, rfl⟩
  · exact fun hs' => absurd hs' hs
  · have hw := hwake c hc
    refine h.set hi (by rw [hw]; decide) ?_
    rw [unit_other (by rw [hc]; decide), unit_awake hw]
    omega

theorem not_sleeps_notifyAll (hwake : ∀ c, mode c = .asleep → mode (wake c) = .awake) (l : List κ) :
    ¬ Sleeps mode (notifyAll mode wake l) := by
  intro hs
  obtain ⟨d, hd, hasleep⟩ := hs
  obtain ⟨c, -, rfl⟩ := List.mem_map.1 hd
  split at hasleep
  · rename_i hc
    rw [hwake c hc] at hasleep
    cases hasleep
  · rename_i hc
    exact hc hasleep

end Waiters
