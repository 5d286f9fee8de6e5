/-
Calls that run side by side on shared memory. A call moves by single steps, each
of which reads and writes the memory at once; an event starts a call or moves
one of those started, so one list of events is one interleaving.

`run_invariant` and `run_along_invariant` reduce an invariant of all runs to
one start and one move. `total f` adds up what each call has, in any
commutative monoid: how many calls hold something, which values they carry.
What a move does to it is `total_set`.
-/
import Learncc.Lib.Run
import Mathlib.Algebra.Order.BigOperators.Group.List
import Mathlib.Algebra.Order.Group.Nat
import Mathlib.Tactic.Abel

/-- The memory and all calls made so far, the ended ones too. -/
structure Calls (σ κ : Type*) where
  shared : σ
  calls : List κ

namespace Calls

inductive Event (ω ι : Type*)
  | call (op : ω)
  | move (i : ℕ) (input : ι)

/-- Where a call of an operation starts, and how it moves. The input is what is
chosen for the move from outside. -/
structure Program (σ κ ω ι : Type*) where
  enter : ω → κ
  move : κ → ι → σ → Option (κ × σ)

variable {σ κ ω ι : Type*} {p : Program σ κ ω ι} {s t : Calls σ κ} {e : Event ω ι}

def Program.step (p : Program σ κ ω ι) (s : Calls σ κ) : Event ω ι → Option (Calls σ κ)
  | .call op => some { s with calls := s.calls ++ [p.enter op] }
  | .move i input =>
    s.calls[i]?.bind fun c => (p.move c input s.shared).map fun q => ⟨q.2, s.calls.set i q.1⟩

theorem step_move_eq_some_iff {i : ℕ} {input : ι} :
    p.step s (.move i input) = some t ↔
      ∃ c c' shared, s.calls[i]? = some c ∧ p.move c input s.shared = some (c', shared) ∧
        t = ⟨shared, s.calls.set i c'⟩ := by
  simp only [Program.step, Option.bind_eq_some_iff, Option.map_eq_some_iff, Prod.exists]
  constructor
  · intro h
    obtain ⟨c, hc, c', shared, hm, rfl⟩ := h
    exact ⟨c, c', shared, hc, hm, rfl⟩
  · intro h
    obtain ⟨c, c', shared, hc, hm, rfl⟩ := h
    exact ⟨c, hc, c', shared, hm, rfl⟩

/-- Every start and every move keeps `I`, so every run does. -/
theorem run_invariant (I : σ → List κ → Prop)
    (hcall : ∀ shared calls op, I shared calls → I shared (calls ++ [p.enter op]))
    (hmove : ∀ shared calls i c input c' shared', I shared calls → calls[i]? = some c →
      p.move c input shared = some (c', shared') → I shared' (calls.set i c'))
    {events : List (Event ω ι)} (hs : I s.shared s.calls) (h : Run.run p.step s events = some t) :
    I t.shared t.calls := by
  refine Run.run_invariant (fun u => I u.shared u.calls) (fun u e v hu hv => ?_) hs h
  cases e with
  | call op =>
    cases hv
    exact hcall _ _ op hu
  | move i input =>
    obtain ⟨c, c', shared, hc, hm, rfl⟩ := step_move_eq_some_iff.1 hv
    exact hmove _ _ i c input c' shared hu hc hm

/-- The same for runs whose moves all meet `C`. -/
theorem run_along_invariant {C : Calls σ κ → Event ω ι → Prop} (I : σ → List κ → Prop)
    (hcall : ∀ shared calls op, I shared calls → I shared (calls ++ [p.enter op]))
    (hmove : ∀ shared calls i c input c' shared', I shared calls → calls[i]? = some c →
      C ⟨shared, calls⟩ (.move i input) → p.move c input shared = some (c', shared') → I shared' (calls.set i c'))
    {events : List (Event ω ι)} (hs : I s.shared s.calls) (hc : Run.Along p.step C s events)
    (h : Run.run p.step s events = some t) : I t.shared t.calls := by
  refine Run.run_along_invariant (fun u => I u.shared u.calls) (fun u e v hu hcu hv => ?_) hs hc h
  cases e with
  | call op =>
    cases hv
    exact hcall _ _ op hu
  | move i input =>
    obtain ⟨c, c', shared, hc, hm, rfl⟩ := step_move_eq_some_iff.1 hv
    exact hmove _ _ i c input c' shared hu hc hcu hm

/-! ## After a move -/

variable {l : List κ} {c c' d : κ} {i j : ℕ}

theorem getElem?_set_cases (h : (l.set i c')[j]? = some d) : j = i ∧ d = c' ∨ j ≠ i ∧ l[j]? = some d := by
  by_cases hij : i = j
  · subst hij
    obtain ⟨hlt, -⟩ := List.getElem?_eq_some_iff.1 h
    rw [List.length_set] at hlt
    rw [List.getElem?_set_self hlt] at h
    cases h
    exact .inl ⟨rfl, rfl⟩
  · rw [List.getElem?_set_ne hij] at h
    exact .inr ⟨fun h => hij h.symm, h⟩

theorem mem_set (h : d ∈ l.set i c') : d = c' ∨ ∃ j, j ≠ i ∧ l[j]? = some d := by
  obtain ⟨j, hj⟩ := List.mem_iff_getElem?.1 h
  rcases getElem?_set_cases hj with ⟨-, he⟩ | hother
  · exact .inl he
  · exact .inr ⟨j, hother⟩

theorem getElem?_concat_cases (h : (l ++ [c])[j]? = some d) : l[j]? = some d ∨ j = l.length ∧ d = c := by
  rcases Nat.lt_or_ge j l.length with hlt | hge
  · rw [List.getElem?_append_left hlt] at h
    exact .inl h
  · rw [List.getElem?_append_right hge] at h
    obtain ⟨hlt, hd⟩ := List.getElem?_eq_some_iff.1 h
    rw [List.length_singleton] at hlt
    refine .inr ⟨by omega, ?_⟩
    rw [← hd, List.getElem_singleton]

theorem forall_mem_set {P : κ → Prop} (h : ∀ d ∈ l, P d) (hc' : P c') : ∀ d ∈ l.set i c', P d := by
  intro d hd
  rcases mem_set hd with rfl | ⟨j, -, hj⟩
  · exact hc'
  · exact h d (List.mem_of_getElem? hj)

section Total

variable {M : Type*} [AddCommMonoid M] {f : κ → M}

/-- What all calls have together. -/
def total (f : κ → M) (l : List κ) : M := (l.map f).sum

@[simp] theorem total_nil : total f [] = 0 := rfl

theorem total_concat (l : List κ) (c : κ) : total f (l ++ [c]) = total f l + f c := by
  simp [total]

/-- The call that moves gives up what it had, for what it has then; the others
have by `g` what they had by `f`. -/
theorem total_set_congr {g : κ → M} (h : l[i]? = some c) (hfg : ∀ j d, j ≠ i → l[j]? = some d → g d = f d) :
    total g (l.set i c') + f c = total f l + g c' := by
  induction l generalizing i with
  | nil => simp at h
  | cons d l ih =>
    cases i with
    | zero =>
      cases h
      have hrest : ∀ d ∈ l, g d = f d := by
        intro d hd
        obtain ⟨j, hj⟩ := List.mem_iff_getElem?.1 hd
        exact hfg (j + 1) d (Nat.succ_ne_zero j) hj
      simp only [total, List.set_cons_zero, List.map_cons, List.sum_cons]
      rw [List.map_congr_left hrest, add_right_comm, add_comm (g c'), add_right_comm]
    | succ i =>
      have ih := ih (i := i) h fun j d hji hj => hfg (j + 1) d (fun he => hji (Nat.succ.inj he)) hj
      have hd : g d = f d := hfg 0 d (Nat.succ_ne_zero i).symm rfl
      simp only [total, List.set_cons_succ, List.map_cons, List.sum_cons] at ih ⊢
      rw [hd, add_assoc, ih, add_assoc]

theorem total_set (h : l[i]? = some c) : total f (l.set i c') + f c = total f l + f c' :=
  total_set_congr h fun _ _ _ _ => rfl

/-- The call that moves keeps what it had and gets `m`. -/
theorem total_set_add (h : l[i]? = some c) {m : M} (hf : f c' = f c + m) : total f (l.set i c') = total f l + m := by
  induction l generalizing i with
  | nil => simp at h
  | cons d l ih =>
    cases i with
    | zero =>
      cases h
      simp only [total, List.set_cons_zero, List.map_cons, List.sum_cons]
      rw [hf, add_right_comm]
    | succ i =>
      have ih := ih (i := i) h
      simp only [total, List.set_cons_succ, List.map_cons, List.sum_cons] at ih ⊢
      rw [ih, add_assoc]

theorem total_set_same (h : l[i]? = some c) (hf : f c' = f c) : total f (l.set i c') = total f l := by
  have hadd : f c' = f c + 0 := by rw [hf, add_zero]
  rw [total_set_add h hadd, add_zero]

theorem total_congr {g : κ → M} (h : ∀ c ∈ l, f c = g c) : total f l = total g l := by
  unfold total
  rw [List.map_congr_left h]

theorem total_le_total [PartialOrder M] [IsOrderedAddMonoid M] {g : κ → M} (h : ∀ c ∈ l, f c ≤ g c) :
    total f l ≤ total g l := List.sum_le_sum h

theorem total_eq_zero (h : ∀ c ∈ l, f c = 0) : total f l = 0 := by
  refine List.sum_eq_zero fun x hx => ?_
  obtain ⟨c, hc, rfl⟩ := List.mem_map.1 hx
  exact h c hc

end Total

/-- `A` is all there is, `H` what the calls have and `S` what is elsewhere: a move
that makes one part up for another keeps the sum. -/
theorem conserved_move {M : Type*} [AddCancelCommMonoid M] {A A' H H' S S' a a' b b' : M} (h : A = H + S)
    (hA : A' + a = A + a') (hH : H' + b = H + b') (hv : a' + b + S = a + b' + S') : A' = H' + S' := by
  refine add_right_cancel (b := a + b) ?_
  calc A' + (a + b) = A' + a + b := (add_assoc _ _ _).symm
    _ = H + S + a' + b := by rw [hA, h]
    _ = H + (a' + b + S) := by abel
    _ = H + b' + S' + a := by rw [hv]; abel
    _ = H' + S' + (a + b) := by rw [← hH]; abel

section Count

variable {f : κ → ℕ}

theorem le_total (h : l[i]? = some c) : f c ≤ total f l :=
  List.single_le_sum (fun _ _ => Nat.zero_le _) _ (List.mem_map_of_mem (List.mem_of_getElem? h))

/-- Two calls have no more than all. -/
theorem add_le_total (hi : l[i]? = some c) (hj : l[j]? = some d) (hij : i ≠ j) : f c + f d ≤ total f l := by
  induction l generalizing i j with
  | nil => simp at hi
  | cons b l ih =>
    have hcons : total f (b :: l) = f b + total f l := by simp [total]
    cases i with
    | zero =>
      cases j with
      | zero => exact (hij rfl).elim
      | succ j =>
        cases hi
        have := le_total (f := f) (l := l) (i := j) hj
        omega
    | succ i =>
      cases j with
      | zero =>
        cases hj
        have := le_total (f := f) (l := l) (i := i) hi
        omega
      | succ j =>
        have := ih (i := i) (j := j) hi hj (fun h => hij (congrArg _ h))
        omega

theorem total_eq_zero_iff : total f l = 0 ↔ ∀ c ∈ l, f c = 0 := by
  refine ⟨fun h c hc => ?_, total_eq_zero⟩
  obtain ⟨i, hi⟩ := List.mem_iff_getElem?.1 hc
  have := le_total (f := f) hi
  omega

theorem exists_of_total_pos (h : 0 < total f l) : ∃ (i : ℕ) (c : κ), l[i]? = some c ∧ 0 < f c := by
  by_contra hnone
  have hzero : total f l = 0 := by
    refine total_eq_zero fun c hc => ?_
    obtain ⟨i, hi⟩ := List.mem_iff_getElem?.1 hc
    by_contra hne
    exact hnone ⟨i, c, hi, Nat.pos_of_ne_zero hne⟩
  omega

/-- One call has it all. -/
theorem exists_of_total_eq_one (h : total f l = 1) :
    ∃ (i : ℕ) (c : κ), l[i]? = some c ∧ f c = 1 ∧ ∀ (j : ℕ) (d : κ), j ≠ i → l[j]? = some d → f d = 0 := by
  obtain ⟨i, c, hi, hpos⟩ := exists_of_total_pos (by omega : 0 < total f l)
  have hle := le_total (f := f) hi
  refine ⟨i, c, hi, by omega, fun j d hji hj => ?_⟩
  have hboth := add_le_total (f := f) hi hj (Ne.symm hji)
  omega

end Count

end Calls
