/-
Runs of a machine given by its step: a partial function of the state and
one input. An input stands for everything the machine does not choose
itself, the scheduler's pick and the environment's answer included, so one
list of inputs is one interleaving. A step that answers `none` is not
enabled.

`run_invariant` proves a property of every state a run reaches;
`run_along_invariant` does so for the runs whose steps all meet a side
condition, and `along_iff` says when that condition is exact;
`run_simulation` follows a run with an abstract state; `run_history` with
`Occurs` speaks of what happened earlier in the run.
-/
import Mathlib.Logic.Basic
import Mathlib.Data.List.Induction

namespace Run

variable {σ ι α : Type*} {step : σ → ι → Option σ}

/-- The state after the inputs, when each is enabled where it comes. -/
def run (step : σ → ι → Option σ) : σ → List ι → Option σ
  | s, [] => some s
  | s, i :: is => (step s i).bind fun t => run step t is

@[simp] theorem run_nil (s : σ) : run step s [] = some s := rfl

theorem run_cons {s u : σ} {i : ι} {is : List ι} :
    run step s (i :: is) = some u ↔ ∃ t, step s i = some t ∧ run step t is = some u := by
  simp [run, Option.bind_eq_some_iff]

theorem run_append {s u : σ} {is js : List ι} :
    run step s (is ++ js) = some u ↔ ∃ t, run step s is = some t ∧ run step t js = some u := by
  induction is generalizing s with
  | nil => simp
  | cons i is ih =>
    simp only [List.cons_append, run_cons, ih]
    constructor
    · intro he
      obtain ⟨t, ht, v, hv, hu⟩ := he
      exact ⟨v, ⟨t, ht, hv⟩, hu⟩
    · intro he
      obtain ⟨v, ⟨t, ht, hv⟩, hu⟩ := he
      exact ⟨t, ht, v, hv, hu⟩

theorem run_concat {s u : σ} {is : List ι} {i : ι} :
    run step s (is ++ [i]) = some u ↔ ∃ t, run step s is = some t ∧ step t i = some u := by
  simp [run_append, run_cons]

/-- Where every step is enabled, every run is. -/
theorem run_total (hstep : ∀ s i, ∃ t, step s i = some t) :
    ∀ (is : List ι) (s : σ), ∃ u, run step s is = some u
  | [], s => ⟨s, rfl⟩
  | i :: is, s => by
    obtain ⟨t, ht⟩ := hstep s i
    obtain ⟨u, hu⟩ := run_total hstep is t
    exact ⟨u, run_cons.2 ⟨t, ht, hu⟩⟩

/-- Every step keeps `I`, so every run does. -/
theorem run_invariant (I : σ → Prop) (hstep : ∀ s i t, I s → step s i = some t → I t) :
    ∀ {is : List ι} {s u : σ}, I s → run step s is = some u → I u
  | [], s, u, hs, h => by simp at h; exact h ▸ hs
  | i :: is, s, u, hs, h => by
    obtain ⟨t, ht, hu⟩ := run_cons.1 h
    exact run_invariant I hstep (hstep s i t hs ht) hu

/-- Every step of the run meets `C`, a condition on the state before it and
its input. -/
def Along (step : σ → ι → Option σ) (C : σ → ι → Prop) : σ → List ι → Prop
  | _, [] => True
  | s, i :: is => C s i ∧ ∀ t, step s i = some t → Along step C t is

/-- For a given run it can be computed. -/
instance Along.decidable {C : σ → ι → Prop} [∀ s i, Decidable (C s i)] : ∀ s is, Decidable (Along step C s is)
  | _, [] => .isTrue trivial
  | s, i :: is =>
    match h : step s i with
    | none => decidable_of_iff (C s i) ⟨fun hc => ⟨hc, fun t ht => by rw [h] at ht; cases ht⟩, fun ha => ha.1⟩
    | some t =>
      have := Along.decidable (C := C) t is
      decidable_of_iff (C s i ∧ Along step C t is)
        ⟨fun ha => ⟨ha.1, fun t' ht => by rw [h] at ht; cases ht; exact ha.2⟩, fun ha => ⟨ha.1, ha.2 t h⟩⟩

theorem along_append {C : σ → ι → Prop} {s : σ} {is js : List ι} :
    Along step C s (is ++ js) ↔ Along step C s is ∧ ∀ t, run step s is = some t → Along step C t js := by
  induction is generalizing s with
  | nil => simp [Along]
  | cons i is ih =>
    simp only [List.cons_append, Along, ih, run_cons]
    constructor
    · intro he
      obtain ⟨hc, h⟩ := he
      exact ⟨⟨hc, fun t ht => (h t ht).1⟩, fun u ⟨t, ht, hu⟩ => (h t ht).2 u hu⟩
    · intro he
      obtain ⟨⟨hc, h₁⟩, h₂⟩ := he
      exact ⟨hc, fun t ht => ⟨h₁ t ht, fun u hu => h₂ u ⟨t, ht, hu⟩⟩⟩

theorem along_of_forall {C : ι → Prop} :
    ∀ {is : List ι} {s : σ}, (∀ i ∈ is, C i) → Along step (fun _ => C) s is
  | [], _, _ => trivial
  | i :: _, _, h => ⟨h i List.mem_cons_self, fun _ _ => along_of_forall fun j hj => h j (List.mem_cons_of_mem i hj)⟩

/-- A property kept by the steps that meet `C` holds after every run whose
steps all do. -/
theorem run_along_invariant {C : σ → ι → Prop} (I : σ → Prop)
    (hstep : ∀ s i t, I s → C s i → step s i = some t → I t) :
    ∀ {is : List ι} {s u : σ}, I s → Along step C s is → run step s is = some u → I u
  | [], s, u, hs, _, h => by simp at h; exact h ▸ hs
  | i :: is, s, u, hs, hc, h => by
    obtain ⟨t, ht, hu⟩ := run_cons.1 h
    exact run_along_invariant I hstep (hstep s i t hs hc.1 ht) (hc.2 t ht) hu

theorem along_mono {C D : σ → ι → Prop} (hcd : ∀ s i, C s i → D s i) {is : List ι} {s : σ}
    (h : Along step C s is) : Along step D s is := by
  induction is generalizing s with
  | nil => trivial
  | cons i is ih => exact ⟨hcd s i h.1, fun t ht => ih (h.2 t ht)⟩

/-- Two conditions that agree on what the run reaches. -/
theorem along_congr {C D : σ → ι → Prop} (W : σ → Prop) (hw : ∀ s i t, W s → step s i = some t → W t)
    (hcd : ∀ s i, W s → (C s i ↔ D s i)) {is : List ι} {s : σ} (hs : W s) : Along step C s is ↔ Along step D s is := by
  induction is generalizing s with
  | nil => exact Iff.rfl
  | cons i is ih =>
    have hrest : ∀ t, step s i = some t → (Along step C t is ↔ Along step D t is) := fun t ht => ih (hw s i t hs ht)
    exact and_congr (hcd s i hs) (forall_congr' fun t => forall_congr' (hrest t))

theorem along_and {C D : σ → ι → Prop} {is : List ι} {s : σ} (hc : Along step C s is) (hd : Along step D s is) :
    Along step (fun s i => C s i ∧ D s i) s is := by
  induction is generalizing s with
  | nil => trivial
  | cons i is ih => exact ⟨⟨hc.1, hd.1⟩, fun t ht => ih (hc.2 t ht) (hd.2 t ht)⟩

/-- Where a step keeps `I` exactly when it meets `C`, all the states of a run
have `I` exactly when all its steps meet `C`. -/
theorem along_iff {C : σ → ι → Prop} (W I : σ → Prop) (hw : ∀ s i t, W s → step s i = some t → W t)
    (hstep : ∀ s i t, W s → I s → step s i = some t → (I t ↔ C s i)) {is : List ι} {s u : σ}
    (hs : W s) (hi : I s)
    (h : run step s is = some u) : Along step (fun s _ => I s) s is ∧ I u ↔ Along step C s is := by
  induction is generalizing s with
  | nil =>
    cases h
    exact ⟨fun _ => trivial, fun _ => ⟨trivial, hi⟩⟩
  | cons i is ih =>
    obtain ⟨t, ht, hu⟩ := run_cons.1 h
    have hnext : ∀ {D : σ → ι → Prop}, Along step D s (i :: is) ↔ D s i ∧ Along step D t is := by
      intro D
      refine ⟨fun ha => ⟨ha.1, ha.2 t ht⟩, fun ha => ⟨ha.1, fun t' ht' => ?_⟩⟩
      rw [ht] at ht'
      cases ht'
      exact ha.2
    rw [hnext, hnext]
    -- The state after the step has `I`, either as the next of the run or as its last.
    have hfirst : Along step (fun s _ => I s) t is ∧ I u → I t := by
      intro ha
      cases is with
      | nil =>
        cases hu
        exact ha.2
      | cons j js => exact ha.1.1
    by_cases hit : I t
    · have hc := (hstep s i t hs hi ht).1 hit
      rw [← ih (hw s i t hs ht) hit hu]
      exact ⟨fun ha => ⟨hc, ha.1.2, ha.2⟩, fun ha => ⟨⟨hi, ha.2.1⟩, ha.2.2⟩⟩
    · refine ⟨fun ha => absurd (hfirst ⟨ha.1.2, ha.2⟩) hit, fun ha => ?_⟩
      exact absurd ((hstep s i t hs hi ht).2 ha.1) hit

/-- A relation to an abstract state, kept when both sides take the input,
relates the ends of a run and of the abstract fold over its inputs. -/
theorem run_simulation (R : σ → α → Prop) (f : α → ι → α)
    (hstep : ∀ s a i t, R s a → step s i = some t → R t (f a i)) :
    ∀ {is : List ι} {s u : σ} {a : α}, R s a → run step s is = some u → R u (is.foldl f a)
  | [], s, u, a, hs, h => by simp at h; exact h ▸ hs
  | i :: is, s, u, a, hs, h => by
    obtain ⟨t, ht, hu⟩ := run_cons.1 h
    rw [List.foldl_cons]
    exact run_simulation R f hstep (hstep s a i t hs ht) hu

/-- A property of the inputs taken so far and the state they led to, kept by
every step, holds at the end of every run. -/
theorem run_history {s₀ : σ} (P : List ι → σ → Prop) (h₀ : P [] s₀)
    (hstep : ∀ is s i t, run step s₀ is = some s → P is s → step s i = some t → P (is ++ [i]) t)
    {is : List ι} {u : σ} (h : run step s₀ is = some u) : P is u := by
  induction is using List.reverseRecOn generalizing u with
  | nil => simp at h; exact h ▸ h₀
  | append_singleton is i ih =>
    obtain ⟨t, ht, hu⟩ := run_concat.1 h
    exact hstep is t i u ht (ih ht) hu

/-- Some step of the run from `s` has `P`, a property of the inputs before
it, the state before it and its own input. -/
def Occurs (step : σ → ι → Option σ) (s : σ) (is : List ι) (P : List ι → σ → ι → Prop) : Prop :=
  ∃ pre i post t, is = pre ++ i :: post ∧ run step s pre = some t ∧ P pre t i

theorem not_occurs_nil {s : σ} {P : List ι → σ → ι → Prop} : ¬ Occurs step s [] P := by
  intro he
  obtain ⟨pre, i, post, t, h, -⟩ := he
  simp at h

theorem occurs_concat {s t : σ} {is : List ι} {i : ι} {P : List ι → σ → ι → Prop}
    (h : run step s is = some t) : Occurs step s (is ++ [i]) P ↔ Occurs step s is P ∨ P is t i := by
  constructor
  · intro hx
    obtain ⟨pre, j, post, u, he, hu, hp⟩ := hx
    rcases List.eq_nil_or_concat post with rfl | ⟨post, k, rfl⟩
    · obtain ⟨rfl, rfl⟩ := List.append_singleton_inj.1 he
      rw [h] at hu
      cases hu
      exact .inr hp
    · rw [List.concat_eq_append, ← List.cons_append, ← List.append_assoc] at he
      obtain ⟨rfl, -⟩ := List.append_singleton_inj.1 he
      exact .inl ⟨pre, j, post, u, rfl, hu, hp⟩
  · intro hx
    rcases hx with ⟨pre, j, post, u, rfl, hu, hp⟩ | hp
    · exact ⟨pre, j, post ++ [i], u, by simp, hu, hp⟩
    · exact ⟨is, i, [], t, rfl, h, hp⟩

end Run
