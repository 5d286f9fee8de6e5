/-
Calls that take effect one at a time. Each call takes effect in one of its own
moves, between its start and its return; in the order in which they do so, the
calls are operations on one abstract object, made one after the other.

`Atomic` is what has to be shown of the moves, with a relation between the memory
and the object's state; `Atomic.linearized` draws the conclusion for every run.
-/
import Learncc.Lib.Calls

namespace Calls

variable {σ κ ω ι ρ α : Type*}

/-- What can be seen of a call: its operation, its answer once it has taken
effect, its answer once it has returned. -/
structure View (κ ω ρ : Type*) where
  op : κ → ω
  effect : κ → Option ρ
  answer : κ → Option ρ

/-- The operations, with these answers, lead from one state of the object to the
other; `spec o a r b` is one of them. -/
inductive Replays (spec : ω → α → ρ → α → Prop) : α → List (ω × ρ) → α → Prop
  | nil (a : α) : Replays spec a [] a
  | cons {a b d : α} {o : ω} {r : ρ} {l : List (ω × ρ)} (head : spec o a r b) (tail : Replays spec b l d) :
      Replays spec a ((o, r) :: l) d

/-- Call `i` is in the order, and `j` not before it. -/
def Before (log : List (ℕ × ω × ρ)) (i j : ℕ) : Prop :=
  ∃ l m, log = l ++ m ∧ i ∈ l.map Prod.fst ∧ j ∉ l.map Prod.fst

/-- `log` is an order of the calls: each at most once, with its own operation and
answer; those that have returned all; legal for the object; and a call that has
returned before another was made comes before it. -/
structure Linearized (p : Program σ κ ω ι) (view : View κ ω ρ) (spec : ω → α → ρ → α → Prop) (start : Calls σ κ)
    (a₀ : α) (events : List (Event ω ι)) (t : Calls σ κ) (log : List (ℕ × ω × ρ)) (a : α) : Prop where
  once : (log.map Prod.fst).Nodup
  made : ∀ {i o r}, (i, o, r) ∈ log →
    ∃ c, t.calls[i]? = some c ∧ view.op c = o ∧ ∀ r', view.answer c = some r' → r' = r
  returned : ∀ {i c r}, t.calls[i]? = some c → view.answer c = some r → (i, view.op c, r) ∈ log
  legal : Replays spec a₀ (log.map Prod.snd) a
  realTime : ∀ {pre s i c j}, pre <+: events → Run.run p.step start pre = some s → s.calls[i]? = some c →
    (view.answer c).isSome → s.calls.length ≤ j → Before log i j

/-- Every move leaves the object alone, or is the one in which its call takes
effect. -/
structure Atomic (p : Program σ κ ω ι) (view : View κ ω ρ) (spec : ω → α → ρ → α → Prop)
    (R : σ → List κ → α → Prop) : Prop where
  enter : ∀ o, view.op (p.enter o) = o ∧ view.effect (p.enter o) = none
  answer : ∀ {c r}, view.answer c = some r → view.effect c = some r
  call : ∀ {shared calls a o}, R shared calls a → R shared (calls ++ [p.enter o]) a
  move : ∀ {shared calls a i c input c' shared'}, R shared calls a → calls[i]? = some c →
    p.move c input shared = some (c', shared') → view.op c' = view.op c ∧
      (view.effect c' = view.effect c ∧ R shared' (calls.set i c') a ∨
        view.effect c = none ∧ ∃ r a', view.effect c' = some r ∧ spec (view.op c) a r a' ∧
          R shared' (calls.set i c') a')

variable {p : Program σ κ ω ι} {view : View κ ω ρ} {spec : ω → α → ρ → α → Prop} {R : σ → List κ → α → Prop}

theorem Replays.concat {a b d : α} {l : List (ω × ρ)} {o : ω} {r : ρ} (h : Replays spec a l b) (hs : spec o b r d) :
    Replays spec a (l ++ [(o, r)]) d := by
  induction h with
  | nil a => exact .cons hs (.nil d)
  | cons head tail ih => exact .cons head (ih hs)

/-- The log has the calls that have taken effect. -/
def Logged (view : View κ ω ρ) (calls : List κ) (log : List (ℕ × ω × ρ)) : Prop :=
  ∀ i o r, (i, o, r) ∈ log ↔ ∃ c, calls[i]? = some c ∧ view.op c = o ∧ view.effect c = some r

section

variable {calls : List κ} {log : List (ℕ × ω × ρ)} {i : ℕ} {c c' : κ}

theorem Logged.mem_fst (h : Logged view calls log) : i ∈ log.map Prod.fst ↔
    ∃ c, calls[i]? = some c ∧ (view.effect c).isSome := by
  constructor
  · intro hm
    obtain ⟨⟨j, o, r⟩, he, rfl⟩ := List.mem_map.1 hm
    obtain ⟨c, hc, -, hr⟩ := (h j o r).1 he
    exact ⟨c, hc, by rw [hr]; rfl⟩
  · intro he
    obtain ⟨c, hc, hsome⟩ := he
    obtain ⟨r, hr⟩ := Option.isSome_iff_exists.1 hsome
    exact List.mem_map.2 ⟨(i, view.op c, r), (h i _ r).2 ⟨c, hc, rfl, hr⟩, rfl⟩

theorem Logged.call (h : Logged view calls log) (hc : view.effect c = none) : Logged view (calls ++ [c]) log := by
  intro i o r
  rw [h]
  constructor
  · intro he
    obtain ⟨d, hd, hrest⟩ := he
    obtain ⟨hlt, -⟩ := List.getElem?_eq_some_iff.1 hd
    exact ⟨d, by rw [List.getElem?_append_left hlt]; exact hd, hrest⟩
  · intro he
    obtain ⟨d, hd, ho, hr⟩ := he
    rcases getElem?_concat_cases hd with hd | ⟨-, rfl⟩
    · exact ⟨d, hd, ho, hr⟩
    · rw [hc] at hr
      cases hr

/-- Only the call that moves can have come to take effect. -/
theorem Logged.move {log' : List (ℕ × ω × ρ)} (h : Logged view calls log) (hi : calls[i]? = some c)
    (hsame : ∀ j o r, j ≠ i → ((j, o, r) ∈ log' ↔ (j, o, r) ∈ log))
    (hself : ∀ o r, (i, o, r) ∈ log' ↔ view.op c' = o ∧ view.effect c' = some r) :
    Logged view (calls.set i c') log' := by
  intro j o r
  by_cases hji : j = i
  · subst hji
    obtain ⟨hlt, -⟩ := List.getElem?_eq_some_iff.1 hi
    rw [hself, List.getElem?_set_self hlt]
    simp
  · rw [hsame j o r hji, h, List.getElem?_set_ne (Ne.symm hji)]

end

/-- What is kept along a run: each earlier state has a first part of the order. -/
structure Ordered (p : Program σ κ ω ι) (view : View κ ω ρ) (spec : ω → α → ρ → α → Prop) (R : σ → List κ → α → Prop)
    (start : Calls σ κ) (a₀ : α) (events : List (Event ω ι)) (t : Calls σ κ) (log : List (ℕ × ω × ρ)) (a : α) :
    Prop where
  related : R t.shared t.calls a
  once : (log.map Prod.fst).Nodup
  logged : Logged view t.calls log
  legal : Replays spec a₀ (log.map Prod.snd) a
  earlier : ∀ pre s, pre <+: events → Run.run p.step start pre = some s → ∃ l m, log = l ++ m ∧ Logged view s.calls l

section

variable {start s t : Calls σ κ} {a₀ a b : α} {events : List (Event ω ι)} {e : Event ω ι} {log m : List (ℕ × ω × ρ)}

/-- A longer order for the state after one more event. -/
theorem Ordered.next (h : Ordered p view spec R start a₀ events s log a)
    (hrun : Run.run p.step start (events ++ [e]) = some t) (hR : R t.shared t.calls b)
    (honce : ((log ++ m).map Prod.fst).Nodup) (hlogged : Logged view t.calls (log ++ m))
    (hlegal : Replays spec a₀ ((log ++ m).map Prod.snd) b) :
    Ordered p view spec R start a₀ (events ++ [e]) t (log ++ m) b := by
  refine ⟨hR, honce, hlogged, hlegal, fun pre u hpre hu => ?_⟩
  rcases List.prefix_concat_iff.1 hpre with rfl | hpre
  · rw [hrun] at hu
    cases hu
    exact ⟨log ++ m, [], (List.append_nil _).symm, hlogged⟩
  · obtain ⟨l, m', rfl, hl⟩ := h.earlier pre u hpre hu
    exact ⟨l, m' ++ m, List.append_assoc .., hl⟩

theorem Atomic.ordered_step (h : Atomic p view spec R) (ho : Ordered p view spec R start a₀ events s log a)
    (hs : Run.run p.step start events = some s) (ht : p.step s e = some t) :
    ∃ log' b, Ordered p view spec R start a₀ (events ++ [e]) t log' b := by
  have hrun : Run.run p.step start (events ++ [e]) = some t := Run.run_concat.2 ⟨s, hs, ht⟩
  have hsame : log ++ [] = log := List.append_nil log
  cases e with
  | call o =>
    cases ht
    refine ⟨_, a, ho.next (m := []) hrun (h.call ho.related) ?_ ?_ ?_⟩
    · exact hsame.symm ▸ ho.once
    · exact hsame.symm ▸ ho.logged.call (h.enter o).2
    · exact hsame.symm ▸ ho.legal
  | move i input =>
    obtain ⟨c, c', shared, hc, hm, rfl⟩ := step_move_eq_some_iff.1 ht
    obtain ⟨hop, hcase⟩ := h.move ho.related hc hm
    rcases hcase with ⟨heff, hR⟩ | ⟨hnone, r, a', heff, hspec, hR⟩
    · refine ⟨_, a, ho.next (m := []) hrun hR ?_ ?_ ?_⟩
      · exact hsame.symm ▸ ho.once
      · rw [hsame]
        refine ho.logged.move hc (fun j o r _ => Iff.rfl) fun o r => ?_
        rw [ho.logged, hop, heff, hc]
        simp
      · exact hsame.symm ▸ ho.legal
    · have hnot : i ∉ log.map Prod.fst := by
        intro hmem
        obtain ⟨d, hd, hsome⟩ := ho.logged.mem_fst.1 hmem
        rw [hc] at hd
        cases hd
        rw [hnone] at hsome
        cases hsome
      refine ⟨_, a', ho.next (m := [(i, view.op c, r)]) hrun hR ?_ ?_ ?_⟩
      · rw [List.map_append]
        exact List.perm_append_comm.nodup_iff.2 (List.nodup_cons.2 ⟨hnot, ho.once⟩)
      · refine ho.logged.move hc (fun j o r' hji => ?_) fun o r' => ?_
        · simp [hji]
        · have hno : (i, o, r') ∉ log := fun hmem => hnot (List.mem_map.2 ⟨_, hmem, rfl⟩)
          simp [hno, hop, heff, eq_comm]
      · rw [List.map_append]
        exact ho.legal.concat hspec

/-- Every run of calls that take effect in a move of their own is a run of
operations made one after the other. -/
theorem Atomic.linearized {shared₀ : σ} (h : Atomic p view spec R) (h₀ : R shared₀ [] a₀)
    (ht : Run.run p.step ⟨shared₀, []⟩ events = some t) :
    ∃ log a, R t.shared t.calls a ∧ Linearized p view spec ⟨shared₀, []⟩ a₀ events t log a := by
  have hstart : Ordered p view spec R ⟨shared₀, []⟩ a₀ [] ⟨shared₀, []⟩ [] a₀ := by
    have hlogged : Logged view ([] : List κ) ([] : List (ℕ × ω × ρ)) := fun i o r => by simp
    refine ⟨h₀, List.nodup_nil, hlogged, .nil a₀, fun pre s hpre hs => ?_⟩
    rw [List.prefix_nil.1 hpre] at hs
    cases hs
    exact ⟨[], [], rfl, hlogged⟩
  obtain ⟨log, a, ho⟩ := Run.run_history
    (fun events s => ∃ log a, Ordered p view spec R ⟨shared₀, []⟩ a₀ events s log a) ⟨[], a₀, hstart⟩
    (fun events s e t hs ⟨_, _, ho⟩ ht => h.ordered_step ho hs ht) ht
  refine ⟨log, a, ho.related, ho.once, fun hmem => ?_, fun hc hr => ?_, ho.legal, fun hpre hs hc hsome hj => ?_⟩
  · obtain ⟨c, hc, hop, heff⟩ := (ho.logged _ _ _).1 hmem
    refine ⟨c, hc, hop, fun r' hr' => ?_⟩
    rw [h.answer hr'] at heff
    exact Option.some.inj heff
  · exact (ho.logged _ _ _).2 ⟨_, hc, rfl, h.answer hr⟩
  · obtain ⟨l, m, rfl, hl⟩ := ho.earlier _ _ hpre hs
    obtain ⟨r, hr⟩ := Option.isSome_iff_exists.1 hsome
    refine ⟨l, m, rfl, hl.mem_fst.2 ⟨_, hc, by rw [h.answer hr]; rfl⟩, fun hmem => ?_⟩
    obtain ⟨d, hd, -⟩ := hl.mem_fst.1 hmem
    rw [List.getElem?_eq_none hj] at hd
    cases hd

end

end Calls
