/-
Calls whose effect has to be read off the memory. A call may have taken effect
before it knows its own answer, and it may do so in a move of another call, that
helps it. `HelpedIn` is what has to be shown of the moves: each makes at most one
call take effect, whichever. `HelpedIn.linearized` draws the conclusion for every
run whose moves all meet `C`.

`AtomicIn` is the case in which every call takes effect in a move of its own.
-/
import Learncc.Lib.Linearize

namespace Calls

variable {σ κ ω ι ρ α : Type*}

/-- What can be seen of a call without looking at the memory. -/
def View.plain (op : κ → ω) (answer : κ → Option ρ) : View κ ω ρ := { op, effect := answer, answer }

/-- The effect of the call at a place. -/
def effectAt (effect : σ → κ → Option ρ) (shared : σ) (calls : List κ) (i : ℕ) : Option ρ :=
  calls[i]?.bind (effect shared)

/-- Every move leaves the object and all effects alone, or is the one in which one
of the calls takes effect. -/
structure HelpedIn (p : Program σ κ ω ι) (C : Calls σ κ → Event ω ι → Prop) (op : κ → ω) (effect : σ → κ → Option ρ)
    (answer : κ → Option ρ) (spec : ω → α → ρ → α → Prop) (R : σ → List κ → α → Prop) : Prop where
  enter : ∀ o, op (p.enter o) = o ∧ ∀ shared, effect shared (p.enter o) = none
  answered : ∀ {shared c r}, answer c = some r → effect shared c = some r
  call : ∀ {shared calls a o}, R shared calls a → R shared (calls ++ [p.enter o]) a
  move : ∀ {shared calls a i c input c' shared'}, R shared calls a → C ⟨shared, calls⟩ (.move i input) →
    calls[i]? = some c → p.move c input shared = some (c', shared') → op c' = op c ∧
      ((∀ j, effectAt effect shared' (calls.set i c') j = effectAt effect shared calls j) ∧
          R shared' (calls.set i c') a ∨
        ∃ k d r a', calls[k]? = some d ∧ effect shared d = none ∧
          effectAt effect shared' (calls.set i c') k = some r ∧
          (∀ j, j ≠ k → effectAt effect shared' (calls.set i c') j = effectAt effect shared calls j) ∧
          spec (op d) a r a' ∧ R shared' (calls.set i c') a')

/-- The log has the calls that have taken effect. -/
def LoggedIn (op : κ → ω) (effect : σ → κ → Option ρ) (s : Calls σ κ) (log : List (ℕ × ω × ρ)) : Prop :=
  ∀ i o r, (i, o, r) ∈ log ↔ (s.calls[i]?).map op = some o ∧ effectAt effect s.shared s.calls i = some r

section

variable {p : Program σ κ ω ι} {C : Calls σ κ → Event ω ι → Prop} {op : κ → ω} {effect : σ → κ → Option ρ}
  {answer : κ → Option ρ} {spec : ω → α → ρ → α → Prop} {R : σ → List κ → α → Prop} {s t start : Calls σ κ}
  {log : List (ℕ × ω × ρ)} {events : List (Event ω ι)} {e : Event ω ι} {a a₀ : α} {i : ℕ}

theorem LoggedIn.mem_fst (h : LoggedIn op effect s log) :
    i ∈ log.map Prod.fst ↔ (effectAt effect s.shared s.calls i).isSome := by
  constructor
  · intro hm
    obtain ⟨⟨j, o, r⟩, he, rfl⟩ := List.mem_map.1 hm
    rw [((h j o r).1 he).2]
    rfl
  · intro hsome
    obtain ⟨r, hr⟩ := Option.isSome_iff_exists.1 hsome
    obtain ⟨c, hc, -⟩ := Option.bind_eq_some_iff.1 hr
    exact List.mem_map.2 ⟨(i, op c, r), (h i _ r).2 ⟨by rw [hc]; rfl, hr⟩, rfl⟩

/-- Nothing of the calls that can be seen changes but for one of them. -/
theorem LoggedIn.next {k : ℕ} {m : List (ℕ × ω × ρ)} (h : LoggedIn op effect s log)
    (hops : ∀ j o, effectAt effect t.shared t.calls j ≠ none →
      ((t.calls[j]?).map op = some o ↔ (s.calls[j]?).map op = some o))
    (hsame : ∀ j, j ≠ k → effectAt effect t.shared t.calls j = effectAt effect s.shared s.calls j)
    (hother : ∀ x ∈ m, x.1 = k)
    (hself : ∀ o r, (k, o, r) ∈ log ++ m ↔
      (t.calls[k]?).map op = some o ∧ effectAt effect t.shared t.calls k = some r) :
    LoggedIn op effect t (log ++ m) := by
  intro j o r
  by_cases hjk : j = k
  · rw [hjk]
    exact hself o r
  · have hmem : (j, o, r) ∈ log ++ m ↔ (j, o, r) ∈ log := by
      rw [List.mem_append]
      exact or_iff_left fun hm => hjk (hother _ hm)
    rw [hmem, h j o r, ← hsame j hjk]
    constructor
    · intro he
      obtain ⟨ho, hr⟩ := he
      exact ⟨(hops j o (by rw [hr]; simp)).2 ho, hr⟩
    · intro he
      obtain ⟨ho, hr⟩ := he
      exact ⟨(hops j o (by rw [hr]; simp)).1 ho, hr⟩

/-- What is kept along a run: each earlier state has a first part of the order. -/
structure OrderedIn (p : Program σ κ ω ι) (op : κ → ω) (effect : σ → κ → Option ρ) (spec : ω → α → ρ → α → Prop)
    (R : σ → List κ → α → Prop) (start : Calls σ κ) (a₀ : α) (events : List (Event ω ι)) (t : Calls σ κ)
    (log : List (ℕ × ω × ρ)) (a : α) : Prop where
  related : R t.shared t.calls a
  once : (log.map Prod.fst).Nodup
  logged : LoggedIn op effect t log
  legal : Replays spec a₀ (log.map Prod.snd) a
  earlier : ∀ pre s, pre <+: events → Run.run p.step start pre = some s →
    ∃ l m, log = l ++ m ∧ LoggedIn op effect s l

/-- A longer order for the state after one more event. -/
theorem OrderedIn.next {b : α} {m : List (ℕ × ω × ρ)} (h : OrderedIn p op effect spec R start a₀ events s log a)
    (hrun : Run.run p.step start (events ++ [e]) = some t) (hR : R t.shared t.calls b)
    (honce : ((log ++ m).map Prod.fst).Nodup) (hlogged : LoggedIn op effect t (log ++ m))
    (hlegal : Replays spec a₀ ((log ++ m).map Prod.snd) b) :
    OrderedIn p op effect spec R start a₀ (events ++ [e]) t (log ++ m) b := by
  refine ⟨hR, honce, hlogged, hlegal, fun pre u hpre hu => ?_⟩
  rcases List.prefix_concat_iff.1 hpre with rfl | hpre
  · rw [hrun] at hu
    cases hu
    exact ⟨log ++ m, [], (List.append_nil _).symm, hlogged⟩
  · obtain ⟨l, m', rfl, hl⟩ := h.earlier pre u hpre hu
    exact ⟨l, m' ++ m, List.append_assoc .., hl⟩

/-- An event in which no effect changes. -/
theorem OrderedIn.still (h : OrderedIn p op effect spec R start a₀ events s log a)
    (hrun : Run.run p.step start (events ++ [e]) = some t) (hR : R t.shared t.calls a)
    (hops : ∀ j o, effectAt effect t.shared t.calls j ≠ none →
      ((t.calls[j]?).map op = some o ↔ (s.calls[j]?).map op = some o))
    (hsame : ∀ j, effectAt effect t.shared t.calls j = effectAt effect s.shared s.calls j) :
    OrderedIn p op effect spec R start a₀ (events ++ [e]) t log a := by
  have hlogged : LoggedIn op effect t log := by
    intro j o r
    rw [h.logged j o r, ← hsame j]
    refine and_congr_left fun hr => (hops j o ?_).symm
    rw [hr]
    simp
  have hnext := h.next (m := []) hrun hR (by rw [List.append_nil]; exact h.once)
    (by rw [List.append_nil]; exact hlogged) (by rw [List.append_nil]; exact h.legal)
  rwa [List.append_nil] at hnext

theorem effectAt_concat_of_none {shared : σ} {calls : List κ} {c : κ} (hc : effect shared c = none) (j : ℕ) :
    effectAt effect shared (calls ++ [c]) j = effectAt effect shared calls j := by
  unfold effectAt
  rcases Nat.lt_trichotomy j calls.length with hlt | rfl | hgt
  · rw [List.getElem?_append_left hlt]
  · rw [List.getElem?_concat_length, List.getElem?_eq_none (Nat.le_refl _)]
    exact hc
  · rw [List.getElem?_eq_none (by simp; omega), List.getElem?_eq_none (Nat.le_of_lt hgt)]

theorem map_getElem?_set {calls : List κ} {c c' : κ} (hc : calls[i]? = some c) (hop : op c' = op c) (j : ℕ) :
    ((calls.set i c')[j]?).map op = (calls[j]?).map op := by
  by_cases hij : i = j
  · subst hij
    obtain ⟨hlt, -⟩ := List.getElem?_eq_some_iff.1 hc
    rw [List.getElem?_set_self hlt, hc]
    exact congrArg some hop
  · rw [List.getElem?_set_ne hij]

theorem effectAt_set_self {shared : σ} {calls : List κ} {c c' : κ} (hc : calls[i]? = some c) :
    effectAt effect shared (calls.set i c') i = effect shared c' := by
  obtain ⟨hlt, -⟩ := List.getElem?_eq_some_iff.1 hc
  rw [effectAt, List.getElem?_set_self hlt]
  rfl

theorem effectAt_set_ne {shared shared' : σ} {calls : List κ} {c' : κ} {j : ℕ} (hji : j ≠ i)
    (h : ∀ d, calls[j]? = some d → effect shared' d = effect shared d) :
    effectAt effect shared' (calls.set i c') j = effectAt effect shared calls j := by
  unfold effectAt
  rw [List.getElem?_set_ne hji.symm]
  cases hd : calls[j]? with
  | none => rfl
  | some d => exact h d hd

theorem HelpedIn.ordered_step (h : HelpedIn p C op effect answer spec R)
    (ho : OrderedIn p op effect spec R start a₀ events s log a) (hs : Run.run p.step start events = some s)
    (hC : C s e) (ht : p.step s e = some t) :
    ∃ log' b, OrderedIn p op effect spec R start a₀ (events ++ [e]) t log' b := by
  have hrun : Run.run p.step start (events ++ [e]) = some t := Run.run_concat.2 ⟨s, hs, ht⟩
  cases e with
  | call o =>
    cases ht
    have hnew := (h.enter o).2 s.shared
    refine ⟨log, a, ho.still hrun (h.call ho.related) (fun j o' hne => ?_) (effectAt_concat_of_none hnew)⟩
    -- A call with an effect is not the new one.
    rw [effectAt_concat_of_none hnew] at hne
    obtain ⟨r, hr⟩ := Option.ne_none_iff_exists'.1 hne
    obtain ⟨c, hc, -⟩ := Option.bind_eq_some_iff.1 hr
    obtain ⟨hlt, -⟩ := List.getElem?_eq_some_iff.1 hc
    rw [List.getElem?_append_left hlt]
  | move i input =>
    obtain ⟨c, c', shared, hc, hm, rfl⟩ := step_move_eq_some_iff.1 ht
    obtain ⟨hop, hcase⟩ := h.move ho.related hC hc hm
    have hops := map_getElem?_set hc hop
    rcases hcase with ⟨hsame, hR⟩ | ⟨k, d, r, a', hd, hnone, hr, hsame, hspec, hR⟩
    · exact ⟨log, a, ho.still hrun hR (fun j o _ => by rw [hops]) hsame⟩
    · have hbefore : effectAt effect s.shared s.calls k = none := by
        rw [effectAt, hd]
        exact hnone
      have hnot : k ∉ log.map Prod.fst := by
        rw [ho.logged.mem_fst, hbefore]
        simp
      have hopk : ((s.calls.set i c')[k]?).map op = some (op d) := by rw [hops, hd]; rfl
      refine ⟨log ++ [(k, op d, r)], a', ho.next hrun hR ?_ ?_ ?_⟩
      · rw [List.map_append]
        exact List.perm_append_comm.nodup_iff.2 (List.nodup_cons.2 ⟨hnot, ho.once⟩)
      · refine ho.logged.next (k := k) (fun j o _ => by rw [hops]) hsame (fun x hx => ?_) fun o r' => ?_
        · rw [List.mem_singleton.1 hx]
        · have hno : (k, o, r') ∉ log := fun hmem => hnot (List.mem_map.2 ⟨_, hmem, rfl⟩)
          rw [hopk, hr]
          simp [hno, eq_comm]
      · rw [List.map_append]
        exact ho.legal.concat hspec

/-- Every run of calls that take effect one at a time is a run of operations made
one after the other. -/
theorem HelpedIn.linearized {shared₀ : σ} (h : HelpedIn p C op effect answer spec R) (h₀ : R shared₀ [] a₀)
    (hC : Run.Along p.step C ⟨shared₀, []⟩ events) (ht : Run.run p.step ⟨shared₀, []⟩ events = some t) :
    ∃ log a, R t.shared t.calls a ∧ Linearized p (View.plain op answer) spec ⟨shared₀, []⟩ a₀ events t log a := by
  have hordered : ∃ log a, OrderedIn p op effect spec R ⟨shared₀, []⟩ a₀ events t log a := by
    refine Run.run_history (fun events s => Run.Along p.step C ⟨shared₀, []⟩ events →
      ∃ log a, OrderedIn p op effect spec R ⟨shared₀, []⟩ a₀ events s log a) (fun _ => ?_)
      (fun events s e t hs ih ht hC => ?_) ht hC
    · have hlogged : LoggedIn op effect (⟨shared₀, []⟩ : Calls σ κ) [] := fun i o r => by simp
      refine ⟨[], a₀, h₀, List.nodup_nil, hlogged, .nil a₀, fun pre s hpre hs => ?_⟩
      rw [List.prefix_nil.1 hpre] at hs
      cases hs
      exact ⟨[], [], rfl, hlogged⟩
    · obtain ⟨hbefore, hlast⟩ := Run.along_append.1 hC
      obtain ⟨log, a, ho⟩ := ih hbefore
      exact h.ordered_step ho hs (hlast s hs).1 ht
  obtain ⟨log, a, ho⟩ := hordered
  have hanswer : ∀ {s : Calls σ κ} {i c r}, s.calls[i]? = some c → answer c = some r →
      effectAt effect s.shared s.calls i = some r := by
    intro s i c r hc hr
    rw [effectAt, hc]
    exact h.answered hr
  refine ⟨log, a, ho.related, ho.once, fun {i o r} hmem => ?_, fun {i c r} hc hr => ?_, ho.legal,
    fun {pre s i c j} hpre hs hc hsome hj => ?_⟩
  · obtain ⟨hop, heff⟩ := (ho.logged i o r).1 hmem
    obtain ⟨c, hc, rfl⟩ := Option.map_eq_some_iff.1 hop
    refine ⟨c, hc, rfl, fun r' hr' => ?_⟩
    rw [hanswer hc hr'] at heff
    exact Option.some.inj heff
  · exact (ho.logged i _ r).2 ⟨by rw [hc]; rfl, hanswer hc hr⟩
  · obtain ⟨l, m, rfl, hl⟩ := ho.earlier pre s hpre hs
    obtain ⟨r, hr⟩ := Option.isSome_iff_exists.1 hsome
    refine ⟨l, m, rfl, hl.mem_fst.2 (by rw [hanswer hc hr]; rfl), fun hmem => ?_⟩
    have heff := hl.mem_fst.1 hmem
    rw [effectAt, List.getElem?_eq_none hj] at heff
    cases heff

/-! ## Without help -/

/-- Every move leaves the object alone, or is the one in which its call takes
effect; no move changes the effect of another call. -/
structure AtomicIn (p : Program σ κ ω ι) (op : κ → ω) (effect : σ → κ → Option ρ) (answer : κ → Option ρ)
    (spec : ω → α → ρ → α → Prop) (R : σ → List κ → α → Prop) : Prop where
  enter : ∀ o, op (p.enter o) = o ∧ ∀ shared, effect shared (p.enter o) = none
  answered : ∀ {shared c r}, answer c = some r → effect shared c = some r
  call : ∀ {shared calls a o}, R shared calls a → R shared (calls ++ [p.enter o]) a
  others : ∀ {shared calls a i c input c' shared'}, R shared calls a → calls[i]? = some c →
    p.move c input shared = some (c', shared') →
    ∀ (j : ℕ) (d : κ), j ≠ i → calls[j]? = some d → effect shared' d = effect shared d
  move : ∀ {shared calls a i c input c' shared'}, R shared calls a → calls[i]? = some c →
    p.move c input shared = some (c', shared') → op c' = op c ∧
      (effect shared' c' = effect shared c ∧ R shared' (calls.set i c') a ∨
        effect shared c = none ∧ ∃ r a', effect shared' c' = some r ∧ spec (op c) a r a' ∧
          R shared' (calls.set i c') a')

theorem AtomicIn.helpedIn (h : AtomicIn p op effect answer spec R) :
    HelpedIn p (fun _ _ => True) op effect answer spec R where
  enter := h.enter
  answered := h.answered
  call := h.call
  move := fun {shared calls a i c input c' shared'} hR _ hc hm => by
    have hself : effectAt effect shared' (calls.set i c') i = effect shared' c' := effectAt_set_self hc
    have hothers : ∀ j, j ≠ i → effectAt effect shared' (calls.set i c') j = effectAt effect shared calls j :=
      fun j hji => effectAt_set_ne hji (h.others hR hc hm j · hji)
    obtain ⟨hop, hcase⟩ := h.move hR hc hm
    refine ⟨hop, ?_⟩
    rcases hcase with ⟨hsame, hR'⟩ | ⟨hnone, r, a', hsome, hspec, hR'⟩
    · refine .inl ⟨fun j => ?_, hR'⟩
      by_cases hji : j = i
      · rw [hji, hself, hsame, effectAt, hc]
        rfl
      · exact hothers j hji
    · exact .inr ⟨i, c, r, a', hc, hnone, hself.trans hsome, hothers, hspec, hR'⟩

theorem AtomicIn.linearized {shared₀ : σ} (h : AtomicIn p op effect answer spec R) (h₀ : R shared₀ [] a₀)
    (ht : Run.run p.step ⟨shared₀, []⟩ events = some t) :
    ∃ log a, R t.shared t.calls a ∧ Linearized p (View.plain op answer) spec ⟨shared₀, []⟩ a₀ events t log a :=
  h.helpedIn.linearized h₀ (Run.along_of_forall (C := fun _ => True) fun _ _ => trivial) ht

end

end Calls
