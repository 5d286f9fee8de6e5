/-
The page cache while its callers' counts come late.

Only the sections under the page cache's mutex run one at a time. `tc_malloc`
and `fetch_range_block` store the count of a span after `new_span` has let go
of the mutex; `release_to_spans` and `tc_free` take it back to 0 before
`release_to_pagecache` takes the mutex. In between another thread may release
a neighbour, whose loops take every span with count 0 for a free one.

`run_merges_listed`: a run merges only spans that are on their lists exactly
when no span is released while another one that was given out counts 0 near
it.
-/
import Learncc.MemoryPool.PageAccounting

namespace Learncc

namespace PageCache

open Intervals

section

variable {pc pc' : PageCache} {U : SpanPtr → Prop} {r : Ranges SpanPtr} {stale : ℕ → Prop} {p q : SpanPtr}
  {s s' t u : Span} {k : ℕ}

/-! ## What a merge leaves near -/

/-- A span in use shares no page with a free one. -/
theorem Inv.free_apart (h : Inv pc U r stale) (hp : U p) (hs : pc.spans p = some s) (hq : q ∈ pc.pageList k)
    (ht : pc.spans q = some t) {x : ℕ} (hx : s.Pages x) : ¬ t.Pages x := by
  intro hx'
  have hqp := h.layout.eq_of_mem (h.free_of hq ht).1 (h.on hs (.inl hp)) hx' hx
  exact h.apart hq (hqp ▸ hp)

/-- Without the pages of the free span `q` the others are still free. -/
theorem FreePages.without {a b : ℕ} (h : FreePages pc a b) (ht : pc.spans q = some t)
    (hfree : ∀ j x v, x ∈ pc'.pageList j ∧ pc'.spans x = some v ↔ (x ∈ pc.pageList j ∧ pc.spans x = some v) ∧ x ≠ q)
    (hout : ∀ x, a ≤ x → x < b → ¬ t.Pages x) : FreePages pc' a b := by
  intro x h1 h2
  obtain ⟨j, y, v, hy, hv, hx⟩ := h x h1 h2
  have hyq : y ≠ q := by
    intro he
    subst he
    rw [ht] at hv
    cases hv
    exact hout x h1 h2 hx
  obtain ⟨hy', hv'⟩ := (hfree j y v).2 ⟨⟨hy, hv⟩, hyq⟩
  exact ⟨j, y, v, hy', hv', hx⟩

/-- A span near `p` is near after the free span before `p` took over. -/
theorem Near.merge_prev (hnear : Near pc s u) (hq : q ∈ pc.pageList k) (ht : pc.spans q = some t)
    (hadj : t.pageId + t.npages = s.pageId) (hsum : t.npages + s.npages < NPAGES) (ha : s'.pageId = t.pageId)
    (hn : s'.npages = t.npages + s.npages)
    (hfree : ∀ j x v, x ∈ pc'.pageList j ∧ pc'.spans x = some v ↔ (x ∈ pc.pageList j ∧ pc.spans x = some v) ∧ x ≠ q)
    (hpos : 0 < u.npages) (hapart : ∀ x, u.Pages x → ¬ t.Pages x) : Near pc' s' u := by
  rcases hnear with ⟨hle, hbetween, hshort⟩ | ⟨hle, hbetween, a, hfront, hshort⟩
  · -- The span does not reach into `q`, so it ends before `q` starts.
    have hbefore : u.pageId + u.npages ≤ t.pageId := by
      have hlast := hapart (u.pageId + u.npages - 1) ⟨by omega, by omega⟩
      unfold Span.Pages at hlast
      omega
    have hpages : FreePages pc (u.pageId + u.npages) t.pageId := fun x h1 h2 => hbetween x h1 (by omega)
    refine .inl ⟨by omega, ?_, by omega⟩
    rw [ha]
    refine hpages.without ht hfree fun x _ h2 hx => ?_
    have := hx.1
    omega
  · have hend : s'.pageId + s'.npages = s.pageId + s.npages := by omega
    refine .inr ⟨by omega, ?_, a, (front_merged hq ht hadj hsum ha hn hfree).2 hfront, hshort⟩
    rw [hend]
    refine hbetween.without ht hfree fun x h1 _ hx => ?_
    have := hx.2
    omega

/-- Two answers to where the first loop stops are one. -/
theorem Front.unique {a b : ℕ} (ha : Front pc s a) (hb : Front pc s b) : a = b :=
  Nat.le_antisymm (ha.2 b hb.1) (hb.2 a ha.1)

/-! ## The loops meet the span -/

/-- The map finds a span in use or free by each of its pages, if it is short. -/
theorem Inv.finds (h : Inv pc U r stale) {x : ℕ} (hs : pc.spans p = some s) (hact : U p ∨ p ∈ pc.pageList s.npages)
    (hlt : s.npages < NPAGES) (hx : s.Pages x) (hst : ¬ stale x) : pc.pageidSpanMap x = some p :=
  (h.layout.found x p hst).2 ((finds_of_eq (h.on hs hact)).2 ⟨hx.1, hx.2, .inl hlt⟩)

/-- A span in use is on no list to be taken off. -/
theorem Inv.erase_inUse (h : Inv pc U r stale) (hp : U p) (k : ℕ) : pc.erase k p = .error .undefined :=
  if_neg fun hk => h.apart hk hp

/-- Where the first loop stops no span in use with count 0 lies before. -/
theorem Inv.stops_before (h : Inv pc U r stale) (hp : U p) (hs : pc.spans p = some s)
    (hst : ∀ x, stale x → s.Pages x) (hfront : Front pc s s.pageId) {fuel : ℕ}
    (heq : mergePrev (fuel + 1) pc p = .ok (pc, p)) (hq : U q) (hu : pc.spans q = some u)
    (hcount : u.usedCount = 0) (hle : u.pageId + u.npages ≤ s.pageId)
    (hbetween : FreePages pc (u.pageId + u.npages) s.pageId) (hshort : s.pageId + s.npages < u.pageId + NPAGES) :
    False := by
  obtain ⟨ha, hn, htop⟩ := h.layout.bound (h.on hs (.inl hp))
  obtain ⟨hua, hun, -⟩ := h.layout.bound (h.on hu (.inl hq))
  have hout : ¬ stale (s.pageId - 1) := by
    intro hx
    have := (hst _ hx).1
    omega
  by_cases hadj : u.pageId + u.npages = s.pageId
  · -- The map finds the span next to `p`, and it is taken for a free one.
    have hfound : pc.pageidSpanMap (dec64 s.pageId) = some q := by
      rw [SizeClass.dec64_eq ha (by omega)]
      exact h.finds hu (.inl hq) (by omega) ⟨by omega, by omega⟩ hout
    have hsum : ¬ NPAGES ≤ size64 (u.npages + s.npages) := by
      rw [size64, Nat.mod_eq_of_lt (by omega)]
      omega
    simp only [mergePrev, bind, Except.bind, deref_eq hs, hfound, deref_eq hu, hcount, ne_eq, not_true_eq_false,
      if_false, if_neg hsum, h.erase_inUse hq, reduceCtorEq] at heq
  · -- A free span lies between, and the loop would take it over.
    obtain ⟨k, y, v, hy, hv, hx⟩ := hbetween (s.pageId - 1) (by omega) (by omega)
    have hend := h.free_end hp hs hy hv hx
    have hstart : u.pageId + u.npages ≤ v.pageId := by
      have hlast := h.free_apart hq hu hy hv (x := u.pageId + u.npages - 1) ⟨by omega, by omega⟩
      unfold Span.Pages at hlast
      have := hx.1
      omega
    have hpos := (h.layout.bound (h.free_of hy hv).1).2.1
    have hreach : Reaches pc s v.pageId :=
      ⟨by omega, fun x h1 h2 => hbetween x (by omega) h2, by omega, .inr ⟨k, y, v, hy, hv, rfl⟩⟩
    have := hfront.2 _ hreach
    omega

/-- The first loop ends in a span that is on no list, or leaves it to the second. -/
theorem mergePrev_meets {fuel : ℕ} : ∀ {pc : PageCache} {U : SpanPtr → Prop} {r : Ranges SpanPtr} {stale : ℕ → Prop}
    {p : SpanPtr} {s : Span}, Inv pc U r stale → U p → pc.spans p = some s → s.usedCount = 0 → s.npages < NPAGES →
    (∀ x, stale x → s.Pages x) → ¬ Clear pc U p → NPAGES ≤ fuel + s.npages →
    mergePrev fuel pc p = .error .undefined ∨
      ∃ pc' p', mergePrev fuel pc p = .ok (pc', p') ∧ Merged pc U p pc' p' ∧
        ¬ ClearBehind pc' (fun q => U q ∧ q ≠ p ∨ q = p') p' := by
  induction fuel with
  | zero =>
    intro pc U r stale p s _ _ _ _ hlt _ _ hfuel
    omega
  | succ fuel ih =>
    intro pc U r stale p s h hp hs hu hlt hst hnot hfuel
    simp only [Clear, not_forall, not_not] at hnot
    obtain ⟨s₀, x, u, hs₀, hxU, hxp, hux, hxc, hnear⟩ := hnot
    rw [hs] at hs₀
    cases hs₀
    rcases mergePrev_cases h hp hs hlt hst with
      ⟨hfront, heq⟩ | ⟨q, t, -, hqp, ht, hcount, -, hsum, hadj, hact, heq⟩
    · refine .inr ⟨pc, p, heq fuel, Merged.refl h hp hs hu hlt hst, fun hclear => ?_⟩
      rcases hnear with ⟨hle, hbetween, hshort⟩ | ⟨hle, hbetween, a, hfa, hshort⟩
      · exact h.stops_before hp hs hst hfront (heq fuel) hxU hux hxc hle hbetween hshort
      · have hlong := hclear s x u hs (.inl ⟨hxU, hxp⟩) hxp hux hxc hle hbetween
        have := hfront.unique hfa
        omega
    · rcases hact with hqU | ⟨hl, hqU⟩
      · exact .inl (by rw [heq fuel, h.erase_inUse hqU]; rfl)
      · have hn := (h.layout.bound (h.free_of hl ht).1).2.1
        obtain ⟨-, hupos, -⟩ := h.layout.bound (h.on hux (.inl hxU))
        obtain ⟨pc₁, r', herase, h₁, hqs, hframe⟩ := mergePrev_step h hp hs hst ht hl hadj
        have hxq : x ≠ q := by
          intro he
          exact hqU (he ▸ hxU)
        have hnot₁ : ¬ Clear _ (fun x => (U x ∨ x = q) ∧ x ≠ p) q := fun hclear =>
          hclear _ x u hqs ⟨.inl hxU, hxp⟩ hxq ((hframe x hxp hxq).trans hux) hxc
            (hnear.merge_prev hl ht hadj hsum rfl rfl (h.free_merged hp hl herase (by rfl) hframe) hupos
              fun y hy => h.free_apart hxU hux hl ht hy)
        rcases ih h₁ ⟨.inr rfl, hqp⟩ hqs hcount (by simp only; omega) (fun x hx => hx) hnot₁ (by simp only; omega) with
          hres | ⟨pc', p', hres, hm, hbehind⟩
        · exact .inl (by rw [heq fuel, herase]; exact hres)
        · refine .inr ⟨pc', p', by rw [heq fuel, herase]; exact hres, hm.of_prev hqU hframe, fun hclear => hbehind ?_⟩
          exact fun s₁ y v hs₁ hy => hclear s₁ y v hs₁ ((inUse_prev hqU y).2 hy)

/-- The second loop ends in the span behind. -/
theorem mergeNext_meets {fuel : ℕ} : ∀ {pc : PageCache} {U : SpanPtr → Prop} {r : Ranges SpanPtr}
    {p : SpanPtr} {s : Span}, Inv pc U r s.Pages → U p → pc.spans p = some s → s.npages < NPAGES →
    ¬ ClearBehind pc U p → NPAGES ≤ fuel + s.npages → mergeNext fuel pc p = .error .undefined := by
  induction fuel with
  | zero =>
    intro pc U r p s _ _ _ hlt _ hfuel
    omega
  | succ fuel ih =>
    intro pc U r p s h hp hs hlt hnot hfuel
    simp only [ClearBehind, not_forall, Nat.not_le] at hnot
    obtain ⟨s₀, x, u, hs₀, hxU, hxp, hux, hxc, hle, hbetween, hshort⟩ := hnot
    rw [hs] at hs₀
    cases hs₀
    obtain ⟨-, hpos, -⟩ := h.layout.bound (h.on hs (.inl hp))
    obtain ⟨-, hupos, -⟩ := h.layout.bound (h.on hux (.inl hxU))
    have hout : ¬ s.Pages (s.pageId + s.npages) := by
      unfold Span.Pages
      omega
    rcases mergeNext_cases h hp hs hlt fun _ hx => hx with
      ⟨hstop, -⟩ | ⟨q, t, -, hqp, ht, hcount, -, hsum, hadj, hact, heq⟩
    · by_cases hadj : u.pageId = s.pageId + s.npages
      · have hfound := h.finds hux (.inl hxU) (by omega) (x := s.pageId + s.npages) ⟨by omega, by omega⟩ hout
        have hlong := hstop x u hfound hux hxc
        omega
      · -- The free span behind is short enough, since it ends before the other one starts.
        obtain ⟨k, y, v, hy, hv, hx⟩ := hbetween (s.pageId + s.npages) (Nat.le_refl _) (by omega)
        obtain ⟨-, rfl, hvlt, hvc⟩ := h.free_of hy hv
        have hlong := hstop y v (h.finds hv (.inr hy) hvlt hx hout) hv hvc
        have hstart : s.pageId + s.npages ≤ v.pageId := by
          have hlast := h.free_apart hp hs hy hv (x := s.pageId + s.npages - 1) ⟨by omega, by omega⟩
          unfold Span.Pages at hlast hx
          omega
        have hend : v.pageId + v.npages ≤ u.pageId := by
          have hfirst := h.free_apart hxU hux hy hv (x := u.pageId) ⟨by omega, by omega⟩
          unfold Span.Pages at hfirst hx
          omega
        omega
    · rcases hact with hqU | ⟨hl, hqU⟩
      · rw [heq fuel, h.erase_inUse hqU]
        rfl
      · have hn := (h.layout.bound (h.free_of hl ht).1).2.1
        obtain ⟨pc₁, r', herase, h₁, hps, hother⟩ := mergeNext_step h hp hs (fun _ hx => hx) ht hl hadj
        have hxq : x ≠ q := by
          intro he
          exact hqU (he ▸ hxU)
        have hbehind : t.pageId + t.npages ≤ u.pageId := by
          have hfirst := h.free_apart hxU hux hl ht (x := u.pageId) ⟨by omega, by omega⟩
          unfold Span.Pages at hfirst
          omega
        have hnot₁ : ¬ ClearBehind ((pc₁.setSpan p { s with npages := s.npages + t.npages }).deleteSpan q) U p := by
          intro hclear
          have hlong := hclear _ x u hps hxU hxp ((hother x hxp hxq).trans hux) hxc (by simp only; omega) ?_
          · simp only at hlong
            omega
          · have hpages : FreePages pc (s.pageId + (s.npages + t.npages)) u.pageId :=
              fun y h1 h2 => hbetween y (by omega) h2
            refine hpages.without ht (h.free_merged hp hl herase (by rfl) hother) fun y h1 _ hy => ?_
            have := hy.2
            omega
        rw [heq fuel, herase]
        exact ih h₁ hp hps (by simp only; omega) hnot₁ (by simp only; omega)

/-- A span of 128 pages or more is near nothing: it goes back to the system. -/
theorem clear_of_long (hs : pc.spans p = some s) (hlong : NPAGES ≤ s.npages) (hpos : ∀ q t, U q → pc.spans q = some t →
    0 < t.npages) : Clear pc U p := by
  intro s₀ q t hs₀ hq _ ht _ hnear
  rw [hs] at hs₀
  cases hs₀
  have htpos := hpos q t hq ht
  rcases hnear with ⟨hle, -, hshort⟩ | ⟨-, -, a, ⟨hreach, -⟩, -⟩
  · omega
  · have hle := hreach.le
    have hshort := hreach.short
    omega

/-- `release_to_pagecache` runs into a span that is on no list where one in use with count 0
is near, and only there. -/
theorem releaseToPagecache_clear_iff (h : Inv pc U r exact) (hp : U p) (hs : pc.spans p = some s)
    (hu : s.usedCount = 0) (ok : Bool) : (∃ pc', pc.releaseToPagecache p ok = .ok pc') ↔ Clear pc U p := by
  constructor
  · intro he
    obtain ⟨pc', hrel⟩ := he
    by_contra hnot
    by_cases hlong : NPAGES ≤ s.npages
    · exact hnot (clear_of_long hs hlong fun q t hq ht => (h.layout.bound (h.on ht (.inl hq))).2.1)
    · have hlt : s.npages < NPAGES := by omega
      simp only [releaseToPagecache, bind, Except.bind, deref_eq hs, if_neg hlong] at hrel
      rcases mergePrev_meets h hp hs hu hlt (fun _ hx => hx.elim) hnot (Nat.le_add_right _ _) with
        heq | ⟨pc₁, p₁, heq, ⟨⟨r₁, s₁, h₁, hs₁, -, hlt₁⟩, -, -⟩, hbehind⟩
      · simp only [heq, reduceCtorEq] at hrel
      · have hnext := mergeNext_meets h₁ (.inr rfl) hs₁ hlt₁ hbehind (Nat.le_add_right _ _)
        simp only [heq, hnext, reduceCtorEq] at hrel
  · intro hclear
    obtain ⟨pc', -, hrel, -⟩ := releaseToPagecache_clear h hp hs hu hclear ok
    exact ⟨pc', hrel⟩

end

end PageCache

/-- The page cache, the spans its callers have from it, and whether a section has run into
undefined behaviour. -/
structure SharedPages where
  sys : PageSys
  failed : Bool

/-- A section under the mutex of the page cache, or what the holder of a span stores in it
outside: the fields the page cache does not own. -/
inductive PageEvent
  | newSpan (n : ℕ) (os : Option ℕ)
  | store (p : SpanPtr) (blockSize usedCount : ℕ)
  | release (p : SpanPtr) (munmapOk : Bool)
deriving Repr, DecidableEq

namespace SharedPages

open PageCache

/-- A new span object is one whose count reads 0. -/
def init : SharedPages := ⟨PageSys.init, false⟩

/-- Whose turn comes next is up to the events. `tc_malloc` and `get_one_span` ask for less
than `2^52` pages, and a span is released with count 0, by who has it. -/
def step (s : SharedPages) : PageEvent → Option SharedPages
  | .newSpan n os =>
    if s.failed = false ∧ 0 < n ∧ n < 2 ^ 52 ∧ s.sys.pc.MmapOk (requested n) os then
      match s.sys.pc.newSpan n os with
      | .ok (pc, p) => some { s with sys := ⟨pc, p :: s.sys.inUse⟩ }
      | .error .badAlloc => some s
      | .error _ => some { s with failed := true }
    else none
  | .store p blockSize usedCount =>
    if s.failed = false ∧ p ∈ s.sys.inUse then
      (s.sys.pc.spans p).map fun t =>
        { s with sys := { s.sys with pc := s.sys.pc.setSpan p { t with blockSize, usedCount } } }
    else none
  | .release p munmapOk =>
    if s.failed = false ∧ p ∈ s.sys.inUse ∧ (s.sys.pc.spans p).map Span.usedCount = some 0 then
      match s.sys.pc.releaseToPagecache p munmapOk with
      | .ok pc => some { s with sys := ⟨pc, s.sys.inUse.erase p⟩ }
      | .error _ => some { s with failed := true }
    else none

/-- No span is released while another one given out counts 0 near it. -/
def Timely (s : SharedPages) : PageEvent → Prop
  | .release p _ => Clear s.sys.pc (· ∈ s.sys.inUse) p
  | _ => True

/-- The spans given out and the free ones tile the pages from the system. -/
structure Inv (s : SharedPages) : Prop where
  pc : ∃ r, s.sys.pc.Inv (· ∈ s.sys.inUse) r exact
  nodup : s.sys.inUse.Nodup

theorem init_inv : init.Inv := ⟨PageSys.init_inv.pc, PageSys.init_inv.nodup⟩

/-! ## One section -/

section

variable {s t : SharedPages}

theorem newSpan_step (h : s.Inv) {n : ℕ} {os : Option ℕ} (hs : s.step (.newSpan n os) = some t) :
    t.Inv ∧ t.failed = false := by
  obtain ⟨r, hpc⟩ := h.pc
  by_cases hg : s.failed = false ∧ 0 < n ∧ n < 2 ^ 52 ∧ s.sys.pc.MmapOk (requested n) os
  · obtain ⟨hrun, hn, h52, hok⟩ := hg
    simp only [step, if_pos (show s.failed = false ∧ 0 < n ∧ n < 2 ^ 52 ∧ s.sys.pc.MmapOk (requested n) os from
      ⟨hrun, hn, h52, hok⟩)] at hs
    rcases newSpan_spec hpc hn h52 hok with ⟨heq, -⟩ | ⟨pc', p, u, heq, ⟨⟨r', hinv⟩, hnew, -, -⟩, -⟩
    · simp only [heq, Option.some.injEq] at hs
      subst hs
      exact ⟨h, hrun⟩
    · simp only [heq, Option.some.injEq] at hs
      subst hs
      refine ⟨⟨⟨r', hinv.congr fun q => ?_⟩, List.nodup_cons.2 ⟨hnew, h.nodup⟩⟩, hrun⟩
      simp only [List.mem_cons]
      exact or_comm
  · simp only [step, if_neg hg, reduceCtorEq] at hs

theorem store_step (h : s.Inv) {p : SpanPtr} {blockSize usedCount : ℕ}
    (hs : s.step (.store p blockSize usedCount) = some t) : t.Inv ∧ t.failed = false := by
  obtain ⟨r, hpc⟩ := h.pc
  by_cases hg : s.failed = false ∧ p ∈ s.sys.inUse
  · simp only [step, if_pos hg, Option.map_eq_some_iff] at hs
    obtain ⟨u, hu, rfl⟩ := hs
    exact ⟨⟨⟨r, hpc.setSpan _ hg.2 hu rfl rfl⟩, h.nodup⟩, hg.1⟩
  · simp only [step, if_neg hg, reduceCtorEq] at hs

/-- A release fails when a span with count 0 that is on no list is near, and not otherwise. -/
theorem release_step (h : s.Inv) {p : SpanPtr} {ok : Bool} (hs : s.step (.release p ok) = some t) :
    (t.failed = false ↔ s.Timely (.release p ok)) ∧ (t.failed = false → t.Inv) := by
  obtain ⟨r, hpc⟩ := h.pc
  by_cases hg : s.failed = false ∧ p ∈ s.sys.inUse ∧ (s.sys.pc.spans p).map Span.usedCount = some 0
  · simp only [step, if_pos hg] at hs
    obtain ⟨hrun, hp, hcount⟩ := hg
    obtain ⟨u, hu, hzero⟩ := Option.map_eq_some_iff.1 hcount
    have hiff := releaseToPagecache_clear_iff hpc hp hu hzero ok
    by_cases hclear : Clear s.sys.pc (· ∈ s.sys.inUse) p
    · obtain ⟨pc', r', heq, hinv, -⟩ := releaseToPagecache_clear hpc hp hu hzero hclear ok
      simp only [heq, Option.some.injEq] at hs
      subst hs
      refine ⟨⟨fun _ => hclear, fun _ => hrun⟩, fun _ => ⟨⟨r', hinv.congr fun q => ?_⟩, h.nodup.erase p⟩⟩
      rw [h.nodup.mem_erase_iff, and_comm]
    · cases hrel : s.sys.pc.releaseToPagecache p ok with
      | ok pc' => exact absurd (hiff.1 ⟨pc', hrel⟩) hclear
      | error f =>
        simp only [hrel, Option.some.injEq] at hs
        subst hs
        exact ⟨⟨fun hf => (by cases hf), fun hc => absurd hc hclear⟩, fun hf => by cases hf⟩
  · simp only [step, if_neg hg, reduceCtorEq] at hs

/-- Nothing runs on after a failure. -/
theorem step_running {e : PageEvent} (hs : s.step e = some t) : s.failed = false := by
  by_contra hf
  cases e with
  | newSpan n os => simp only [step, hf, false_and, if_false, reduceCtorEq] at hs
  | store p b u => simp only [step, hf, false_and, if_false, reduceCtorEq] at hs
  | release p ok => simp only [step, hf, false_and, if_false, reduceCtorEq] at hs

theorem step_iff (h : s.Inv) {e : PageEvent} (hs : s.step e = some t) :
    (t.failed = false ↔ s.Timely e) ∧ (t.failed = false → t.Inv) := by
  cases e with
  | newSpan n os =>
    obtain ⟨hinv, hrun⟩ := newSpan_step h hs
    exact ⟨⟨fun _ => trivial, fun _ => hrun⟩, fun _ => hinv⟩
  | store p b u =>
    obtain ⟨hinv, hrun⟩ := store_step h hs
    exact ⟨⟨fun _ => trivial, fun _ => hrun⟩, fun _ => hinv⟩
  | release p ok => exact release_step h hs

end

/-! ## Any order of sections -/

/-- A run that has not failed is in order, and none of its releases came into a window. -/
theorem run_iff {events : List PageEvent} : ∀ {s u : SharedPages}, s.Inv → s.failed = false →
    Run.run step s events = some u →
    (u.failed = false ↔ Run.Along step Timely s events) ∧ (u.failed = false → u.Inv) := by
  induction events with
  | nil =>
    intro s u h hrun hs
    cases hs
    exact ⟨⟨fun _ => trivial, fun _ => hrun⟩, fun _ => h⟩
  | cons e events ih =>
    intro s u h hrun hs
    obtain ⟨t, ht, hu⟩ := Run.run_cons.1 hs
    obtain ⟨hiff, hinv⟩ := step_iff h ht
    have hnext : Run.Along step Timely s (e :: events) ↔ s.Timely e ∧ Run.Along step Timely t events := by
      refine and_congr_right fun _ => ⟨fun ha => ha t ht, fun ha t' ht' => ?_⟩
      rw [ht] at ht'
      cases ht'
      exact ha
    rw [hnext]
    by_cases hf : t.failed = false
    · obtain ⟨hrest, hinv'⟩ := ih (hinv hf) hf hu
      exact ⟨hrest.trans (iff_and_self.2 fun _ => hiff.1 hf), hinv'⟩
    · -- The run ends with the failure.
      have hend : u = t := by
        cases events with
        | nil =>
          cases hu
          rfl
        | cons e' events =>
          obtain ⟨v, hv, -⟩ := Run.run_cons.1 hu
          exact absurd (step_running hv) hf
      subst hend
      exact ⟨⟨fun hf' => absurd hf' hf, fun ha => absurd (hiff.2 ha.1) hf⟩, fun hf' => absurd hf' hf⟩

/-- **Coalescing takes only listed spans.** In every order of the sections and of the
stores between them, no release runs into a span that is on no list if and only if none
was made while another span that was given out counted 0 near the one released. Then no
page is in two spans, given out or free; the map leads from each page of a short span to
the span; and the spans given out are on no list. -/
theorem run_merges_listed {events : List PageEvent} {s : SharedPages} (h : Run.run step init events = some s) :
    (s.failed = false ↔ Run.Along step Timely init events) ∧
    (s.failed = false →
      (∀ p q t u, s.sys.Has p t → s.sys.Has q u → p ≠ q → ∀ x, ¬ (t.Pages x ∧ u.Pages x)) ∧
      (∀ p t x, s.sys.Has p t → t.Pages x → t.npages < NPAGES → s.sys.pc.pageidSpanMap x = some p) ∧
      ∀ k, ∀ p ∈ s.sys.pc.pageList k, p ∉ s.sys.inUse) := by
  obtain ⟨hiff, hinv⟩ := run_iff init_inv rfl h
  refine ⟨hiff, fun hrun => ?_⟩
  obtain ⟨r, hpc⟩ := (hinv hrun).pc
  have hhas : ∀ {p t}, s.sys.Has p t → r p = some (t.pageId, t.npages) :=
    fun ht => (PageSys.Inv.has_iff hpc).2 ⟨_, ht, rfl, rfl⟩
  refine ⟨fun p q t u hp hq hpq x hx => ?_, fun p t x hp hx hlt => ?_, fun k p hk => hpc.apart hk⟩
  · exact hpq (hpc.layout.eq_of_mem (hhas hp) (hhas hq) hx.1 hx.2)
  · exact (hpc.layout.found x p fun hx => hx).2 ((Intervals.finds_of_eq (hhas hp)).2 ⟨hx.1, hx.2, .inl hlt⟩)

/-- Three pages for each of two callers, of which the second stores its count late. -/
def lateCount (late : Bool) : List PageEvent :=
  [.newSpan 3 (some 1), .store 1 0 1, .newSpan 3 none] ++ (if late then [] else [.store 2 0 1]) ++
    [.store 1 0 0, .release 1 true]

theorem run_merges_listed_lateCount :
    (∃ s, Run.run step init (lateCount false) = some s ∧ s.failed = false ∧
      Run.Along step Timely init (lateCount false)) ∧
    ∃ s, Run.run step init (lateCount true) = some s ∧ s.failed = true ∧
      ¬ Run.Along step Timely init (lateCount true) := by
  have hkept : (Run.run step init (lateCount false)).map failed = some false := by decide +kernel
  have hlate : (Run.run step init (lateCount true)).map failed = some true := by decide +kernel
  obtain ⟨s, hs, hrun⟩ := Option.map_eq_some_iff.1 hkept
  obtain ⟨t, ht, hfailed⟩ := Option.map_eq_some_iff.1 hlate
  refine ⟨⟨s, hs, hrun, (run_merges_listed hs).1.1 hrun⟩, t, ht, hfailed, fun ha => ?_⟩
  have := (run_merges_listed ht).1.2 ha
  rw [hfailed] at this
  cases this

end SharedPages

end Learncc
