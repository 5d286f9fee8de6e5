/-
The page cache under any sequence of `new_span` and `release_to_pagecache`
calls, by callers that keep a non-zero count in a span while they use it and
release it with count 0.

`run_accounted`: its pages are accounted for, as long as nobody asks for
more pages than a `size_t` has bytes for. Otherwise `pages << PAGE_SHIFT`
wraps: where it wraps to 0 the system refuses, and where it does not the
system maps a few pages and the span claims them all (`wrapped_request`).
-/
import Learncc.MemoryPool.PageCacheFacts

namespace Learncc

/-- The page cache and the spans its callers have from it. -/
structure PageSys where
  pc : PageCache
  inUse : List SpanPtr

/-- `newSpan n os count`: `mmap` answers `os` if asked, the caller stores
`count`. `use p count`: the caller changes the count. -/
inductive PageOp
  | newSpan (n : ℕ) (os : Option ℕ) (count : ℕ)
  | use (p : SpanPtr) (count : ℕ)
  | release (p : SpanPtr) (munmapOk : Bool)
deriving Repr, DecidableEq

namespace PageSys

open PageCache

/-- A new span object is one whose count reads 0. -/
def init : PageSys := ⟨PageCache.init fun _ => 0, []⟩

/-- A caller stores the count of a span. -/
def setCount (pc : PageCache) (p : SpanPtr) (count : ℕ) : Except Fault PageCache := do
  let s ← pc.deref p
  .ok (pc.setSpan p { s with usedCount := count })

/-- `none` when the callers or the system would break their side, and on a
fault other than `std::bad_alloc`, which leaves the state as it was. -/
def step (s : PageSys) : PageOp → Option PageSys
  | .newSpan n os count =>
    if 0 < n ∧ 0 < count ∧ s.pc.MmapOk (requested n) os then
      match s.pc.newSpan n os with
      | .ok (pc, p) => (setCount pc p count).toOption.map fun pc => ⟨pc, p :: s.inUse⟩
      | .error .badAlloc => some s
      | .error _ => none
    else none
  | .use p count =>
    if p ∈ s.inUse ∧ 0 < count then (setCount s.pc p count).toOption.map fun pc => { s with pc } else none
  | .release p munmapOk =>
    if p ∈ s.inUse then
      ((setCount s.pc p 0).bind fun pc => pc.releaseToPagecache p munmapOk).toOption.map fun pc =>
        ⟨pc, s.inUse.erase p⟩
    else none

/-- The length in bytes is a `size_t`, or wraps to 0. -/
def FitsPages (n : ℕ) : Prop := n < 2 ^ 52 ∨ n % 2 ^ 52 = 0

def Fits : PageOp → Prop
  | .newSpan n _ _ => FitsPages n
  | _ => True

/-- A span the page cache has on a list or a caller has in use. -/
def Has (s : PageSys) (p : SpanPtr) (t : Span) : Prop :=
  s.pc.spans p = some t ∧ (p ∈ s.inUse ∨ ∃ k, p ∈ s.pc.pageList k)

structure Accounted (s : PageSys) : Prop where
  lists : ∀ k p, p ∈ s.pc.pageList k → 1 ≤ k ∧ k ≤ 128 ∧ p ∉ s.inUse ∧ ∃ t, s.pc.spans p = some t ∧ t.npages = k
  disjoint : ∀ p q t u, s.Has p t → s.Has q u → p ≠ q → ∀ x, ¬ (t.Pages x ∧ u.Pages x)
  cover : ∀ x, s.pc.owned x = true ↔ ∃ p t, s.Has p t ∧ t.Pages x
  map : ∀ x p, s.pc.pageidSpanMap x = some p ↔ ∃ t, s.Has p t ∧ t.Pages x ∧ (t.npages ≤ 128 ∨ x = t.pageId)

structure Inv (s : PageSys) : Prop where
  pc : ∃ r, s.pc.Inv (· ∈ s.inUse) r exact
  busy : ∀ p t, p ∈ s.inUse → s.pc.spans p = some t → t.usedCount ≠ 0
  nodup : s.inUse.Nodup

theorem init_inv : init.Inv := by
  refine ⟨⟨_, (PageCache.init_inv fun _ => rfl).congr fun q => ?_⟩, fun p t hp _ => ?_, List.nodup_nil⟩
  · simp [init]
  · cases hp

theorem setCount_eq {pc : PageCache} {p : SpanPtr} {t : Span} (ht : pc.spans p = some t) (count : ℕ) :
    setCount pc p count = .ok (pc.setSpan p { t with usedCount := count }) := by
  simp only [setCount, deref_eq ht, bind, Except.bind]

/-! ## One operation -/

/-- A length that wraps to 0 is refused. -/
theorem newSpan_refused {pc : PageCache} {n : ℕ} {os : Option ℕ} (h52 : 2 ^ 52 ≤ n) (hzero : n % 2 ^ 52 = 0)
    (hok : pc.MmapOk (requested n) os) : pc.newSpan n os = .error .badAlloc ∧ os = none := by
  have hlarge : NPAGES ≤ n := Nat.le_trans (by decide) h52
  rw [requested, if_pos hlarge] at hok
  cases os with
  | none => exact ⟨by rw [newSpan, if_pos hlarge]; rfl, rfl⟩
  | some base =>
    have hpos := hok.2.1
    rw [sysPages_eq_mod] at hpos
    omega

/-- `new_span` of a length that fits, as the callers see it. -/
theorem newSpan_fits {s : PageSys} (h : s.Inv) {n : ℕ} {os : Option ℕ} (hn : 0 < n) (hfit : FitsPages n)
    (hok : s.pc.MmapOk (requested n) os) :
    s.pc.newSpan n os = .error .badAlloc ∧ os = none ∨
      ∃ pc' p t, s.pc.newSpan n os = .ok (pc', p) ∧ Gives s.pc (· ∈ s.inUse) n pc' p ∧ pc'.spans p = some t := by
  obtain ⟨r, hpc⟩ := h.pc
  by_cases h52 : n < 2 ^ 52
  · rcases newSpan_spec hpc hn h52 hok with hfail | ⟨pc', p, t, heq, hg, ht, -⟩
    · exact .inl hfail
    · exact .inr ⟨pc', p, t, heq, hg, ht⟩
  · exact .inl (newSpan_refused (Nat.not_lt.1 h52) (hfit.resolve_left h52) hok)

/-- Every `new_span` of a length that fits is enabled, and keeps the
invariant. -/
theorem newSpan_step {s : PageSys} (h : s.Inv) {n count : ℕ} {os : Option ℕ} (hn : 0 < n) (hfit : FitsPages n)
    (hc : 0 < count) (hok : s.pc.MmapOk (requested n) os) :
    ∃ s', s.step (.newSpan n os count) = some s' ∧ s'.Inv := by
  have hg : 0 < n ∧ 0 < count ∧ s.pc.MmapOk (requested n) os := ⟨hn, hc, hok⟩
  simp only [step, if_pos hg]
  rcases newSpan_fits h hn hfit hok with ⟨heq, -⟩ | ⟨pc', p, t, heq, ⟨⟨r', hinv⟩, hnew, -, hframe⟩, ht⟩
  · exact ⟨s, by rw [heq], h⟩
  · rw [heq]
    simp only [setCount_eq ht]
    refine ⟨⟨pc'.setSpan p { t with usedCount := count }, p :: s.inUse⟩, rfl,
      ⟨r', (hinv.setSpan { t with usedCount := count } (.inr rfl) ht rfl rfl).congr fun q => ?_⟩, fun q u hq hu => ?_,
      List.nodup_cons.2 ⟨hnew, h.nodup⟩⟩
    · rw [List.mem_cons, or_comm]
    · by_cases hqp : q = p
      · subst hqp
        rw [setSpan_spans_self] at hu
        cases hu
        exact Nat.pos_iff_ne_zero.1 hc
      · have hq' := (List.mem_cons.1 hq).resolve_left hqp
        rw [setSpan_spans_of_ne _ _ hqp, hframe q hq'] at hu
        exact h.busy q u hq' hu

theorem use_step {s : PageSys} (h : s.Inv) {p : SpanPtr} {count : ℕ} (hp : p ∈ s.inUse) (hc : 0 < count) :
    ∃ s', s.step (.use p count) = some s' ∧ s'.Inv := by
  obtain ⟨r, hpc⟩ := h.pc
  obtain ⟨t, ht⟩ := hpc.held hp
  simp only [step, if_pos (And.intro hp hc), setCount_eq ht]
  refine ⟨_, rfl, ⟨r, hpc.setSpan _ hp ht rfl rfl⟩, fun q u hq hu => ?_, h.nodup⟩
  by_cases hqp : q = p
  · subst hqp
    rw [setSpan_spans_self] at hu
    cases hu
    exact Nat.pos_iff_ne_zero.1 hc
  · rw [setSpan_spans_of_ne _ _ hqp] at hu
    exact h.busy q u hq hu

/-- Every release of a span in use is enabled, and keeps the invariant. -/
theorem release_step {s : PageSys} (h : s.Inv) {p : SpanPtr} (hp : p ∈ s.inUse) (ok : Bool) :
    ∃ s', s.step (.release p ok) = some s' ∧ s'.Inv := by
  obtain ⟨r, hpc⟩ := h.pc
  obtain ⟨t, ht⟩ := hpc.held hp
  have hpc₁ := hpc.setSpan { t with usedCount := 0 } hp ht rfl rfl
  have hbusy : Busy (s.pc.setSpan p { t with usedCount := 0 }) (· ∈ s.inUse) p := by
    intro q u hq hqp hu
    rw [setSpan_spans_of_ne _ _ hqp] at hu
    exact h.busy q u hq hu
  obtain ⟨pc', r', heq, hinv, hframe⟩ := releaseToPagecache_spec hpc₁ hp (setSpan_spans_self ..) rfl hbusy ok
  have hmem : ∀ q, q ∈ s.inUse.erase p ↔ q ∈ s.inUse ∧ q ≠ p := by
    intro q
    rw [h.nodup.mem_erase_iff, and_comm]
  simp only [step, if_pos hp, setCount_eq ht, Except.bind, heq]
  refine ⟨_, rfl, ⟨r', hinv.congr hmem⟩, fun q u hq hu => ?_, h.nodup.erase p⟩
  obtain ⟨hq', hqp⟩ := (hmem q).1 hq
  rw [hframe q hq' hqp, setSpan_spans_of_ne _ _ hqp] at hu
  exact h.busy q u hq' hu

theorem step_inv {s s' : PageSys} {op : PageOp} (h : s.Inv) (hf : Fits op) (hs : s.step op = some s') : s'.Inv := by
  cases op with
  | newSpan n os count =>
    by_cases hg : 0 < n ∧ 0 < count ∧ s.pc.MmapOk (requested n) os
    · obtain ⟨s₁, heq, hi⟩ := newSpan_step h hg.1 hf hg.2.1 hg.2.2
      rw [hs] at heq
      cases heq
      exact hi
    · simp only [step, if_neg hg, reduceCtorEq] at hs
  | use p count =>
    by_cases hg : p ∈ s.inUse ∧ 0 < count
    · obtain ⟨s₁, heq, hi⟩ := use_step h hg.1 hg.2
      rw [hs] at heq
      cases heq
      exact hi
    · simp only [step, if_neg hg, reduceCtorEq] at hs
  | release p ok =>
    by_cases hg : p ∈ s.inUse
    · obtain ⟨s₁, heq, hi⟩ := release_step h hg ok
      rw [hs] at heq
      cases heq
      exact hi
    · simp only [step, if_neg hg, reduceCtorEq] at hs

/-! ## Any sequence -/

theorem Inv.has_iff {s : PageSys} {r : Intervals.Ranges SpanPtr} (h : s.pc.Inv (· ∈ s.inUse) r exact) {p : SpanPtr}
    {a n : ℕ} : r p = some (a, n) ↔ ∃ t, s.Has p t ∧ t.pageId = a ∧ t.npages = n := by
  constructor
  · intro hr
    obtain ⟨t, ht, ha, hn, hact⟩ := h.active hr
    exact ⟨t, ⟨ht, hact.imp_right fun hl => ⟨n, hl.1⟩⟩, ha, hn⟩
  · intro he
    obtain ⟨t, ⟨ht, hact⟩, rfl, rfl⟩ := he
    refine h.on ht (hact.imp_right ?_)
    intro he
    obtain ⟨k, hk⟩ := he
    obtain ⟨u, hu, rfl, -⟩ := h.free hk
    rw [ht] at hu
    cases hu
    exact hk

theorem Inv.accounted {s : PageSys} (h : s.Inv) : s.Accounted := by
  obtain ⟨r, hpc⟩ := h.pc
  have hhas : ∀ {p t}, s.Has p t → r p = some (t.pageId, t.npages) := fun ht => (Inv.has_iff hpc).2 ⟨_, ht, rfl, rfl⟩
  refine ⟨fun k p hk => ?_, fun p q t u hp hq hpq x hx => ?_, fun x => ?_, fun x p => ?_⟩
  · obtain ⟨t, ht, rfl, hlt, -⟩ := hpc.free hk
    obtain ⟨-, hpos, -⟩ := hpc.layout.bound (hpc.on ht (.inr hk))
    exact ⟨hpos, Nat.le_of_lt_succ hlt, hpc.apart hk, t, ht, rfl⟩
  · exact hpq (hpc.layout.eq_of_mem (hhas hp) (hhas hq) hx.1 hx.2)
  · rw [hpc.layout.tiles.cover x]
    constructor
    · intro he
      obtain ⟨p, a, n, hr, h1, h2⟩ := he
      obtain ⟨t, ht, rfl, rfl⟩ := (Inv.has_iff hpc).1 hr
      exact ⟨p, t, ht, h1, h2⟩
    · intro he
      obtain ⟨p, t, ht, h1, h2⟩ := he
      exact ⟨p, _, _, hhas ht, h1, h2⟩
  · rw [hpc.layout.found x p (fun hx => hx)]
    constructor
    · intro he
      obtain ⟨a, n, hr, h1, h2, hn⟩ := he
      obtain ⟨t, ht, rfl, rfl⟩ := (Inv.has_iff hpc).1 hr
      exact ⟨t, ht, ⟨h1, h2⟩, hn.imp_left Nat.le_of_lt_succ⟩
    · intro he
      obtain ⟨t, ht, hx, hn⟩ := he
      exact ⟨_, _, hhas ht, hx.1, hx.2, hn.imp_left Nat.lt_succ_of_le⟩

theorem newSpan_answered (pc : PageCache) (base : ℕ) {n : ℕ} (hlarge : NPAGES ≤ n) :
    ∃ pc' t, pc.newSpan n (some base) = .ok (pc', pc.nextSpan) ∧ pc'.spans pc.nextSpan = some t ∧ t.pageId = base ∧
      t.npages = n ∧ ∀ x, pc'.owned x = (pc.owned x || decide (base ≤ x ∧ x < base + sysPages n)) := by
  rw [newSpan, if_pos hlarge]
  exact ⟨_, _, rfl, Function.update_self .., rfl, rfl, fun _ => rfl⟩

/-- A length that wraps, but not to 0, breaks the accounting as soon as the
system answers: the last page of the span lies behind the address space. -/
theorem newSpan_wrapped {s : PageSys} (h : s.Inv) {n base count : ℕ} (hfit : ¬ FitsPages n) (hc : 0 < count)
    (hok : s.pc.MmapOk (requested n) (some base)) :
    ∃ s', s.step (.newSpan n (some base) count) = some s' ∧ ¬ s'.Accounted := by
  obtain ⟨r, hpc⟩ := h.pc
  obtain ⟨h52, -⟩ := not_or.1 hfit
  have hlarge : NPAGES ≤ n := Nat.le_trans (by decide) (Nat.not_lt.1 h52)
  have hg : 0 < n ∧ 0 < count ∧ s.pc.MmapOk (requested n) (some base) := ⟨by omega, hc, hok⟩
  rw [requested, if_pos hlarge] at hok
  obtain ⟨hbase, -, htop, -⟩ := hok
  obtain ⟨pc', t, heq, ht, rfl, rfl, howned⟩ := newSpan_answered s.pc base hlarge
  simp only [step, if_pos hg, heq, setCount_eq ht]
  refine ⟨_, rfl, fun hacc => ?_⟩
  have hpage : t.Pages (t.pageId + t.npages - 1) := ⟨by omega, by omega⟩
  have hlast := (hacc.cover (t.pageId + t.npages - 1)).2
    ⟨_, _, ⟨setSpan_spans_self .., .inl List.mem_cons_self⟩, hpage⟩
  have hlast' : (s.pc.owned (t.pageId + t.npages - 1) ||
      decide (t.pageId ≤ t.pageId + t.npages - 1 ∧ t.pageId + t.npages - 1 < t.pageId + sysPages t.npages)) = true :=
    (howned _).symm.trans hlast
  rw [Bool.or_eq_true, decide_eq_true_eq, hpc.layout.tiles.cover] at hlast'
  rcases hlast' with ⟨p, a, m, hr, h1, h2⟩ | hgiven
  · obtain ⟨-, -, hbound⟩ := hpc.layout.bound hr
    omega
  · omega

/-- **Page accounting.** In every run whose requests all fit: each list holds
spans of its length; the ranges of free spans and spans in use are disjoint
and cover the pages obtained from the system and not given back; the map has
every page of a short span, the first page of a long one, and no other. Every
further request that fits is answered, with a span of just that length unless
the system has no memory, and every span in use can be released. A request
that does not fit breaks the accounting if the system answers it. -/
theorem run_accounted {ops : List PageOp} {s : PageSys} (hfit : Run.Along step (fun _ => Fits) init ops)
    (h : Run.run step init ops = some s) :
    s.Accounted ∧
    (∀ n os, 0 < n → FitsPages n → s.pc.MmapOk (requested n) os →
      s.pc.newSpan n os = .error .badAlloc ∧ os = none ∨
        ∃ pc' p t, s.pc.newSpan n os = .ok (pc', p) ∧ pc'.spans p = some t ∧ t.npages = n) ∧
    (∀ p ∈ s.inUse, ∀ ok, ∃ s', s.step (.release p ok) = some s') ∧
    ∀ n base count, ¬ FitsPages n → 0 < count → s.pc.MmapOk (requested n) (some base) →
      ∃ s', s.step (.newSpan n (some base) count) = some s' ∧ ¬ s'.Accounted := by
  have hi : s.Inv := Run.run_along_invariant Inv (fun _ _ _ => step_inv) init_inv hfit h
  refine ⟨hi.accounted, fun n os hn hfits hok => ?_, fun p hp ok => ?_, fun n base count => newSpan_wrapped hi⟩
  · rcases newSpan_fits hi hn hfits hok with hfail | ⟨pc', p, -, heq, ⟨-, -, ⟨t, ht, htn, -⟩, -⟩, -⟩
    · exact .inl hfail
    · exact .inr ⟨pc', p, t, heq, ht, htn⟩
  · obtain ⟨s', hs', -⟩ := release_step hi hp ok
    exact ⟨s', hs'⟩

/-- Three pages are cut from a fresh 128, and given back. -/
def threePages : List PageOp := [.newSpan 3 (some 1) 1, .release 1 true]

theorem run_accounted_threePages :
    ∃ s, Run.run step init threePages = some s ∧ s.pc.pageList 128 = [0] ∧ s.Accounted := by
  have hsome : (Run.run step init threePages).map (fun s => s.pc.pageList 128) = some [0] := by decide +kernel
  obtain ⟨s, hs, hl⟩ := Option.map_eq_some_iff.1 hsome
  refine ⟨s, hs, hl, (run_accounted ?_ hs).1⟩
  exact ⟨.inl (by decide), fun _ _ => ⟨trivial, fun _ _ => trivial⟩⟩

/-- Asked for `2^52 + 1` pages the system maps one, and the span has pages
that were never obtained. -/
theorem wrapped_request :
    ∃ s, Run.run step init [.newSpan (2 ^ 52 + 1) (some 1) 1] = some s ∧ ¬ s.Accounted := by
  have hsome : (Run.run step init [.newSpan (2 ^ 52 + 1) (some 1) 1]).map (fun s =>
      (s.inUse, s.pc.owned 2, (s.pc.spans 0).map fun t => (t.pageId, t.npages))) =
      some ([0], false, some (1, 2 ^ 52 + 1)) := by decide +kernel
  obtain ⟨s, hs, hl⟩ := Option.map_eq_some_iff.1 hsome
  simp only [Prod.mk.injEq, Option.map_eq_some_iff] at hl
  obtain ⟨huse, howned, t, ht, ha, hn⟩ := hl
  refine ⟨s, hs, fun hacc => ?_⟩
  have := (hacc.cover 2).2 ⟨0, t, ⟨ht, .inl (by rw [huse]; exact List.mem_cons_self)⟩, by omega, by omega⟩
  rw [howned] at this
  cases this

end PageSys

end Learncc
