/-
What the page cache keeps: the page ranges of the spans in use and of those
on its lists tile the pages it has from the system, and the page map finds
them.

`newSpan_spec` and `releaseToPagecache_spec` say what the two operations do
to any page cache in that state; they are all that the caches above use.
-/
import Learncc.Lib.Run
import Learncc.MemoryPool.PageCache

namespace Learncc

/-- The pages of a span. -/
def Span.Pages (s : Span) (x : ℕ) : Prop := s.pageId ≤ x ∧ x < s.pageId + s.npages

namespace PageCache

open Intervals

/-- The page cache is in order: `U` are the spans in use, `r` the ranges of
these and of the free ones, and the page map may be out of date on `stale`.
A new span object is one whose count reads 0. -/
structure Inv (pc : PageCache) (U : SpanPtr → Prop) (r : Ranges SpanPtr) (stale : ℕ → Prop) : Prop where
  layout : Layout NPAGES (2 ^ 52) r (fun x => pc.owned x = true) pc.pageidSpanMap stale
  on : ∀ {p s}, pc.spans p = some s → U p ∨ p ∈ pc.pageList s.npages → r p = some (s.pageId, s.npages)
  off : ∀ {p}, ¬ U p → (∀ k, p ∉ pc.pageList k) → r p = none
  free : ∀ {k p}, p ∈ pc.pageList k → ∃ s, pc.spans p = some s ∧ s.npages = k ∧ k < NPAGES ∧ s.usedCount = 0
  nodup : ∀ k, (pc.pageList k).Nodup
  held : ∀ {p}, U p → ∃ s, pc.spans p = some s
  apart : ∀ {k p}, p ∈ pc.pageList k → ¬ U p
  fresh : ∀ {p s}, pc.spans p = some s → p < pc.nextSpan
  mapped : ∀ x, pc.owned x = true → pc.mapped x = true
  zero : ∀ p, pc.found p = 0

/-- No page of the map is out of date. -/
def exact : ℕ → Prop := fun _ => False

theorem init_inv {found : SpanPtr → UInt64} (hzero : ∀ p, found p = 0) :
    Inv (init found) (fun _ => False) (fun _ => none) exact := by
  refine ⟨⟨⟨?_, fun x => ?_⟩, fun x p _ => ?_, ?_⟩, ?_, ?_, ?_, ?_, ?_, ?_, ?_, ?_, hzero⟩
  · intro k l x he
    obtain ⟨a, n, h, -⟩ := he
    cases h
  · constructor
    · intro h
      cases h
    · intro he
      obtain ⟨k, a, n, h, -⟩ := he
      cases h
  · constructor
    · intro h
      cases h
    · intro he
      obtain ⟨a, n, h, -⟩ := he
      cases h
  · intro k a n h
    cases h
  · intro p s h
    cases h
  · intro p _ _
    rfl
  · intro k p h
    cases h
  · intro k
    exact List.nodup_nil
  · intro p h
    cases h
  · intro k p h
    cases h
  · intro p s h
    cases h
  · intro x h
    cases h

section

variable {pc : PageCache} {U : SpanPtr → Prop} {r : Ranges SpanPtr} {stale : ℕ → Prop}

/-- A range is that of a span in use or of a free one. -/
theorem Inv.active (h : Inv pc U r stale) {p : SpanPtr} {a n : ℕ} (hr : r p = some (a, n)) :
    ∃ s, pc.spans p = some s ∧ s.pageId = a ∧ s.npages = n ∧
      (U p ∨ p ∈ pc.pageList n ∧ n < NPAGES ∧ s.usedCount = 0) := by
  by_cases hU : U p
  · obtain ⟨s, hs⟩ := h.held hU
    have := h.on hs (.inl hU)
    rw [hr] at this
    cases this
    exact ⟨s, hs, rfl, rfl, .inl hU⟩
  · by_cases hfree : ∃ k, p ∈ pc.pageList k
    · obtain ⟨k, hk⟩ := hfree
      obtain ⟨s, hs, rfl, hlt, hu⟩ := h.free hk
      have := h.on hs (.inr hk)
      rw [hr] at this
      cases this
      exact ⟨s, hs, rfl, rfl, .inr ⟨hk, hlt, hu⟩⟩
    · have := h.off hU fun k hk => hfree ⟨k, hk⟩
      rw [hr] at this
      cases this

/-- A change that leaves the free spans and their lists alone: what is left
to show is about the spans in use and the pages. -/
theorem Inv.relayout (h : Inv pc U r stale) {pc' : PageCache} {U' : SpanPtr → Prop} {r' : Ranges SpanPtr}
    {stale' : ℕ → Prop} (hlist : pc'.pageList = pc.pageList) (hfound : pc'.found = pc.found)
    (hfree : ∀ {k q}, q ∈ pc.pageList k → pc'.spans q = pc.spans q ∧ r' q = r q ∧ ¬ U' q)
    (hheld : ∀ {q}, U' q → ∃ s, pc'.spans q = some s ∧ r' q = some (s.pageId, s.npages))
    (hoff : ∀ {q}, ¬ U' q → (∀ k, q ∉ pc.pageList k) → r' q = none)
    (hfresh : ∀ {q s}, pc'.spans q = some s → q < pc'.nextSpan)
    (hlayout : Layout NPAGES (2 ^ 52) r' (fun x => pc'.owned x = true) pc'.pageidSpanMap stale')
    (hmapped : ∀ x, pc'.owned x = true → pc'.mapped x = true) : Inv pc' U' r' stale' := by
  refine ⟨hlayout, fun {q t} hq hact => ?_, fun {q} hU hq => ?_, fun {k q} hq => ?_, fun k => ?_,
    fun {q} hq => ?_, fun {k q} hq => ?_, hfresh, hmapped, hfound ▸ h.zero⟩
  · rcases hact with hU | hl
    · obtain ⟨t', ht', hr⟩ := hheld hU
      rw [hq] at ht'
      cases ht'
      exact hr
    · rw [hlist] at hl
      obtain ⟨h1, h2, -⟩ := hfree hl
      rw [h2]
      exact h.on (h1 ▸ hq) (.inr hl)
  · exact hoff hU (hlist ▸ hq)
  · rw [hlist] at hq
    rw [(hfree hq).1]
    exact h.free hq
  · rw [hlist]
    exact h.nodup k
  · obtain ⟨s, hs, -⟩ := hheld hq
    exact ⟨s, hs⟩
  · rw [hlist] at hq
    exact (hfree hq).2.2

/-- A span in use is rewritten, its pages left alone. -/
theorem Inv.setSpan (h : Inv pc U r stale) {p : SpanPtr} {s : Span} (s' : Span) (hp : U p) (hs : pc.spans p = some s)
    (ha : s'.pageId = s.pageId) (hn : s'.npages = s.npages) : Inv (pc.setSpan p s') U r stale := by
  have hspans : ∀ {q}, q ≠ p → (pc.setSpan p s').spans q = pc.spans q := fun hq => Function.update_of_ne hq ..
  have hself : (pc.setSpan p s').spans p = some s' := Function.update_self ..
  refine h.relayout rfl rfl (fun {k q} hq => ⟨hspans ?_, rfl, h.apart hq⟩) (fun {q} hq => ?_) h.off (fun {q t} hq => ?_)
    h.layout h.mapped
  · intro he
    subst he
    exact h.apart hq hp
  · by_cases hqp : q = p
    · subst hqp
      exact ⟨s', hself, by rw [ha, hn]; exact h.on hs (.inl hp)⟩
    · obtain ⟨t, ht⟩ := h.held hq
      exact ⟨t, by rw [hspans hqp]; exact ht, h.on ht (.inl hq)⟩
  · by_cases hqp : q = p
    · subst hqp
      exact h.fresh hs
    · rw [hspans hqp] at hq
      exact h.fresh hq

/-- A free span leaves its list and is in use. -/
theorem Inv.unlist (h : Inv pc U r stale) {k : ℕ} {p : SpanPtr} (hp : p ∈ pc.pageList k) {l : List SpanPtr}
    (hmem : ∀ q, q ∈ l ↔ q ∈ pc.pageList k ∧ q ≠ p) (hl : l.Nodup) :
    Inv { pc with pageList := Function.update pc.pageList k l } (fun q => U q ∨ q = p) r stale := by
  obtain ⟨s, hs, hsk, -, -⟩ := h.free hp
  -- What is on a list now was there before, and is not `p`.
  have hlist : ∀ j q, q ∈ Function.update pc.pageList k l j ↔ q ∈ pc.pageList j ∧ q ≠ p := by
    intro j q
    by_cases hj : j = k
    · subst hj
      rw [Function.update_self, hmem]
    · rw [Function.update_of_ne hj]
      refine ⟨fun hq => ⟨hq, ?_⟩, fun hq => hq.1⟩
      intro he
      subst he
      obtain ⟨t, ht, htj, -⟩ := h.free hq
      rw [hs] at ht
      cases ht
      exact hj (htj.symm.trans hsk)
  refine ⟨h.layout, fun {q t} hq hact => ?_, fun {q} hU hq => ?_, fun {j q} hq => ?_, fun j => ?_,
    fun {q} hq => ?_, fun {j q} hq => ?_, h.fresh, h.mapped, h.zero⟩
  · rcases hact with (hU | rfl) | hq'
    · exact h.on hq (.inl hU)
    · have ht : pc.spans q = some t := hq
      rw [hs] at ht
      cases ht
      exact h.on hs (.inr (hsk ▸ hp))
    · exact h.on hq (.inr ((hlist _ _).1 hq').1)
  · rw [not_or] at hU
    exact h.off hU.1 fun j hj => hq j ((hlist j q).2 ⟨hj, hU.2⟩)
  · exact h.free ((hlist j q).1 hq).1
  · by_cases hj : j = k
    · subst hj
      simpa using hl
    · simpa [hj] using h.nodup j
  · rcases hq with hq | rfl
    · exact h.held hq
    · exact ⟨s, hs⟩
  · obtain ⟨h1, h2⟩ := (hlist j q).1 hq
    intro he
    rcases he with hU | rfl
    · exact h.apart h1 hU
    · exact h2 rfl

theorem popFront_spec (h : Inv pc U r stale) {k : ℕ} {p : SpanPtr} {ps : List SpanPtr} (hk : pc.pageList k = p :: ps) :
    ∃ pc', pc.popFront k = .ok (pc', p) ∧ Inv pc' (fun q => U q ∨ q = p) r stale ∧ ¬ U p ∧ pc'.spans = pc.spans := by
  have hp : p ∈ pc.pageList k := by rw [hk]; exact List.mem_cons_self
  have hnd := h.nodup k
  rw [hk, List.nodup_cons] at hnd
  refine ⟨{ pc with pageList := Function.update pc.pageList k ps }, by simp only [popFront, hk],
    h.unlist hp (fun q => ?_) hnd.2, h.apart hp, rfl⟩
  rw [hk, List.mem_cons]
  constructor
  · intro hq
    exact ⟨.inr hq, by rintro rfl; exact hnd.1 hq⟩
  · intro he
    obtain ⟨rfl | hq, hne⟩ := he
    · exact absurd rfl hne
    · exact hq

theorem erase_spec (h : Inv pc U r stale) {k : ℕ} {p : SpanPtr} (hp : p ∈ pc.pageList k) :
    ∃ pc', pc.erase k p = .ok pc' ∧ Inv pc' (fun q => U q ∨ q = p) r stale ∧ pc'.spans = pc.spans ∧
      pc'.pageidSpanMap = pc.pageidSpanMap := by
  refine ⟨_, if_pos hp, h.unlist hp (fun q => ?_) ((h.nodup k).erase p), rfl, rfl⟩
  rw [(h.nodup k).mem_erase_iff, and_comm]

/-- A span no longer in use goes to the head of its list. -/
theorem Inv.pushFront (h : Inv pc U r stale) {p : SpanPtr} {s : Span} (hp : U p) (hs : pc.spans p = some s)
    (hlt : s.npages < NPAGES) (hu : s.usedCount = 0) :
    Inv (pc.pushFront s.npages p) (fun q => U q ∧ q ≠ p) r stale := by
  have hlist : ∀ j q, q ∈ (pc.pushFront s.npages p).pageList j ↔ q ∈ pc.pageList j ∨ j = s.npages ∧ q = p := by
    intro j q
    simp only [PageCache.pushFront]
    by_cases hj : j = s.npages
    · subst hj
      rw [Function.update_self, List.mem_cons, or_comm]
      simp
    · rw [Function.update_of_ne hj]
      simp [hj]
  refine ⟨h.layout, fun {q t} hq hact => ?_, fun {q} hU hq => ?_, fun {j q} hq => ?_, fun j => ?_,
    fun {q} hq => h.held hq.1, fun {j q} hq => ?_, h.fresh, h.mapped, h.zero⟩
  · rcases hact with hU | hq'
    · exact h.on hq (.inl hU.1)
    · rcases (hlist _ _).1 hq' with hl | ⟨-, rfl⟩
      · exact h.on hq (.inr hl)
      · exact h.on hq (.inl hp)
  · have hqp : q ≠ p := by
      intro he
      subst he
      exact hq s.npages ((hlist _ _).2 (.inr ⟨rfl, rfl⟩))
    exact h.off (fun hU' => hU ⟨hU', hqp⟩) fun j hj => hq j ((hlist j q).2 (.inl hj))
  · rcases (hlist j q).1 hq with hl | ⟨rfl, rfl⟩
    · exact h.free hl
    · exact ⟨s, hs, rfl, hlt, hu⟩
  · simp only [PageCache.pushFront]
    by_cases hj : j = s.npages
    · subst hj
      rw [Function.update_self, List.nodup_cons]
      exact ⟨fun hm => h.apart hm hp, h.nodup _⟩
    · rw [Function.update_of_ne hj]
      exact h.nodup j
  · rcases (hlist j q).1 hq with hl | ⟨-, rfl⟩
    · exact fun hU => h.apart hl hU.1
    · exact fun hU => hU.2 rfl

theorem mapPages_eq (pc : PageCache) (a n : ℕ) (p : SpanPtr) :
    (pc.mapPages a n p).pageidSpanMap = fill pc.pageidSpanMap a n p := by
  refine funext fun (x : ℕ) => ?_
  simp only [mapPages]
  induction n with
  | zero => simp [fill]
  | succ n ih =>
    rw [List.range_succ, List.foldl_append, List.foldl_cons, List.foldl_nil]
    by_cases hx : x = a + n
    · subst hx
      simp [fill]
    · rw [Function.update_of_ne hx, ih]
      unfold fill
      have : (a ≤ x ∧ x < a + n) ↔ (a ≤ x ∧ x < a + (n + 1)) := by omega
      simp only [this]

@[simp] theorem mapPages_spans (pc : PageCache) (a n : ℕ) (p : SpanPtr) : (pc.mapPages a n p).spans = pc.spans := rfl

theorem Inv.new_zero (h : Inv pc U r stale) (a n : ℕ) (p : SpanPtr) : (Span.new a n (pc.found p)).usedCount = 0 := by
  rw [h.zero]
  rfl

/-- A new span object is no span the page cache knows of. -/
theorem Inv.nextSpan_new (h : Inv pc U r stale) : ¬ U pc.nextSpan ∧ (∀ k, pc.nextSpan ∉ pc.pageList k) ∧
    r pc.nextSpan = none := by
  have hU : ¬ U pc.nextSpan := by
    intro hU
    obtain ⟨s, hs⟩ := h.held hU
    exact absurd (h.fresh hs) (Nat.lt_irrefl _)
  have hl : ∀ k, pc.nextSpan ∉ pc.pageList k := by
    intro k hk
    obtain ⟨s, hs, -⟩ := h.free hk
    exact absurd (h.fresh hs) (Nat.lt_irrefl _)
  exact ⟨hU, hl, h.off hU hl⟩

/-- A new span object, which no list and no caller has yet. -/
theorem Inv.newSpanObject (h : Inv pc U r stale) (s : Span) : Inv (pc.newSpanObject s).1 U r stale := by
  obtain ⟨hU, hl, -⟩ := h.nextSpan_new
  have hspans : ∀ {q}, q ≠ pc.nextSpan → (pc.newSpanObject s).1.spans q = pc.spans q :=
    fun hq => Function.update_of_ne hq ..
  refine h.relayout rfl rfl (fun {k q} hq => ⟨hspans ?_, rfl, h.apart hq⟩) (fun {q} hq => ?_) h.off (fun {q t} hq => ?_)
    h.layout h.mapped
  · intro he
    subst he
    exact hl k hq
  · have hne : q ≠ pc.nextSpan := by
      intro he
      subst he
      exact hU hq
    obtain ⟨t, ht⟩ := h.held hq
    exact ⟨t, by rw [hspans hne]; exact ht, h.on ht (.inl hq)⟩
  · by_cases hne : q = pc.nextSpan
    · subst hne
      exact Nat.lt_succ_self _
    · rw [hspans hne] at hq
      exact Nat.lt_succ_of_lt (h.fresh hq)

theorem Inv.congr (h : Inv pc U r stale) {U' : SpanPtr → Prop} (hU : ∀ q, U' q ↔ U q) : Inv pc U' r stale := by
  have : U' = U := funext fun q => propext (hU q)
  exact this ▸ h

theorem sysPages_eq_mod (n : ℕ) : sysPages n = n % 2 ^ 52 := by
  unfold sysPages pageBytes size64 PAGESHIFT
  omega

theorem sysPages_eq {n : ℕ} (h : n < 2 ^ 52) : sysPages n = n := by
  rw [sysPages_eq_mod, Nat.mod_eq_of_lt h]

/-- Pages from the system become the range of a new span. -/
theorem Inv.add (h : Inv pc U r exact) {p : SpanPtr} {s : Span} (hs : pc.spans p = some s) (hU : ¬ U p)
    (hl : ∀ k, p ∉ pc.pageList k) (hn : s.npages < 2 ^ 52) (hok : pc.MmapOk s.npages (some s.pageId))
    {m : ℕ → Option SpanPtr}
    (hm : m = fill pc.pageidSpanMap s.pageId (if s.npages < NPAGES then s.npages else 1) p) :
    Inv { pc with
        pageidSpanMap := m
        mapped := fun x => pc.mapped x || decide (s.pageId ≤ x ∧ x < s.pageId + sysPages s.npages)
        owned := fun x => pc.owned x || decide (s.pageId ≤ x ∧ x < s.pageId + sysPages s.npages) }
      (fun q => U q ∨ q = p) (Function.update r p (some (s.pageId, s.npages))) exact := by
  obtain ⟨hbase, hpos, htop, hfree⟩ := hok
  rw [sysPages_eq hn] at hpos htop hfree
  have hother : ∀ q, q ≠ p → Function.update r p (some (s.pageId, s.npages)) q = r q :=
    fun q hq => Function.update_of_ne hq ..
  refine h.relayout rfl rfl (fun {k q} hq => ?_) (fun {q} hq => ?_) (fun {q} hq hk => ?_) h.fresh ?_ fun x hx => ?_
  · have hne : q ≠ p := by
      intro he
      subst he
      exact hl k hq
    refine ⟨rfl, hother q hne, ?_⟩
    intro he
    rcases he with hq' | rfl
    · exact h.apart hq hq'
    · exact hne rfl
  · by_cases hne : q = p
    · subst hne
      exact ⟨s, hs, Function.update_self ..⟩
    · obtain ⟨t, ht⟩ := h.held (hq.resolve_right hne)
      exact ⟨t, ht, by rw [hother q hne]; exact h.on ht (.inl (hq.resolve_right hne))⟩
  · rw [not_or] at hq
    rw [hother q hq.2]
    exact h.off hq.1 hk
  · simp only
    rw [hm]
    refine h.layout.add (h.off hU hl) (Function.update_self ..) hother hbase hpos htop (fun x h1 h2 hx => ?_)
      (fun x => ?_) rfl
    · have := h.mapped x hx
      rw [hfree x h2 h1] at this
      cases this
    · rw [sysPages_eq hn]
      simp
  · simp only [Bool.or_eq_true] at hx ⊢
    exact hx.imp_left (h.mapped x)

/-- The tail of a span in use becomes the range of a new one. -/
theorem Inv.split (h : Inv pc U r exact) {p q : SpanPtr} {s t : Span} (hp : U p) (hs : pc.spans p = some s)
    (hlt : s.npages < NPAGES) {m : ℕ} (hm : 0 < m) (hmn : m < s.npages) (ht : pc.spans q = some t)
    (hta : t.pageId = s.pageId + s.npages - m) (htn : t.npages = m) (hU : ¬ U q) (hl : ∀ k, q ∉ pc.pageList k) :
    ∃ r', Inv ((pc.setSpan p { s with npages := s.npages - m }).mapPages (s.pageId + s.npages - m) m q)
      (fun x => U x ∨ x = q) r' exact := by
  have hne : q ≠ p := by
    intro he
    subst he
    exact hU hp
  let r' := Function.update (Function.update r p (some (s.pageId, s.npages - m))) q
    (some (s.pageId + s.npages - m, m))
  have hrq : r' q = some (s.pageId + s.npages - m, m) := Function.update_self ..
  have hrp : r' p = some (s.pageId, s.npages - m) := by
    simp only [r', Function.update_of_ne hne.symm, Function.update_self]
  have hother : ∀ x, x ≠ p → x ≠ q → r' x = r x := fun x h1 h2 => by
    simp only [r', Function.update_of_ne h2, Function.update_of_ne h1]
  have hspans : ∀ {x}, x ≠ p → (pc.setSpan p { s with npages := s.npages - m }).spans x = pc.spans x :=
    fun hx => Function.update_of_ne hx ..
  refine ⟨r', h.relayout rfl rfl (fun {k x} hx => ?_) (fun {x} hx => ?_) (fun {x} hx hk => ?_) (fun {x u} hx => ?_) ?_
    h.mapped⟩
  · have hxp : x ≠ p := by
      intro he
      subst he
      exact h.apart hx hp
    have hxq : x ≠ q := by
      intro he
      subst he
      exact hl k hx
    refine ⟨hspans hxp, hother x hxp hxq, ?_⟩
    intro he
    rcases he with hx' | hx'
    · exact h.apart hx hx'
    · exact hxq hx'
  · by_cases hxq : x = q
    · subst hxq
      exact ⟨t, by rw [mapPages_spans, hspans hne]; exact ht, by rw [hrq, hta, htn]⟩
    · by_cases hxp : x = p
      · subst hxp
        exact ⟨_, Function.update_self .., hrp⟩
      · obtain ⟨u, hu⟩ := h.held (hx.resolve_right hxq)
        exact ⟨u, by rw [mapPages_spans, hspans hxp]; exact hu,
          by rw [hother x hxp hxq]; exact h.on hu (.inl (hx.resolve_right hxq))⟩
  · rw [not_or] at hx
    have hxp : x ≠ p := by
      intro he
      subst he
      exact hx.1 hp
    rw [hother x hxp hx.2]
    exact h.off hx.1 hk
  · by_cases hxp : x = p
    · subst hxp
      exact h.fresh hs
    · rw [mapPages_spans, hspans hxp] at hx
      exact h.fresh hx
  · rw [mapPages_eq]
    exact h.layout.split (h.on hs (.inl hp)) (h.off hU hl) hrp hrq hother hlt hm hmn

/-- Two spans in use, one behind the other, become one; the second object is
deleted. -/
theorem Inv.join (h : Inv pc U r stale) {p q : SpanPtr} {s t : Span} (s' : Span) (hp : U p) (hq : U q)
    (hs : pc.spans p = some s) (ht : pc.spans q = some t) (hadj : t.pageId = s.pageId + s.npages)
    (ha : s'.pageId = s.pageId) (hn : s'.npages = s.npages + t.npages)
    (hstale : ∀ x, stale x → s.pageId ≤ x ∧ x < s.pageId + (s.npages + t.npages)) :
    ∃ r', Inv ((pc.setSpan p s').deleteSpan q) (fun x => U x ∧ x ≠ q) r'
      (fun x => s'.pageId ≤ x ∧ x < s'.pageId + s'.npages) := by
  have hrp := h.on hs (.inl hp)
  have hrq := h.on ht (.inl hq)
  rw [hadj] at hrq
  have hne : p ≠ q := by
    intro he
    subst he
    have := h.layout.bound hrp
    rw [hs] at ht
    cases ht
    omega
  let r' := Function.update (Function.update r q none) p (some (s.pageId, s.npages + t.npages))
  have hrp' : r' p = some (s.pageId, s.npages + t.npages) := Function.update_self ..
  have hrq' : r' q = none := by simp only [r', Function.update_of_ne hne.symm, Function.update_self]
  have hother : ∀ x, x ≠ p → x ≠ q → r' x = r x := fun x h1 h2 => by
    simp only [r', Function.update_of_ne h1, Function.update_of_ne h2]
  have hself : ((pc.setSpan p s').deleteSpan q).spans p = some s' := by
    simp [PageCache.setSpan, deleteSpan, hne]
  have hspans : ∀ {x}, x ≠ p → x ≠ q → ((pc.setSpan p s').deleteSpan q).spans x = pc.spans x := fun h1 h2 => by
    simp only [PageCache.setSpan, deleteSpan, Function.update_of_ne h1, Function.update_of_ne h2]
  refine ⟨r', h.relayout rfl rfl (fun {k x} hx => ?_) (fun {x} hx => ?_) (fun {x} hx hk => ?_) (fun {x u} hx => ?_) ?_
    h.mapped⟩
  · have hxp : x ≠ p := by
      intro he
      subst he
      exact h.apart hx hp
    have hxq : x ≠ q := by
      intro he
      subst he
      exact h.apart hx hq
    exact ⟨hspans hxp hxq, hother x hxp hxq, fun hx' => h.apart hx hx'.1⟩
  · by_cases hxp : x = p
    · subst hxp
      exact ⟨s', hself, by rw [hrp', ha, hn]⟩
    · obtain ⟨u, hu⟩ := h.held hx.1
      exact ⟨u, by rw [hspans hxp hx.2]; exact hu, by rw [hother x hxp hx.2]; exact h.on hu (.inl hx.1)⟩
  · by_cases hxq : x = q
    · subst hxq
      exact hrq'
    · have hxp : x ≠ p := by
        intro he
        subst he
        exact hx ⟨hp, hne⟩
      rw [hother x hxp hxq]
      exact h.off (fun hU => hx ⟨hU, hxq⟩) hk
  · by_cases hxq : x = q
    · subst hxq
      simp [deleteSpan] at hx
    · by_cases hxp : x = p
      · subst hxp
        exact h.fresh hs
      · rw [hspans hxp hxq] at hx
        exact h.fresh hx
  · rw [ha, hn]
    exact h.layout.join hrp hrq hrp' hrq' hother hstale

/-- The map is brought up to date on the one span it was stale on. -/
theorem Inv.enter (h : Inv pc U r stale) {p : SpanPtr} {s : Span} (hp : U p) (hs : pc.spans p = some s)
    (hlt : s.npages < NPAGES) (hstale : ∀ x, stale x → s.pageId ≤ x ∧ x < s.pageId + s.npages) :
    Inv (pc.mapPages s.pageId s.npages p) U r exact := by
  refine h.relayout rfl rfl (fun {k q} hq => ⟨rfl, rfl, h.apart hq⟩) (fun {q} hq => ?_) h.off h.fresh ?_ h.mapped
  · obtain ⟨t, ht⟩ := h.held hq
    exact ⟨t, ht, h.on ht (.inl hq)⟩
  · rw [mapPages_eq]
    exact h.layout.enter (h.on hs (.inl hp)) hlt hstale

theorem deref_eq {p : SpanPtr} {s : Span} (hs : pc.spans p = some s) : pc.deref p = .ok s := by
  rw [deref, hs]

/-! ## new_span -/

/-- `p` is a span of `n` pages that was not in use and now is; the spans that
were are as they were. -/
structure Gives (pc : PageCache) (U : SpanPtr → Prop) (n : ℕ) (pc' : PageCache) (p : SpanPtr) : Prop where
  inv : ∃ r', Inv pc' (fun q => U q ∨ q = p) r' exact
  new : ¬ U p
  span : ∃ s, pc'.spans p = some s ∧ s.npages = n ∧ s.usedCount = 0
  frame : ∀ q, U q → pc'.spans q = pc.spans q

theorem popFront_gives (h : Inv pc U r exact) {k : ℕ} {p : SpanPtr} {ps : List SpanPtr} (hk : pc.pageList k = p :: ps) :
    ∃ pc', pc.popFront k = .ok (pc', p) ∧ Gives pc U k pc' p := by
  obtain ⟨s, hs, hsk, -, hu⟩ := h.free (show p ∈ pc.pageList k by rw [hk]; exact List.mem_cons_self)
  obtain ⟨pc', heq, hinv, hU, hspans⟩ := popFront_spec h hk
  exact ⟨pc', heq, ⟨r, hinv⟩, hU, ⟨s, by rw [hspans]; exact hs, hsk, hu⟩, fun q _ => by rw [hspans]⟩

theorem splitFrom_gives (h : Inv pc U r exact) {i n : ℕ} (hi : pc.pageList i ≠ []) (hn : 0 < n) (hni : n < i) :
    ∃ pc' p, pc.splitFrom i n = .ok (pc', p) ∧ Gives pc U n pc' p := by
  obtain ⟨p, ps, hk⟩ := List.exists_cons_of_ne_nil hi
  obtain ⟨s, hs, rfl, hlt, hu⟩ := h.free (show p ∈ pc.pageList i by rw [hk]; exact List.mem_cons_self)
  obtain ⟨pc₁, heq, h₁, hU, hspans⟩ := popFront_spec h hk
  have hs₁ : pc₁.spans p = some s := by rw [hspans]; exact hs
  -- The new object, then the cut, then the rest goes back to its list.
  let t := Span.new (s.pageId + s.npages - n) n (pc₁.found pc₁.nextSpan)
  obtain ⟨hnU, hnl, -⟩ := h₁.nextSpan_new
  have hne : p ≠ pc₁.nextSpan := by
    intro hp
    exact hnU (hp ▸ .inr rfl)
  have h₂ := h₁.newSpanObject t
  have hs₂ : (pc₁.newSpanObject t).1.spans p = some s := by
    rw [newSpanObject_spans_of_ne _ _ hne, hs₁]
  have ht₂ : (pc₁.newSpanObject t).1.spans pc₁.nextSpan = some t := newSpanObject_spans_self ..
  obtain ⟨r', h₃⟩ := h₂.split (.inr rfl) hs₂ hlt hn hni ht₂ rfl rfl hnU hnl
  have hs₃ : (((pc₁.newSpanObject t).1.setSpan p { s with npages := s.npages - n }).mapPages
      (s.pageId + s.npages - n) n pc₁.nextSpan).spans p = some { s with npages := s.npages - n } := by
    rw [mapPages_spans, setSpan_spans_self]
  have h₄ := h₃.pushFront (.inl (.inr rfl)) hs₃ (Nat.lt_of_le_of_lt (Nat.sub_le _ _) hlt) hu
  refine ⟨_, pc₁.nextSpan, ?_, ⟨r', h₄.congr fun q => ?_⟩, fun hq => hnU (.inl hq),
    ⟨t, ?_, rfl, h₁.new_zero ..⟩, fun q hq => ?_⟩
  · simp only [splitFrom, heq, bind, Except.bind, deref_eq hs₁]
    rfl
  · constructor
    · intro he
      rcases he with hq | rfl
      · refine ⟨.inl (.inl hq), ?_⟩
        intro he
        subst he
        exact hU hq
      · exact ⟨.inr rfl, hne.symm⟩
    · intro he
      obtain ⟨(hq | rfl) | rfl, hqp⟩ := he
      · exact .inl hq
      · exact absurd rfl hqp
      · exact .inr rfl
  · rw [pushFront_spans, mapPages_spans, setSpan_spans_of_ne _ _ hne.symm, ht₂]
  · have hqp : q ≠ p := by
      intro he
      subst he
      exact hU hq
    have hqn : q ≠ pc₁.nextSpan := by
      intro he
      subst he
      exact hnU (.inl hq)
    rw [pushFront_spans, mapPages_spans, setSpan_spans_of_ne _ _ hqp, newSpanObject_spans_of_ne _ _ hqn, hspans]

theorem largerList_some {n i : ℕ} (h : pc.largerList n = some i) : n < i ∧ pc.pageList i ≠ [] := by
  have hmem := List.mem_of_find?_eq_some h
  have hp := List.find?_some h
  rw [List.mem_range'_1] at hmem
  exact ⟨by omega, by simpa using hp⟩

theorem largerList_none {n i : ℕ} (h : pc.largerList n = none) (h1 : n < i) (h2 : i < NPAGES) : pc.pageList i = [] := by
  have := List.find?_eq_none.1 h i (by rw [List.mem_range'_1]; omega)
  simpa using this

theorem grow_spec (h : Inv pc U r exact) {base : ℕ} (hok : pc.MmapOk (NPAGES - 1) (some base)) :
    ∃ pc' r', pc.grow (some base) = .ok pc' ∧ Inv pc' U r' exact ∧ pc'.pageList (NPAGES - 1) ≠ [] ∧
      ∀ q, U q → pc'.spans q = pc.spans q := by
  obtain ⟨hnU, hnl, -⟩ := h.nextSpan_new
  have hs := newSpanObject_spans_self pc (Span.new base (NPAGES - 1) (pc.found pc.nextSpan))
  have h₁ := (h.newSpanObject (Span.new base (NPAGES - 1) (pc.found pc.nextSpan))).add hs hnU hnl (show NPAGES - 1 < 2 ^ 52 by decide) hok
    (mapPages_eq (pc.newSpanObject (Span.new base (NPAGES - 1) (pc.found pc.nextSpan))).1 base (NPAGES - 1) pc.nextSpan)
  have h₂ := h₁.pushFront (.inr rfl) hs (show NPAGES - 1 < NPAGES by decide) (h.new_zero ..)
  have hg : pc.grow (some base) = .ok (PageCache.pushFront
      { (pc.newSpanObject (Span.new base (NPAGES - 1) (pc.found pc.nextSpan))).1 with
        pageidSpanMap :=
          ((pc.newSpanObject (Span.new base (NPAGES - 1) (pc.found pc.nextSpan))).1.mapPages base (NPAGES - 1) pc.nextSpan).pageidSpanMap
        mapped := fun x => pc.mapped x || decide (base ≤ x ∧ x < base + sysPages (NPAGES - 1))
        owned := fun x => pc.owned x || decide (base ≤ x ∧ x < base + sysPages (NPAGES - 1)) }
      (NPAGES - 1) pc.nextSpan) := by
    unfold grow
    generalize NPAGES - 1 = k
    rfl
  refine ⟨_, _, hg, h₂.congr fun q => ?_, ?_, fun q hq => ?_⟩
  · constructor
    · intro hq
      refine ⟨.inl hq, ?_⟩
      intro he
      subst he
      exact hnU hq
    · intro he
      obtain ⟨hq | rfl, hne⟩ := he
      · exact hq
      · exact absurd rfl hne
  · simp [PageCache.pushFront]
  · have hne : q ≠ pc.nextSpan := by
      intro he
      subst he
      exact hnU hq
    exact Function.update_of_ne hne ..

theorem Gives.mono {pc₁ pc' : PageCache} {n : ℕ} {p : SpanPtr} (h : Gives pc₁ U n pc' p)
    (hframe : ∀ q, U q → pc₁.spans q = pc.spans q) : Gives pc U n pc' p :=
  ⟨h.inv, h.new, h.span, fun q hq => (h.frame q hq).trans (hframe q hq)⟩

/-- Some list has a span long enough. -/
theorem newSpanRec_listed (h : Inv pc U r exact) {n fuel : ℕ} {os : Option ℕ} (hn : 0 < n)
    (hsome : pc.pageList n ≠ [] ∨ ∃ i, pc.largerList n = some i) :
    ∃ pc' p, newSpanRec n os (fuel + 1) pc = .ok (pc', p) ∧ Gives pc U n pc' p := by
  by_cases hl : pc.pageList n = []
  · obtain ⟨i, hi⟩ := hsome.resolve_left (not_not_intro hl)
    obtain ⟨hni, hne⟩ := largerList_some hi
    obtain ⟨pc', p, heq, hg⟩ := splitFrom_gives h hne hn hni
    exact ⟨pc', p, by simp only [newSpanRec, hl, hi]; exact heq, hg⟩
  · obtain ⟨p, ps, hk⟩ := List.exists_cons_of_ne_nil hl
    obtain ⟨pc', heq, hg⟩ := popFront_gives h hk
    exact ⟨pc', p, by simp only [newSpanRec, hk]; exact heq, hg⟩

theorem newSpanRec_gives (h : Inv pc U r exact) {n : ℕ} {os : Option ℕ} (hn : 0 < n) (hlt : n < NPAGES)
    (hok : pc.MmapOk (NPAGES - 1) os) :
    newSpanRec n os 2 pc = .error .badAlloc ∧ os = none ∨
      ∃ pc' p, newSpanRec n os 2 pc = .ok (pc', p) ∧ Gives pc U n pc' p := by
  by_cases hsome : pc.pageList n ≠ [] ∨ ∃ i, pc.largerList n = some i
  · exact .inr (newSpanRec_listed h hn hsome)
  · simp only [not_or, ne_eq, not_not, not_exists] at hsome
    have hnone : pc.largerList n = none := by
      cases hl : pc.largerList n with
      | none => rfl
      | some i => exact absurd hl (hsome.2 i)
    have heq : newSpanRec n os 2 pc = (pc.grow os).bind (newSpanRec n os 1) := by
      conv_lhs => unfold newSpanRec
      simp only [hsome.1, hnone]
      rfl
    rw [heq]
    cases os with
    | none => exact .inl ⟨rfl, rfl⟩
    | some base =>
      obtain ⟨pc₁, r₁, hgrow, h₁, hlast, hframe⟩ := grow_spec h hok
      -- The list of 128 pages has a span now, and it is `page_list_[n]` or a longer one.
      have hsome' : pc₁.pageList n ≠ [] ∨ ∃ i, pc₁.largerList n = some i := by
        by_cases hn' : n = NPAGES - 1
        · exact .inl (hn' ▸ hlast)
        · refine .inr (Option.ne_none_iff_exists'.1 fun hnone' => hlast ?_)
          exact largerList_none hnone' (by omega) (by decide)
      obtain ⟨pc', p, heq', hg⟩ := newSpanRec_listed h₁ hn hsome'
      exact .inr ⟨pc', p, by rw [hgrow]; exact heq', hg.mono hframe⟩

/-- `new_span` returns a span of the length asked for that was not in use, or
throws when the system has no memory. -/
theorem newSpan_spec (h : Inv pc U r exact) {n : ℕ} {os : Option ℕ} (hn : 0 < n) (h52 : n < 2 ^ 52)
    (hok : pc.MmapOk (requested n) os) :
    pc.newSpan n os = .error .badAlloc ∧ os = none ∨
      ∃ pc' p s, pc.newSpan n os = .ok (pc', p) ∧ Gives pc U n pc' p ∧ pc'.spans p = some s ∧
        s.blockSize = n * 2 ^ PAGESHIFT := by
  have hbytes : pageBytes n = n * 2 ^ PAGESHIFT := by
    unfold pageBytes size64 PAGESHIFT
    omega
  by_cases hlarge : NPAGES ≤ n
  · rw [requested, if_pos hlarge] at hok
    rw [newSpan, if_pos hlarge]
    cases os with
    | none => exact .inl ⟨rfl, rfl⟩
    | some base =>
      obtain ⟨hnU, hnl, -⟩ := h.nextSpan_new
      let s : Span := { Span.new base n (pc.found pc.nextSpan) with blockSize := pageBytes n }
      have hs := newSpanObject_spans_self pc s
      have hfill : Function.update (pc.newSpanObject s).1.pageidSpanMap base (some pc.nextSpan) =
          fill (pc.newSpanObject s).1.pageidSpanMap base (if n < NPAGES then n else 1) pc.nextSpan := by
        funext x
        rw [if_neg (by omega), fill, Function.update_apply]
        have : (base ≤ x ∧ x < base + 1) ↔ x = base := by omega
        simp only [this]
      have h₁ := (h.newSpanObject s).add hs hnU hnl h52 hok hfill
      refine .inr ⟨_, pc.nextSpan, s, rfl, ⟨⟨_, h₁⟩, hnU, ⟨s, hs, rfl, h.new_zero base n _⟩, fun q hq => ?_⟩, hs, hbytes⟩
      have hne : q ≠ pc.nextSpan := by
        intro he
        subst he
        exact hnU hq
      exact newSpanObject_spans_of_ne pc s hne
  · rw [requested, if_neg hlarge] at hok
    rw [newSpan, if_neg hlarge]
    rcases newSpanRec_gives h hn (by omega) hok with ⟨heq, hos⟩ | ⟨pc', p, heq, hg⟩
    · exact .inl ⟨by rw [heq]; rfl, hos⟩
    · obtain ⟨⟨r', hinv⟩, hnew, ⟨s, hs, hsn, hu⟩, hframe⟩ := hg
      refine .inr ⟨pc'.setSpan p { s with blockSize := pageBytes s.npages }, p, _, ?_,
        ⟨⟨r', hinv.setSpan _ (.inr rfl) hs rfl rfl⟩, hnew, ⟨_, setSpan_spans_self .., hsn, hu⟩, fun q hq => ?_⟩,
        setSpan_spans_self .., by rw [hsn, hbytes]⟩
      · rw [heq]
        simp only [bind, Except.bind, deref_eq hs]
      · have hne : q ≠ p := by
          intro he
          subst he
          exact hnew hq
        rw [setSpan_spans_of_ne _ _ hne, hframe q hq]

/-! ## release_to_pagecache -/

/-- The pages from `a` up to `b` are those of free spans. -/
def FreePages (pc : PageCache) (a b : ℕ) : Prop :=
  ∀ x, a ≤ x → x < b → ∃ k q t, q ∈ pc.pageList k ∧ pc.spans q = some t ∧ t.Pages x

/-- The span can take over the free spans before it from page `a` on. -/
structure Reaches (pc : PageCache) (s : Span) (a : ℕ) : Prop where
  le : a ≤ s.pageId
  free : FreePages pc a s.pageId
  short : s.pageId + s.npages < a + NPAGES
  start : a = s.pageId ∨ ∃ k q t, q ∈ pc.pageList k ∧ pc.spans q = some t ∧ t.pageId = a

/-- Where the first loop stops. -/
def Front (pc : PageCache) (s : Span) (a : ℕ) : Prop := Reaches pc s a ∧ ∀ b, Reaches pc s b → a ≤ b

/-- Only free pages are between the two spans, and they are short enough to become one
with these, and with what is taken over before. -/
def Near (pc : PageCache) (s t : Span) : Prop :=
  (t.pageId + t.npages ≤ s.pageId ∧ FreePages pc (t.pageId + t.npages) s.pageId ∧
    s.pageId + s.npages < t.pageId + NPAGES) ∨
  (s.pageId + s.npages ≤ t.pageId ∧ FreePages pc (s.pageId + s.npages) t.pageId ∧
    ∃ a, Front pc s a ∧ t.pageId + t.npages < a + NPAGES)

/-- No other span in use that is near `p` has count 0. -/
def Clear (pc : PageCache) (U : SpanPtr → Prop) (p : SpanPtr) : Prop :=
  ∀ s q t, pc.spans p = some s → U q → q ≠ p → pc.spans q = some t → t.usedCount = 0 → ¬ Near pc s t

/-- The same for the spans behind `p`, once those before it are taken over. -/
def ClearBehind (pc : PageCache) (U : SpanPtr → Prop) (p : SpanPtr) : Prop :=
  ∀ s q t, pc.spans p = some s → U q → q ≠ p → pc.spans q = some t → t.usedCount = 0 →
    s.pageId + s.npages ≤ t.pageId → FreePages pc (s.pageId + s.npages) t.pageId →
      s.pageId + NPAGES ≤ t.pageId + t.npages

/-- The spans in use other than `p` have blocks or pages out. -/
def Busy (pc : PageCache) (U : SpanPtr → Prop) (p : SpanPtr) : Prop :=
  ∀ q t, U q → q ≠ p → pc.spans q = some t → t.usedCount ≠ 0

theorem Busy.clear {p : SpanPtr} (h : Busy pc U p) : Clear pc U p :=
  fun _ q t _ hU hqp ht hu _ => h q t hU hqp ht hu

theorem FreePages.refl (pc : PageCache) {a b : ℕ} (h : b ≤ a) : FreePages pc a b := fun x h1 h2 => by omega

/-- The free spans of the one page cache are free in the other, too. -/
def FreeIn (pc pc' : PageCache) : Prop :=
  ∀ k q t, q ∈ pc.pageList k → pc.spans q = some t → q ∈ pc'.pageList k ∧ pc'.spans q = some t

theorem FreePages.mono {pc' : PageCache} {a b : ℕ} (h : FreePages pc a b) (hfree : FreeIn pc pc') :
    FreePages pc' a b := by
  intro x h1 h2
  obtain ⟨k, q, t, hq, ht, hx⟩ := h x h1 h2
  obtain ⟨hq', ht'⟩ := hfree k q t hq ht
  exact ⟨k, q, t, hq', ht', hx⟩

/-- The pages of a free span may be among them. -/
theorem FreePages.extend {a b c k : ℕ} {q : SpanPtr} {t : Span} (h : FreePages pc a b) (hq : q ∈ pc.pageList k)
    (ht : pc.spans q = some t) (hpages : ∀ x, b ≤ x → x < c → t.Pages x) : FreePages pc a c := by
  intro x h1 h2
  by_cases hb : x < b
  · exact h x h1 hb
  · exact ⟨k, q, t, hq, ht, hpages x (by omega) h2⟩

theorem Inv.weaken (h : Inv pc U r stale) {stale' : ℕ → Prop} (hst : ∀ x, stale x → stale' x) :
    Inv pc U r stale' :=
  ⟨⟨h.layout.tiles, fun x k hx => h.layout.found x k fun hs => hx (hst x hs), h.layout.bound⟩, h.on, h.off, h.free,
    h.nodup, h.held, h.apart, h.fresh, h.mapped, h.zero⟩

/-- A neighbour the map finds: another span, in use or free. -/
theorem Inv.neighbour (h : Inv pc U r stale) {p q : SpanPtr} {s : Span} {x : ℕ} (hp : U p)
    (hs : pc.spans p = some s) (hx : ¬ s.Pages x) (hst : ¬ stale x) (hq : pc.pageidSpanMap x = some q) :
    q ≠ p ∧ ∃ t, pc.spans q = some t ∧ t.Pages x ∧ 0 < t.npages ∧ (∀ y, t.Pages y → ¬ s.Pages y) ∧
      t.pageId + t.npages ≤ 2 ^ 52 ∧ (U q ∨ q ∈ pc.pageList t.npages ∧ ¬ U q ∧ t.npages < NPAGES) := by
  obtain ⟨a, n, hr, h1, h2, -⟩ := (h.layout.found x q hst).1 hq
  obtain ⟨t, ht, rfl, rfl, hact⟩ := h.active hr
  have hrp := h.on hs (.inl hp)
  have hqp : q ≠ p := by
    intro he
    subst he
    rw [hs] at ht
    cases ht
    exact hx ⟨h1, h2⟩
  obtain ⟨-, hpos, htop⟩ := h.layout.bound hr
  refine ⟨hqp, t, ht, ⟨h1, h2⟩, hpos, fun y hy hy' => hqp (h.layout.eq_of_mem hr hrp hy hy'), htop, ?_⟩
  exact hact.imp_right fun hfree => ⟨hfree.1, h.apart hfree.1, hfree.2.1⟩

/-- A free span has its range, and is in no other list. -/
theorem Inv.free_of (h : Inv pc U r stale) {k : ℕ} {q : SpanPtr} {t : Span} (hq : q ∈ pc.pageList k)
    (ht : pc.spans q = some t) : r q = some (t.pageId, t.npages) ∧ t.npages = k ∧ k < NPAGES ∧ t.usedCount = 0 := by
  obtain ⟨u, hu, rfl, hshort, hcount⟩ := h.free hq
  rw [ht] at hu
  cases hu
  exact ⟨h.on ht (.inr hq), rfl, hshort, hcount⟩

/-- Two free spans with a page in common are one. -/
theorem Inv.free_unique (h : Inv pc U r stale) {j k x : ℕ} {p q : SpanPtr} {s t : Span} (hp : p ∈ pc.pageList j)
    (hs : pc.spans p = some s) (hq : q ∈ pc.pageList k) (ht : pc.spans q = some t) (hx : s.Pages x) (hx' : t.Pages x) :
    s = t := by
  obtain rfl : p = q := h.layout.eq_of_mem (h.free_of hp hs).1 (h.free_of hq ht).1 hx hx'
  rw [hs] at ht
  exact Option.some.inj ht

/-- The free span with the page before a span in use ends there. -/
theorem Inv.free_end (h : Inv pc U r stale) {p q : SpanPtr} {s t : Span} {k : ℕ} (hp : U p) (hs : pc.spans p = some s)
    (hq : q ∈ pc.pageList k) (ht : pc.spans q = some t) (hx : t.Pages (s.pageId - 1)) :
    t.pageId + t.npages = s.pageId := by
  have hrs := h.on hs (.inl hp)
  obtain ⟨ha, hn, -⟩ := h.layout.bound hrs
  have hx2 := hx.2
  by_contra hne
  have hmem : t.pageId ≤ s.pageId ∧ s.pageId < t.pageId + t.npages := ⟨by have := hx.1; omega, by omega⟩
  have hqp := h.layout.eq_of_mem (h.free_of hq ht).1 hrs hmem ⟨Nat.le_refl _, by omega⟩
  exact h.apart hq (hqp ▸ hp)

/-- The first loop stops where there is no free span before, or one that is too long. -/
theorem Inv.front_self (h : Inv pc U r stale) {p : SpanPtr} {s : Span} (hp : U p) (hs : pc.spans p = some s)
    (hlt : s.npages < NPAGES) (hst : ¬ stale (s.pageId - 1))
    (hstop : ∀ k q t, pc.pageidSpanMap (s.pageId - 1) = some q → q ∈ pc.pageList k → pc.spans q = some t →
      NPAGES ≤ t.npages + s.npages) : Front pc s s.pageId := by
  refine ⟨⟨Nat.le_refl _, .refl pc (Nat.le_refl _), by omega, .inl rfl⟩, fun b hb => ?_⟩
  by_contra hbs
  obtain ⟨k, q, t, hq, ht, hx⟩ := hb.free (s.pageId - 1) (by omega) (by omega)
  obtain ⟨hrq, rfl, hshort, -⟩ := h.free_of hq ht
  have hend := h.free_end hp hs hq ht hx
  have hfound := (h.layout.found (s.pageId - 1) q hst).2 ((finds_of_eq hrq).2 ⟨hx.1, hx.2, .inl hshort⟩)
  have hlong := hstop _ q t hfound hq ht
  have hshort' := hb.short
  -- Then `b` is a page of that span, and not its first one.
  rcases hb.start with he | ⟨j, q', u, hq', hu, rfl⟩
  · omega
  · have hpos := (h.layout.bound (h.free_of hq' hu).1).2.1
    obtain rfl := h.free_unique hq ht hq' hu (x := u.pageId) ⟨by omega, by omega⟩ ⟨Nat.le_refl _, by omega⟩
    omega

/-- `p'` is a span with count 0 in the place of `p`: the map is stale on its
pages at most, and the other spans in use are as they were. -/
structure Merged (pc : PageCache) (U : SpanPtr → Prop) (p : SpanPtr) (pc' : PageCache) (p' : SpanPtr) : Prop where
  span : ∃ r' s', Inv pc' (fun q => U q ∧ q ≠ p ∨ q = p') r' s'.Pages ∧ pc'.spans p' = some s' ∧
    s'.usedCount = 0 ∧ s'.npages < NPAGES
  new : p' = p ∨ ¬ U p'
  frame : ∀ q, U q → q ≠ p → pc'.spans q = pc.spans q

theorem Merged.refl (h : Inv pc U r stale) {p : SpanPtr} {s : Span} (hp : U p) (hs : pc.spans p = some s)
    (hu : s.usedCount = 0) (hlt : s.npages < NPAGES) (hst : ∀ x, stale x → s.Pages x) : Merged pc U p pc p := by
  refine ⟨⟨r, s, (h.weaken hst).congr fun q => ?_, hs, hu, hlt⟩, .inl rfl, fun _ _ _ => rfl⟩
  constructor
  · intro he
    rcases he with ⟨hq, -⟩ | rfl
    · exact hq
    · exact hp
  · intro hq
    by_cases hqp : q = p
    · exact .inr hqp
    · exact .inl ⟨hq, hqp⟩

/-! ### A merge -/

theorem Inv.mem_erase (h : Inv pc U r stale) {k : ℕ} {q : SpanPtr} {pc₁ : PageCache} (hq : q ∈ pc.pageList k)
    (heq : pc.erase k q = .ok pc₁) (j : ℕ) (x : SpanPtr) : x ∈ pc₁.pageList j ↔ x ∈ pc.pageList j ∧ x ≠ q := by
  rw [erase, if_pos hq] at heq
  cases heq
  by_cases hj : j = k
  · subst hj
    simp only [Function.update_self]
    rw [(h.nodup j).mem_erase_iff, and_comm]
  · simp only [Function.update_of_ne hj]
    refine (and_iff_left_of_imp fun hx => ?_).symm
    intro he
    subst he
    obtain ⟨u, hu, -⟩ := h.free hx
    exact hj ((h.free_of hx hu).2.1.symm.trans (h.free_of hq hu).2.1)

section

variable {pc' : PageCache} {U' : SpanPtr → Prop} {p q : SpanPtr} {s t s' : Span} {k : ℕ}

/-- After the free span `q` is merged with `p` the other free spans are as before. -/
theorem Inv.free_merged (h : Inv pc U r stale) (hp : U p) (hq : q ∈ pc.pageList k) {pc₁ : PageCache}
    (heq : pc.erase k q = .ok pc₁) (hlist : pc'.pageList = pc₁.pageList)
    (hspans : ∀ x, x ≠ p → x ≠ q → pc'.spans x = pc.spans x) (j : ℕ) (x : SpanPtr) (u : Span) :
    x ∈ pc'.pageList j ∧ pc'.spans x = some u ↔ (x ∈ pc.pageList j ∧ pc.spans x = some u) ∧ x ≠ q := by
  rw [hlist, h.mem_erase hq heq, and_right_comm]
  refine and_congr_left fun hxq => and_congr_right fun hx => ?_
  have hxp : x ≠ p := by
    intro he
    subst he
    exact h.apart hx hp
  rw [hspans x hxp hxq]

/-- The first loop stops at the same page, whether or not it has taken over the first
span already. -/
theorem front_merged {a : ℕ} (hq : q ∈ pc.pageList k) (ht : pc.spans q = some t)
    (hadj : t.pageId + t.npages = s.pageId) (hsum : t.npages + s.npages < NPAGES) (ha : s'.pageId = t.pageId)
    (hn : s'.npages = t.npages + s.npages)
    (hfree : ∀ j x u, x ∈ pc'.pageList j ∧ pc'.spans x = some u ↔ (x ∈ pc.pageList j ∧ pc.spans x = some u) ∧ x ≠ q) :
    Front pc' s' a ↔ Front pc s a := by
  have hin : FreeIn pc' pc := fun j x u hx hu => ((hfree j x u).1 ⟨hx, hu⟩).1
  -- A span that starts before `q` does is another one.
  have hout : ∀ {j x u}, x ∈ pc.pageList j → pc.spans x = some u → u.pageId < t.pageId →
      x ∈ pc'.pageList j ∧ pc'.spans x = some u := by
    intro j x u hx hu hlt
    refine (hfree j x u).2 ⟨⟨hx, hu⟩, ?_⟩
    intro he
    subst he
    rw [hu] at ht
    cases ht
    omega
  have hto : ∀ {b}, Reaches pc' s' b → Reaches pc s b := by
    intro b hb
    have hle := hb.le
    have hshort := hb.short
    refine ⟨by omega, ?_, by omega, ?_⟩
    · have hbefore := hb.free.mono hin
      rw [ha] at hbefore
      exact hbefore.extend hq ht fun x h1 h2 => ⟨h1, by omega⟩
    · rcases hb.start with rfl | ⟨j, x, u, hx, hu, hstart⟩
      · exact .inr ⟨k, q, t, hq, ht, ha.symm⟩
      · exact .inr ⟨j, x, u, (hin j x u hx hu).1, (hin j x u hx hu).2, hstart⟩
  have hof : ∀ {b}, Reaches pc s b → b ≤ t.pageId → Reaches pc' s' b := by
    intro b hb hbt
    have hshort := hb.short
    refine ⟨by omega, fun x h1 h2 => ?_, by omega, ?_⟩
    · obtain ⟨j, y, u, hy, hu, hx⟩ := hb.free x h1 (by omega)
      obtain ⟨hy', hu'⟩ := hout hy hu (by have := hx.1; omega)
      exact ⟨j, y, u, hy', hu', hx⟩
    · by_cases he : b = t.pageId
      · exact .inl (he.trans ha.symm)
      · rcases hb.start with hs | ⟨j, y, u, hy, hu, hstart⟩
        · omega
        · obtain ⟨hy', hu'⟩ := hout hy hu (by omega)
          exact .inr ⟨j, y, u, hy', hu', hstart⟩
  have hself : Reaches pc s t.pageId :=
    ⟨by omega, fun x h1 h2 => ⟨k, q, t, hq, ht, h1, by omega⟩, by omega, .inr ⟨k, q, t, hq, ht, rfl⟩⟩
  constructor
  · intro hf
    obtain ⟨hreach, hleast⟩ := hf
    refine ⟨hto hreach, fun b hb => ?_⟩
    by_cases hbt : b ≤ t.pageId
    · exact hleast b (hof hb hbt)
    · have hle := hreach.le
      omega
  · intro hf
    obtain ⟨hreach, hleast⟩ := hf
    exact ⟨hof hreach (hleast _ hself), fun b hb => hleast b (hto hb)⟩

theorem Clear.merge_prev (hclear : Clear pc U p) (hs : pc.spans p = some s) (hq : q ∈ pc.pageList k)
    (ht : pc.spans q = some t) (hadj : t.pageId + t.npages = s.pageId) (hsum : t.npages + s.npages < NPAGES)
    (hs' : pc'.spans q = some s')
    (ha : s'.pageId = t.pageId) (hn : s'.npages = t.npages + s.npages)
    (hfree : ∀ j x u, x ∈ pc'.pageList j ∧ pc'.spans x = some u ↔ (x ∈ pc.pageList j ∧ pc.spans x = some u) ∧ x ≠ q)
    (hU : ∀ x, U' x → x ≠ q → U x ∧ x ≠ p ∧ pc'.spans x = pc.spans x) : Clear pc' U' q := by
  have hin : FreeIn pc' pc := fun j x u hx hu => ((hfree j x u).1 ⟨hx, hu⟩).1
  intro s₀ x u hs₀ hx hxq hu hcount hnear
  rw [hs'] at hs₀
  cases hs₀
  obtain ⟨hxU, hxp, hsame⟩ := hU x hx hxq
  rw [hsame] at hu
  refine hclear s x u hs hxU hxp hu hcount ?_
  rcases hnear with ⟨hle, hbetween, hshort⟩ | ⟨hle, hbetween, a, hfront, hshort⟩
  · refine .inl ⟨by omega, ?_, by omega⟩
    have hbefore := hbetween.mono hin
    rw [ha] at hbefore
    exact hbefore.extend hq ht fun y h1 h2 => ⟨h1, by omega⟩
  · have hend : s'.pageId + s'.npages = s.pageId + s.npages := by omega
    rw [hend] at hle hbetween
    exact .inr ⟨hle, hbetween.mono hin, a, (front_merged hq ht hadj hsum ha hn hfree).1 hfront, hshort⟩

theorem ClearBehind.merge_next (hclear : ClearBehind pc U p) (hs : pc.spans p = some s) (hq : q ∈ pc.pageList k)
    (ht : pc.spans q = some t) (hadj : t.pageId = s.pageId + s.npages) (hs' : pc'.spans p = some s')
    (ha : s'.pageId = s.pageId) (hn : s'.npages = s.npages + t.npages) (hin : FreeIn pc' pc)
    (hU : ∀ x, U x → x ≠ p → pc'.spans x = pc.spans x) : ClearBehind pc' U p := by
  intro s₀ x u hs₀ hx hxp hu hcount hle hbetween
  rw [hs'] at hs₀
  cases hs₀
  rw [hU x hx hxp] at hu
  have hbehind : FreePages pc (s.pageId + s.npages) u.pageId := by
    intro y h1 h2
    by_cases hy : y < t.pageId + t.npages
    · exact ⟨k, q, t, hq, ht, ⟨by omega, hy⟩⟩
    · exact hbetween.mono hin y (by omega) h2
  have hlong := hclear s x u hs hx hxp hu hcount (by omega) hbehind
  omega

end

/-- The span before is taken off its list and takes over. -/
theorem mergePrev_step (h : Inv pc U r stale) {p q : SpanPtr} {s t : Span} (hp : U p) (hs : pc.spans p = some s)
    (hst : ∀ x, stale x → s.Pages x) (ht : pc.spans q = some t) (hq : q ∈ pc.pageList t.npages)
    (hadj : t.pageId + t.npages = s.pageId) :
    ∃ pc₁ r', pc.erase t.npages q = .ok pc₁ ∧
      Inv ((pc₁.setSpan q { t with npages := t.npages + s.npages }).deleteSpan p)
        (fun x => (U x ∨ x = q) ∧ x ≠ p) r' ({ t with npages := t.npages + s.npages } : Span).Pages ∧
      ((pc₁.setSpan q { t with npages := t.npages + s.npages }).deleteSpan p).spans q =
        some { t with npages := t.npages + s.npages } ∧
      ∀ x, x ≠ p → x ≠ q →
        ((pc₁.setSpan q { t with npages := t.npages + s.npages }).deleteSpan p).spans x = pc.spans x := by
  obtain ⟨pc₁, heq, h₁, hspans, -⟩ := erase_spec h hq
  have hqp : q ≠ p := by
    intro he
    exact h.apart hq (he ▸ hp)
  have hs₁ : pc₁.spans p = some s := by rw [hspans]; exact hs
  have ht₁ : pc₁.spans q = some t := by rw [hspans]; exact ht
  obtain ⟨r', h₂⟩ := h₁.join { t with npages := t.npages + s.npages } (.inr rfl) (.inl hp) ht₁ hs₁ hadj.symm rfl rfl
    fun x hx => by
      have := hst x hx
      unfold Span.Pages at this
      omega
  refine ⟨pc₁, r', heq, h₂, ?_, fun x hxp hxq => ?_⟩
  · rw [deleteSpan_spans_of_ne _ hqp, setSpan_spans_self]
  · rw [deleteSpan_spans_of_ne _ hxp, setSpan_spans_of_ne _ _ hxq, hspans]

/-- The first loop stops here, or goes on with the span before. -/
theorem mergePrev_cases (h : Inv pc U r stale) {p : SpanPtr} {s : Span} (hp : U p) (hs : pc.spans p = some s)
    (hlt : s.npages < NPAGES) (hst : ∀ x, stale x → s.Pages x) :
    (Front pc s s.pageId ∧ ∀ fuel, mergePrev (fuel + 1) pc p = .ok (pc, p)) ∨
    ∃ q t, pc.pageidSpanMap (dec64 s.pageId) = some q ∧ q ≠ p ∧ pc.spans q = some t ∧ t.usedCount = 0 ∧
      size64 (t.npages + s.npages) < NPAGES ∧ t.npages + s.npages < NPAGES ∧ t.pageId + t.npages = s.pageId ∧
      (U q ∨ q ∈ pc.pageList t.npages ∧ ¬ U q) ∧
      ∀ fuel, mergePrev (fuel + 1) pc p = (do
        let pc ← pc.erase t.npages q
        mergePrev fuel ((pc.setSpan q { t with npages := t.npages + s.npages }).deleteSpan p) q) := by
  obtain ⟨ha, hn, htop⟩ := h.layout.bound (h.on hs (.inl hp))
  have hdec : dec64 s.pageId = s.pageId - 1 := SizeClass.dec64_eq ha (by omega)
  have hout : ¬ s.Pages (s.pageId - 1) := by
    unfold Span.Pages
    omega
  have hst' : ¬ stale (s.pageId - 1) := fun hx => hout (hst _ hx)
  cases hq : pc.pageidSpanMap (s.pageId - 1) with
  | none =>
    refine .inl ⟨h.front_self hp hs hlt hst' fun k q t hq' => ?_, fun fuel => ?_⟩
    · rw [hq] at hq'
      cases hq'
    · simp only [mergePrev, bind, Except.bind, deref_eq hs, hdec, hq]
  | some q =>
    obtain ⟨hqp, t, ht, htx, htn, hdisj, htop', hact⟩ := h.neighbour hp hs hout hst' hq
    have hsole : ∀ {q' t'}, pc.pageidSpanMap (s.pageId - 1) = some q' → pc.spans q' = some t' → q' = q ∧ t' = t := by
      intro q' t' hq' ht'
      rw [hq] at hq'
      cases hq'
      rw [ht] at ht'
      cases ht'
      exact ⟨rfl, rfl⟩
    by_cases hu : t.usedCount = 0
    · by_cases hsum : size64 (t.npages + s.npages) < NPAGES
      · have hmod : size64 (t.npages + s.npages) = t.npages + s.npages := Nat.mod_eq_of_lt (by omega)
        -- The span before ends where this one starts.
        have hadj : t.pageId + t.npages = s.pageId := by
          have hnot := hdisj s.pageId
          unfold Span.Pages at htx hnot
          omega
        refine .inr ⟨q, t, by rw [hdec, hq], hqp, ht, hu, hsum, by omega, hadj,
          hact.imp_right fun hfree => ⟨hfree.1, hfree.2.1⟩, fun fuel => ?_⟩
        have hcount : ¬ t.usedCount ≠ 0 := not_not_intro hu
        simp only [mergePrev, bind, Except.bind, deref_eq hs, hdec, hq, deref_eq ht, if_neg hcount,
          if_neg (Nat.not_le.2 hsum)]
      · refine .inl ⟨h.front_self hp hs hlt hst' fun k q' t' hq' hl ht' => ?_, fun fuel => ?_⟩
        · obtain ⟨rfl, rfl⟩ := hsole hq' ht'
          rwa [size64, Nat.mod_eq_of_lt (by omega), Nat.not_lt] at hsum
        · have hcount : ¬ t.usedCount ≠ 0 := not_not_intro hu
          simp only [mergePrev, bind, Except.bind, deref_eq hs, hdec, hq, deref_eq ht, if_neg hcount,
            if_pos (Nat.not_lt.1 hsum)]
    · refine .inl ⟨h.front_self hp hs hlt hst' fun k q' t' hq' hl ht' => ?_, fun fuel => ?_⟩
      · obtain ⟨rfl, rfl⟩ := hsole hq' ht'
        exact absurd (h.free_of hl ht).2.2.2 hu
      · have hcount : t.usedCount ≠ 0 := hu
        simp only [mergePrev, bind, Except.bind, deref_eq hs, hdec, hq, deref_eq ht, if_pos hcount]

/-- The spans in use when `p` was merged into the free span `q`. -/
theorem inUse_prev {p q p' : SpanPtr} (hqU : ¬ U q) (x : SpanPtr) :
    U x ∧ x ≠ p ∨ x = p' ↔ ((U x ∨ x = q) ∧ x ≠ p) ∧ x ≠ q ∨ x = p' := by
  refine or_congr_left ?_
  constructor
  · intro he
    obtain ⟨hx, hxp⟩ := he
    refine ⟨⟨.inl hx, hxp⟩, ?_⟩
    intro he
    exact hqU (he ▸ hx)
  · intro he
    obtain ⟨⟨hx, hxp⟩, hxq⟩ := he
    exact ⟨hx.resolve_right hxq, hxp⟩

/-- What the first loop has done after it took over `q` it has done for `p`. -/
theorem Merged.of_prev {pc₁ pc' : PageCache} {p q p' : SpanPtr}
    (hm : Merged pc₁ (fun x => (U x ∨ x = q) ∧ x ≠ p) q pc' p') (hqU : ¬ U q)
    (hframe : ∀ x, x ≠ p → x ≠ q → pc₁.spans x = pc.spans x) : Merged pc U p pc' p' := by
  obtain ⟨⟨r', s', hinv, hs', hu, hlt⟩, hnew, hfr⟩ := hm
  refine ⟨⟨r', s', hinv.congr fun x => inUse_prev hqU x, hs', hu, hlt⟩, ?_, fun x hx hxp => ?_⟩
  · by_cases hp' : p' = p
    · exact .inl hp'
    · refine .inr fun hU => ?_
      rcases hnew with rfl | hno
      · exact hqU hU
      · exact hno ⟨.inl hU, hp'⟩
  · have hxq : x ≠ q := by
      intro he
      exact hqU (he ▸ hx)
    rw [hfr x ⟨.inl hx, hxp⟩ hxq, hframe x hxp hxq]

theorem mergePrev_spec {fuel : ℕ} : ∀ {pc : PageCache} {U : SpanPtr → Prop} {r : Ranges SpanPtr} {stale : ℕ → Prop}
    {p : SpanPtr} {s : Span}, Inv pc U r stale → U p → pc.spans p = some s → s.usedCount = 0 → s.npages < NPAGES →
    (∀ x, stale x → s.Pages x) → Clear pc U p → NPAGES ≤ fuel + s.npages →
    ∃ pc' p', mergePrev fuel pc p = .ok (pc', p') ∧ Merged pc U p pc' p' ∧
      ClearBehind pc' (fun q => U q ∧ q ≠ p ∨ q = p') p' := by
  induction fuel with
  | zero =>
    intro pc U r stale p s _ _ _ _ hlt _ _ hfuel
    omega
  | succ fuel ih =>
    intro pc U r stale p s h hp hs hu hlt hst hclear hfuel
    rcases mergePrev_cases h hp hs hlt hst with
      ⟨hfront, heq⟩ | ⟨q, t, -, hqp, ht, hcount, -, hsum, hadj, hact, heq⟩
    · -- What is behind is near with nothing taken over before.
      refine ⟨pc, p, heq fuel, Merged.refl h hp hs hu hlt hst, fun s₀ q t hs₀ hq hqp ht hcount hle hbetween => ?_⟩
      rw [hs] at hs₀
      cases hs₀
      by_contra hshort
      exact hclear s q t hs (hq.resolve_right hqp).1 hqp ht hcount
        (.inr ⟨hle, hbetween, s.pageId, hfront, Nat.not_le.1 hshort⟩)
    · have hnotU : ¬ U q := fun hU => hclear s q t hs hU hqp ht hcount
        (.inl ⟨by omega, .refl pc (by omega), by omega⟩)
      obtain ⟨hl, -⟩ := hact.resolve_left hnotU
      have hn := (h.layout.bound (h.free_of hl ht).1).2.1
      obtain ⟨pc₁, r', herase, h₁, hqs, hframe⟩ := mergePrev_step h hp hs hst ht hl hadj
      have hclear₁ : Clear _ (fun x => (U x ∨ x = q) ∧ x ≠ p) q :=
        hclear.merge_prev hs hl ht hadj hsum hqs rfl rfl (h.free_merged hp hl herase (by rfl) hframe)
          fun x hx hxq => ⟨hx.1.resolve_right hxq, hx.2, hframe x hx.2 hxq⟩
      obtain ⟨pc', p', hres, hm, hbehind⟩ := ih h₁ ⟨.inr rfl, hqp⟩ hqs hcount (by simp only; omega)
        (fun x hx => hx) hclear₁ (by simp only; omega)
      refine ⟨pc', p', by rw [heq fuel, herase]; exact hres, hm.of_prev hnotU hframe, fun s₀ x u hs₀ hx => ?_⟩
      exact hbehind s₀ x u hs₀ ((inUse_prev hnotU x).1 hx)

/-- The span behind is taken off its list and taken over. -/
theorem mergeNext_step (h : Inv pc U r stale) {p q : SpanPtr} {s t : Span} (hp : U p) (hs : pc.spans p = some s)
    (hst : ∀ x, stale x → s.Pages x) (ht : pc.spans q = some t) (hq : q ∈ pc.pageList t.npages)
    (hadj : t.pageId = s.pageId + s.npages) :
    ∃ pc₁ r', pc.erase t.npages q = .ok pc₁ ∧
      Inv ((pc₁.setSpan p { s with npages := s.npages + t.npages }).deleteSpan q) U r'
        ({ s with npages := s.npages + t.npages } : Span).Pages ∧
      ((pc₁.setSpan p { s with npages := s.npages + t.npages }).deleteSpan q).spans p =
        some { s with npages := s.npages + t.npages } ∧
      ∀ x, x ≠ p → x ≠ q →
        ((pc₁.setSpan p { s with npages := s.npages + t.npages }).deleteSpan q).spans x = pc.spans x := by
  obtain ⟨pc₁, heq, h₁, hspans, -⟩ := erase_spec h hq
  have hUq : ∀ {x}, U x → x ≠ q := by
    intro x hx he
    exact h.apart hq (he ▸ hx)
  obtain ⟨r', h₂⟩ := h₁.join { s with npages := s.npages + t.npages } (.inl hp) (.inr rfl)
    (by rw [hspans]; exact hs) (by rw [hspans]; exact ht) hadj rfl rfl fun x hx => by
      have := hst x hx
      unfold Span.Pages at this
      omega
  refine ⟨pc₁, r', heq, h₂.congr fun x => ?_, ?_, fun x hxp hxq => ?_⟩
  · constructor
    · exact fun hx => ⟨.inl hx, hUq hx⟩
    · exact fun hx => hx.1.resolve_right hx.2
  · rw [deleteSpan_spans_of_ne _ (hUq hp), setSpan_spans_self]
  · rw [deleteSpan_spans_of_ne _ hxq, setSpan_spans_of_ne _ _ hxp, hspans]

/-- The second loop stops here, or goes on with the span behind. -/
theorem mergeNext_cases (h : Inv pc U r stale) {p : SpanPtr} {s : Span} (hp : U p) (hs : pc.spans p = some s)
    (hlt : s.npages < NPAGES) (hst : ∀ x, stale x → s.Pages x) :
    ((∀ q t, pc.pageidSpanMap (s.pageId + s.npages) = some q → pc.spans q = some t → t.usedCount = 0 →
        NPAGES ≤ t.npages + s.npages) ∧ ∀ fuel, mergeNext (fuel + 1) pc p = .ok pc) ∨
    ∃ q t, pc.pageidSpanMap (s.pageId + s.npages) = some q ∧ q ≠ p ∧ pc.spans q = some t ∧ t.usedCount = 0 ∧
      size64 (t.npages + s.npages) < NPAGES ∧ t.npages + s.npages < NPAGES ∧ t.pageId = s.pageId + s.npages ∧
      (U q ∨ q ∈ pc.pageList t.npages ∧ ¬ U q) ∧
      ∀ fuel, mergeNext (fuel + 1) pc p = (do
        let pc ← pc.erase t.npages q
        mergeNext fuel ((pc.setSpan p { s with npages := s.npages + t.npages }).deleteSpan q) p) := by
  obtain ⟨-, hn, htop⟩ := h.layout.bound (h.on hs (.inl hp))
  have hout : ¬ s.Pages (s.pageId + s.npages) := by
    unfold Span.Pages
    omega
  cases hq : pc.pageidSpanMap (s.pageId + s.npages) with
  | none =>
    refine .inl ⟨fun q t hq' => ?_, fun fuel => ?_⟩
    · cases hq'
    · simp only [mergeNext, bind, Except.bind, deref_eq hs, hq]
  | some q =>
    obtain ⟨hqp, t, ht, htx, htn, hdisj, htop', hact⟩ := h.neighbour hp hs hout (fun hx => hout (hst _ hx)) hq
    have hsole : ∀ {q' t'}, some q = some q' → pc.spans q' = some t' → t' = t := by
      intro q' t' hq' ht'
      cases hq'
      rw [ht] at ht'
      cases ht'
      rfl
    by_cases hu : t.usedCount = 0
    · have hcount : ¬ t.usedCount ≠ 0 := not_not_intro hu
      by_cases hsum : size64 (t.npages + s.npages) < NPAGES
      · have hmod : size64 (t.npages + s.npages) = t.npages + s.npages := Nat.mod_eq_of_lt (by omega)
        -- The span behind starts where this one ends.
        have hadj : t.pageId = s.pageId + s.npages := by
          have hnot := hdisj (s.pageId + s.npages - 1)
          unfold Span.Pages at htx hnot
          omega
        refine .inr ⟨q, t, rfl, hqp, ht, hu, hsum, by omega, hadj,
          hact.imp_right fun hfree => ⟨hfree.1, hfree.2.1⟩, fun fuel => ?_⟩
        simp only [mergeNext, bind, Except.bind, deref_eq hs, hq, deref_eq ht, if_neg hcount,
          if_neg (Nat.not_le.2 hsum)]
      · refine .inl ⟨fun q' t' hq' ht' _ => ?_, fun fuel => ?_⟩
        · obtain rfl := hsole hq' ht'
          rwa [size64, Nat.mod_eq_of_lt (by omega), Nat.not_lt] at hsum
        · simp only [mergeNext, bind, Except.bind, deref_eq hs, hq, deref_eq ht, if_neg hcount,
            if_pos (Nat.not_lt.1 hsum)]
    · refine .inl ⟨fun q' t' hq' ht' hu' => ?_, fun fuel => ?_⟩
      · obtain rfl := hsole hq' ht'
        exact absurd hu' hu
      · have hcount : t.usedCount ≠ 0 := hu
        simp only [mergeNext, bind, Except.bind, deref_eq hs, hq, deref_eq ht, if_pos hcount]

theorem mergeNext_spec {fuel : ℕ} : ∀ {pc : PageCache} {U : SpanPtr → Prop} {r : Ranges SpanPtr}
    {p : SpanPtr} {s : Span}, Inv pc U r s.Pages → U p → pc.spans p = some s → s.usedCount = 0 → s.npages < NPAGES →
    ClearBehind pc U p → NPAGES ≤ fuel + s.npages →
    ∃ pc', mergeNext fuel pc p = .ok pc' ∧ Merged pc U p pc' p := by
  induction fuel with
  | zero =>
    intro pc U r p s _ _ _ _ hlt _ hfuel
    omega
  | succ fuel ih =>
    intro pc U r p s h hp hs hu hlt hclear hfuel
    rcases mergeNext_cases h hp hs hlt fun _ hx => hx with
      ⟨-, heq⟩ | ⟨q, t, -, hqp, ht, hcount, -, hsum, hadj, hact, heq⟩
    · exact ⟨pc, heq fuel, Merged.refl h hp hs hu hlt fun _ hx => hx⟩
    · have hnotU : ¬ U q := by
        intro hU
        have hlong := hclear s q t hs hU hqp ht hcount (by omega) (.refl pc (by omega))
        omega
      obtain ⟨hl, -⟩ := hact.resolve_left hnotU
      have hn := (h.layout.bound (h.free_of hl ht).1).2.1
      obtain ⟨pc₁, r', herase, h₁, hps, hother⟩ := mergeNext_step h hp hs (fun _ hx => hx) ht hl hadj
      have hframe : ∀ x, U x → x ≠ p →
          ((pc₁.setSpan p { s with npages := s.npages + t.npages }).deleteSpan q).spans x = pc.spans x := by
        intro x hx hxp
        refine hother x hxp ?_
        intro he
        exact hnotU (he ▸ hx)
      have hclear₁ := hclear.merge_next hs hl ht hadj hps rfl rfl
        (fun j x u hx hu => ((h.free_merged hp hl herase (by rfl) hother j x u).1 ⟨hx, hu⟩).1) hframe
      obtain ⟨pc', hres, hm⟩ := ih h₁ hp hps hu (by simp only; omega) hclear₁ (by simp only; omega)
      refine ⟨pc', by rw [heq fuel, herase]; exact hres, hm.span, hm.new, fun x hx hxp => ?_⟩
      rw [hm.frame x hx hxp, hframe x hx hxp]

/-- A long span goes back to the system. -/
theorem Inv.drop (h : Inv pc U r exact) {p : SpanPtr} {s : Span} (hp : U p) (hs : pc.spans p = some s)
    (hlong : NPAGES ≤ s.npages) (ok : Bool) {spans : SpanPtr → Option Span}
    (hspans : ∀ q, q ≠ p → spans q = pc.spans q) :
    Inv { PageCache.sysFree { pc with pageidSpanMap := Function.update pc.pageidSpanMap s.pageId none }
          s.pageId s.npages ok with spans } (fun q => U q ∧ q ≠ p) (Function.update r p none) exact := by
  have hrp := h.on hs (.inl hp)
  obtain ⟨ha, -, htop⟩ := h.layout.bound hrp
  have hother : ∀ q, q ≠ p → Function.update r p none q = r q := fun q hq => Function.update_of_ne hq ..
  refine h.relayout rfl rfl (fun {k q} hq => ?_) (fun {q} hq => ?_) (fun {q} hq hk => ?_) (fun {q t} hq => ?_) ?_
    fun x hx => ?_
  · have hne : q ≠ p := by
      intro he
      subst he
      exact h.apart hq hp
    exact ⟨hspans q hne, hother q hne, fun hU => h.apart hq hU.1⟩
  · obtain ⟨t, ht⟩ := h.held hq.1
    exact ⟨t, by simp only [hspans q hq.2, ht], by rw [hother q hq.2]; exact h.on ht (.inl hq.1)⟩
  · by_cases hqp : q = p
    · subst hqp
      exact Function.update_self ..
    · rw [hother q hqp]
      exact h.off (fun hU => hq ⟨hU, hqp⟩) hk
  · have hq' : spans q = some t := hq
    by_cases hqp : q = p
    · subst hqp
      exact h.fresh hs
    · rw [hspans q hqp] at hq'
      exact h.fresh hq'
  · refine h.layout.drop hrp (Function.update_self ..) hother hlong fun x => ?_
    rw [sysFree, sysPages_eq (by omega)]
    simp only [Bool.and_eq_true, Bool.not_eq_true', decide_eq_false_iff_not]
  · simp only [sysFree, Bool.and_eq_true, Bool.or_eq_true] at hx ⊢
    exact ⟨h.mapped x hx.1, .inl hx.2⟩

/-- `release_to_pagecache` takes a span with count 0 out of use and leaves
the others as they are, provided none of them near it has count 0. -/
theorem releaseToPagecache_clear (h : Inv pc U r exact) {p : SpanPtr} {s : Span} (hp : U p) (hs : pc.spans p = some s)
    (hu : s.usedCount = 0) (hclear : Clear pc U p) (ok : Bool) :
    ∃ pc' r', pc.releaseToPagecache p ok = .ok pc' ∧ Inv pc' (fun q => U q ∧ q ≠ p) r' exact ∧
      ∀ q, U q → q ≠ p → pc'.spans q = pc.spans q := by
  by_cases hlong : NPAGES ≤ s.npages
  · simp only [releaseToPagecache, bind, Except.bind, deref_eq hs, if_pos hlong]
    cases ok with
    | true =>
      exact ⟨_, _, rfl, h.drop hp hs hlong true fun q hq => deleteSpan_spans_of_ne _ hq,
        fun q _ hqp => deleteSpan_spans_of_ne _ hqp⟩
    | false =>
      exact ⟨_, _, rfl, h.drop hp hs hlong false fun q _ => rfl, fun q _ _ => rfl⟩
  · have hlt : s.npages < NPAGES := by omega
    simp only [releaseToPagecache, bind, Except.bind, deref_eq hs, if_neg hlong]
    obtain ⟨pc₁, p₁, heq₁, ⟨⟨r₁, s₁, h₁, hs₁, hu₁, hlt₁⟩, hnew, hframe₁⟩, hbehind⟩ :=
      mergePrev_spec h hp hs hu hlt (fun _ hx => hx.elim) hclear (Nat.le_add_right _ _)
    obtain ⟨pc₂, heq₂, ⟨r₂, s₂, h₂, hs₂, hu₂, hlt₂⟩, -, hframe₂⟩ :=
      mergeNext_spec h₁ (.inr rfl) hs₁ hu₁ hlt₁ hbehind (Nat.le_add_right _ _)
    simp only [heq₁, heq₂, deref_eq hs₂]
    have h₃ := h₂.enter (.inr rfl) hs₂ hlt₂ fun _ hx => hx
    have h₄ := h₃.pushFront (.inr rfl) hs₂ hlt₂ hu₂
    have hp₁ : ∀ q, U q → q ≠ p → q ≠ p₁ := by
      intro q hU hne he
      subst he
      rcases hnew with rfl | hno
      · exact hne rfl
      · exact hno hU
    refine ⟨_, r₂, rfl, h₄.congr fun q => ?_, fun q hU hne => ?_⟩
    · constructor
      · intro he
        obtain ⟨hU, hne⟩ := he
        exact ⟨.inl ⟨.inl ⟨hU, hne⟩, hp₁ q hU hne⟩, hp₁ q hU hne⟩
      · intro he
        obtain ⟨⟨⟨hU, hne⟩ | rfl, hq⟩ | rfl, hq'⟩ := he
        · exact ⟨hU, hne⟩
        · exact absurd rfl hq
        · exact absurd rfl hq'
    · rw [pushFront_spans, mapPages_spans, hframe₂ q (.inl ⟨hU, hne⟩) (hp₁ q hU hne), hframe₁ q hU hne]

/-- It is so where all the others count something. -/
theorem releaseToPagecache_spec (h : Inv pc U r exact) {p : SpanPtr} {s : Span} (hp : U p) (hs : pc.spans p = some s)
    (hu : s.usedCount = 0) (hbusy : Busy pc U p) (ok : Bool) :
    ∃ pc' r', pc.releaseToPagecache p ok = .ok pc' ∧ Inv pc' (fun q => U q ∧ q ≠ p) r' exact ∧
      ∀ q, U q → q ≠ p → pc'.spans q = pc.spans q :=
  releaseToPagecache_clear h hp hs hu hbusy.clear ok

end

/-! ## What came from the system

Merging moves no page to or from the system. -/

theorem erase_owned {pc pc' : PageCache} {k : ℕ} {p : SpanPtr} (h : pc.erase k p = .ok pc') : pc'.owned = pc.owned := by
  unfold erase at h
  split at h
  · cases h
    rfl
  · cases h

theorem mergePrev_owned : ∀ {fuel : ℕ} {pc pc' : PageCache} {p p' : SpanPtr},
    mergePrev fuel pc p = .ok (pc', p') → pc'.owned = pc.owned
  | 0, _, _, _, _, h => by cases h
  | fuel + 1, pc, pc', p, p', h => by
    unfold mergePrev at h
    obtain ⟨s, -, h⟩ := bind_ok.1 h
    split at h
    · cases h
      rfl
    · obtain ⟨t, -, h⟩ := bind_ok.1 h
      split at h
      · cases h
        rfl
      split at h
      · cases h
        rfl
      obtain ⟨pc₁, herase, h⟩ := bind_ok.1 h
      have h₁ : pc₁.owned = pc.owned := erase_owned herase
      exact (mergePrev_owned h).trans h₁

theorem mergeNext_owned : ∀ {fuel : ℕ} {pc pc' : PageCache} {p : SpanPtr},
    mergeNext fuel pc p = .ok pc' → pc'.owned = pc.owned
  | 0, _, _, _, h => by cases h
  | fuel + 1, pc, pc', p, h => by
    unfold mergeNext at h
    obtain ⟨s, -, h⟩ := bind_ok.1 h
    split at h
    · cases h
      rfl
    · obtain ⟨t, -, h⟩ := bind_ok.1 h
      split at h
      · cases h
        rfl
      split at h
      · cases h
        rfl
      obtain ⟨pc₁, herase, h⟩ := bind_ok.1 h
      have h₁ : pc₁.owned = pc.owned := erase_owned herase
      exact (mergeNext_owned h).trans h₁

/-- Only a span longer than the lists go is given back to the system. -/
theorem releaseToPagecache_owned {pc pc' : PageCache} {p : SpanPtr} {s : Span} {ok : Bool} (hs : pc.spans p = some s)
    (hlt : s.npages < NPAGES) (h : pc.releaseToPagecache p ok = .ok pc') : pc'.owned = pc.owned := by
  simp only [releaseToPagecache, deref_eq hs] at h
  obtain ⟨s', hs', h⟩ := bind_ok.1 h
  cases hs'
  rw [if_neg (Nat.not_le.2 hlt)] at h
  obtain ⟨⟨pc₁, p₁⟩, hprev, h⟩ := bind_ok.1 h
  obtain ⟨pc₂, hnext, h⟩ := bind_ok.1 h
  obtain ⟨t, -, h⟩ := bind_ok.1 h
  cases h
  exact (mergeNext_owned hnext).trans (mergePrev_owned hprev)

end PageCache

end Learncc
