/-
The allocator and the pointers its user has, each with the size asked for:
what one call of `tc_malloc` or `tc_free` leaves in order, for requests of a
size the allocator takes (`Fits`) and for pointers that are the user's.

`Call` is what a history is made of; `Sound.moves` says what it does to the
spans of the central cache.
-/
import Learncc.MemoryPool.AllocOps

namespace Learncc

open SizeClass PageCache

/-- The allocator and the user's pointers, each with the size asked for. -/
structure Heap (τ : Type) where
  pool : Pool τ
  live : List (ℕ × ℕ)

namespace Heap

variable {τ : Type}

def init (found : SpanPtr → UInt64) : Heap τ := ⟨Pool.init found, []⟩

/-- How many pages a request makes `mmap` be asked for, if it does. -/
def asked (size : ℕ) : ℕ := if MAXBYTES < size then requested (Pool.largePages size) else NPAGES - 1

/-- All requests that are taken: those whose class is not `MAXBYTES` and whose
pages are counted without overflow. -/
def Fits (size : ℕ) : Prop := 1 ≤ size ∧ size ≤ 65024 ∨ 65537 ≤ size ∧ size ≤ 2 ^ 64 - 4096

instance (size : ℕ) : Decidable (Fits size) := inferInstanceAs (Decidable (_ ∨ _))

theorem Fits.le {size : ℕ} (h : Fits size) : size ≤ 2 ^ 64 - 4096 := by
  unfold Fits at h
  omega

/-- In order, the user's pointers being of requests that fit. -/
structure Sound (s : Heap τ) : Prop where
  pool : s.pool.Inv s.live []
  used : s.pool.Used fun _ => False
  fits : ∀ {ptr size}, (ptr, size) ∈ s.live → Fits size

theorem init_sound {found : SpanPtr → UInt64} (hzero : ∀ p, found p = 0) : (init found : Heap τ).Sound := by
  have hnone : ∀ i, (init found : Heap τ).pool.spanList i = [] := fun _ => rfl
  have hnil : ∀ {i p}, p ∉ (init found : Heap τ).pool.spanList i := fun hp => by cases (hnone _ ▸ hp)
  have hempty : Placed ((init found : Heap τ).pool.blocksAt [] []) fun b =>
      ∃ bytes, (init found : Heap τ).pool.CutFrom bytes b := by
    refine Placed.empty (fun k => ?_) fun b => ?_
    · cases k with
      | span p => exact Pool.blocksAt_not_central fun ⟨i, hi⟩ => hnil hi
      | cache t i => rfl
      | live => rfl
      | hand => rfl
    · intro he
      obtain ⟨bytes, i, p, s, hp, -⟩ := he
      exact hnil hp
  refine ⟨⟨⟨_, (PageCache.init_inv hzero).congr fun q => ?_⟩, fun hp => absurd hp hnil, fun i => List.nodup_nil, hempty,
    fun htc _ => (by cases htc), fun hb => (by cases hb), fun hb => (by cases hb), List.nodup_nil,
    fun i htc => (by cases htc)⟩, fun i p s hp => absurd hp hnil, fun hb => (by cases hb)⟩
  constructor
  · intro he
    rcases he with ⟨i, hi⟩ | ⟨b, size, hb, -⟩
    · exact hnil hi
    · cases hb
  · intro h
    cases h

/-- Every request the allocator takes is answered, with a pointer that is not
live unless the system has no memory. -/
theorem Sound.malloc [DecidableEq τ] {s : Heap τ} (h : s.Sound) (t : τ) {size : ℕ} {os : Option ℕ} (hsize : Fits size)
    (hok : s.pool.pc.MmapOk (asked size) os) :
    ∃ pool r, s.pool.tcMalloc t size os = .ok (pool, r) ∧ Sound ⟨pool, Pool.record s.live size r⟩ ∧
      (r = none → os = none) ∧ (∀ ptr, r = some ptr → ptr ∉ s.live.map Prod.fst) ∧
      (size ≤ MAXBYTES → (pool.tls t).isSome) ∧ s.pool.Keeps pool ∧ s.pool.Within pool := by
  have hfits : ∀ {r : Option ℕ} {ptr m}, (ptr, m) ∈ Pool.record s.live size r → Fits m := by
    intro r ptr m hm
    cases r with
    | none => exact h.fits hm
    | some b =>
      rcases List.mem_cons.1 hm with he | hm
      · cases he
        exact hsize
      · exact h.fits hm
  rcases hsize with ⟨h0, hle⟩ | ⟨hlow, hhigh⟩
  · have hmax : ¬ MAXBYTES < size := by
      unfold MAXBYTES
      omega
    rw [asked, if_neg hmax] at hok
    obtain ⟨pool, r, heq, hinv, hused, hnone, hnew, hsome, hkeep, hin⟩ :=
      Pool.tcMalloc_small h.pool h.used h0 hle t hok
    exact ⟨pool, r, heq, ⟨hinv, hused, hfits⟩, hnone, hnew, fun _ => hsome, hkeep, hin⟩
  · have hmax : MAXBYTES < size := hlow
    rw [asked, if_pos hmax] at hok
    obtain ⟨pool, r, heq, hinv, hused, hnone, hnew, hkeep, hin⟩ :=
      Pool.tcMalloc_large h.pool h.used hmax hhigh t hok
    exact ⟨pool, r, heq, ⟨hinv, hused, hfits⟩, hnone, hnew, fun hle => absurd hmax (Nat.not_lt.2 hle), hkeep, hin⟩

/-- Every live pointer can be freed, by a thread that has a cache if it is a
small block. -/
theorem Sound.free [DecidableEq τ] {s : Heap τ} (h : s.Sound) {t : τ} {ptr size : ℕ} (hp : (ptr, size) ∈ s.live)
    (ht : size ≤ MAXBYTES → (s.pool.tls t).isSome) (ok : Bool) :
    ∃ pool, s.pool.tcFree t ptr ok = .ok pool ∧ Sound ⟨pool, s.live.erase (ptr, size)⟩ ∧ s.pool.Keeps pool ∧
      (s.pool.Within pool ∨ s.pool.Recedes pool) := by
  obtain ⟨pool, heq, hinv, hused, hkeep, hin⟩ :=
    Pool.tcFree_spec h.pool h.used (List.perm_cons_erase hp) (h.fits hp).le ht ok
  exact ⟨pool, heq, ⟨hinv, hused, fun hm => h.fits (List.mem_of_mem_erase hm)⟩, hkeep, hin⟩

/-- The small sizes that do not fit end in an assertion or outside the array
of lists. -/
theorem fits_of_small [DecidableEq τ] {pool : Pool τ} {t : τ} {size : ℕ} {os : Option ℕ} {r : Pool τ × Option ℕ}
    (hsize : size ≤ MAXBYTES) (h : pool.tcMalloc t size os = .ok r) : Fits size := by
  by_contra hno
  have hmax : ¬ MAXBYTES < size := Nat.not_lt.2 hsize
  rw [Pool.tcMalloc, if_neg hmax] at h
  have hfault : ∀ p : Pool τ, ∃ f, p.allocate t size os = .error f ∧ f ≠ .badAlloc := by
    intro p
    unfold Fits at hno
    unfold MAXBYTES at hsize
    by_cases h0 : size = 0
    · subst h0
      exact ⟨.undefined, rfl, by decide⟩
    by_cases htop : size = 65536
    · subst htop
      exact ⟨.assertion, rfl, by decide⟩
    · have hround : roundUp size = .ok 65536 := by
        have hto := roundUpTo_eq size 9 (by decide) (by omega)
        unfold roundUp MAXBYTES
        rw [if_pos hsize, if_neg (by omega), if_neg (by omega), if_neg (by omega)]
        congr 1
        rw [show (512 : ℕ) = 2 ^ 9 by rfl, hto]
        omega
      have hlt : size < MAXBYTES := by
        unfold MAXBYTES
        omega
      refine ⟨.assertion, ?_, by decide⟩
      rw [Pool.allocate, Pool.check_ok hlt, hround]
      rfl
  obtain ⟨f, hf, hne⟩ := hfault (pool.ensureCache t)
  rw [hf] at h
  cases f with
  | badAlloc => exact hne rfl
  | assertion => cases h
  | undefined => cases h

/-! ## Histories -/

/-- A call: a request that fits is answered, or a live pointer freed. What the
user does with his blocks is none of the allocator's business. -/
inductive Call [DecidableEq τ] (s : Heap τ) : Heap τ → Prop
  | malloc {t : τ} {size : ℕ} {os r : Option ℕ} {pool : Pool τ} (hsize : Fits size)
      (hok : s.pool.pc.MmapOk (asked size) os) (h : s.pool.tcMalloc t size os = .ok (pool, r)) :
      Call s ⟨pool, Pool.record s.live size r⟩
  | free {t : τ} {ptr size : ℕ} {ok : Bool} {pool : Pool τ} (hp : (ptr, size) ∈ s.live)
      (h : s.pool.tcFree t ptr ok = .ok pool) : Call s ⟨pool, s.live.erase (ptr, size)⟩
  | stay : Call s s

/-- A call keeps the spans of the central cache, or gives some back. -/
structure Moves (s s' : Heap τ) : Prop where
  sound : s'.Sound
  keeps : s.pool.Keeps s'.pool
  moves : s.pool.Within s'.pool ∨ s.pool.Recedes s'.pool ∧ ∀ e ∈ s'.live, e ∈ s.live

/-- Who frees a small block has a cache. -/
theorem Sound.cached [DecidableEq τ] {s : Heap τ} (h : s.Sound) {t : τ} {ptr size : ℕ} {ok : Bool} {pool : Pool τ}
    (hp : (ptr, size) ∈ s.live) (hfree : s.pool.tcFree t ptr ok = .ok pool) (hsize : size ≤ MAXBYTES) :
    (s.pool.tls t).isSome := by
  cases htc : s.pool.tls t with
  | some tc => rfl
  | none =>
    rw [h.pool.tcFree_uncached hp hsize htc] at hfree
    cases hfree

theorem Sound.moves [DecidableEq τ] {s s' : Heap τ} (h : s.Sound) (hc : s.Call s') : s.Moves s' := by
  cases hc with
  | @malloc t size os r pool hsize hok hmalloc =>
    obtain ⟨pool', r', heq, hsound, -, -, -, hkeep, hin⟩ := h.malloc t hsize hok
    rw [hmalloc] at heq
    cases heq
    exact ⟨hsound, hkeep, .inl hin⟩
  | @free t ptr size ok pool hp hfree =>
    obtain ⟨pool', heq, hsound, hkeep, hmove⟩ := h.free hp (h.cached hp hfree) ok
    rw [hfree] at heq
    cases heq
    exact ⟨hsound, hkeep, hmove.imp_right fun hback => ⟨hback, fun e he => List.mem_of_mem_erase he⟩⟩
  | stay => exact ⟨h, fun _ hu => hu, .inl (.refl _)⟩

/-- Of one thread: whoever has a small block has a cache. -/
structure Single (s : Heap Unit) : Prop where
  sound : s.Sound
  cache : ∀ {ptr size}, (ptr, size) ∈ s.live → size ≤ MAXBYTES → (s.pool.tls ()).isSome

theorem Single.call {s s' : Heap Unit} (h : s.Single) (hc : s.Call s') : s'.Single := by
  have hm := h.sound.moves hc
  refine ⟨hm.sound, fun {ptr m} hp hle => ?_⟩
  cases hc with
  | @malloc t size os r pool hsize hok hmalloc =>
    obtain ⟨pool', r', heq, -, -, -, hsome, -⟩ := h.sound.malloc t hsize hok
    rw [hmalloc] at heq
    cases heq
    cases r with
    | none => exact hm.keeps () (h.cache hp hle)
    | some b =>
      rcases List.mem_cons.1 hp with he | hp
      · cases he
        exact hsome hle
      · exact hm.keeps () (h.cache hp hle)
  | free hlive hfree => exact hm.keeps () (h.cache (List.mem_of_mem_erase hp) hle)
  | stay => exact h.cache hp hle

end Heap

end Learncc
