/-
The pools of one process. `thread_m` counts its objects with one static counter:
`start` makes threads under the ids that the counter gives, and then starts
`threads_[0]`, `threads_[1]` and so on.

`run_own_iff`: in every run, the calls of `start` that start their own threads are
those made while the counter is 0, and those for no thread.
-/
import Learncc.Threadpool.Accounting

namespace Learncc.ThreadPool

/-! ## start, with its calls -/

/-- One round of the second loop; `calls` are the ids of the threads whose `start` has
been called. -/
def startNext (r : State × List ℕ) (i : ℕ) : Option (State × List ℕ) :=
  (launch r.1 i).map fun s => ({ s with idleThreadCnt := s.idleThreadCnt + 1 }, r.2 ++ [i])

/-- The first loop. -/
def makeThreads (s : State) (initSize : ℤ) : State :=
  (List.range initSize.toNat).foldl (fun s _ => newThread s)
    { s with running := true, initSize := initSize, curThreadCnt := initSize }

def startCalls (s : State) (initSize : ℤ) : Option (State × List ℕ) :=
  (List.range initSize.toNat).foldlM startNext (makeThreads s initSize, [])

/-! ## The process -/

/-- The counter, and the pools in the order of their construction. -/
structure Process where
  generateId : ℕ
  pools : List State

namespace Process

def init : Process := { generateId := 0, pools := [] }

/-- Pool `k`, with the counter as it is. -/
def pool (p : Process) (k : ℕ) : Option State := p.pools[k]?.map fun s => { s with generateId := p.generateId }

def put (p : Process) (k : ℕ) (s : State) : Process := { generateId := s.generateId, pools := p.pools.set k s }

/-- A pool is made, configured, started, or does what it does by itself or for its users. -/
inductive Event
  | create
  | set (k : ℕ) (setter : Setter)
  | start (k : ℕ) (initSize : ℤ)
  | inner (k : ℕ) (e : ThreadPool.Event)

def step (c : Class) (p : Process) : Event → Option Process
  | .create => some { p with pools := p.pools ++ [threadPool c] }
  | .set k setter => (p.pool k).map fun s => p.put k (ThreadPool.set s setter)
  | .start k initSize => (p.pool k).bind fun s => (ThreadPool.start s initSize).map (p.put k)
  | .inner k e => (p.pool k).bind fun s => (ThreadPool.step s e).map (p.put k)

/-! ## What start should do -/

/-- From `s` to `t`, `n` threads have come to the pool, under ids that no thread of the
process has, and `thread_m::start` has been called once for each of them and for no other. -/
structure Own (p : Process) (n : ℤ) (s t : State) (calls : List ℕ) : Prop where
  kept : s.threads ⊆ t.threads
  made : (t.threads \ s.threads).card = n.toNat
  unused : ∀ q ∈ p.pools, Disjoint (t.threads \ s.threads) q.threads
  once : ∀ id, calls.count id = if id ∈ t.threads \ s.threads then 1 else 0

/-- A call of `start` returns and starts the threads of its own. -/
def StartsOwn (p : Process) : Event → Prop
  | .start k n => ∀ s, p.pool k = some s → ∃ t calls, startCalls s n = some (t, calls) ∧ Own p n s t calls
  | .create | .set .. | .inner .. => True

/-- No thread has been made in the process, or none is asked for. -/
def First (p : Process) : Event → Prop
  | .start k n => k < p.pools.length → p.generateId = 0 ∨ n ≤ 0
  | .create | .set .. | .inner .. => True

instance : ∀ p e, Decidable (First p e)
  | _, .start .. => inferInstanceAs (Decidable (_ → _))
  | _, .create | _, .set .. | _, .inner .. => .isTrue trivial

end Process

/-! ## The loops of start -/

variable {c : Class} {s t : State} {n : ℤ} {calls : List ℕ}

theorem makeThreads_eq (s : State) (n : ℤ) :
    makeThreads s n = { s with
      running := true, initSize := n, curThreadCnt := n,
      threads := s.threads ∪ Finset.Ico s.generateId (s.generateId + n.toNat),
      generateId := s.generateId + n.toNat } := by
  rw [makeThreads, foldl_newThread]

theorem foldlM_startNext_fst : ∀ (is : List ℕ) (s : State) (calls : List ℕ),
    (is.foldlM startNext (s, calls)).map Prod.fst =
      is.foldlM (fun s i => (launch s i).map fun s => { s with idleThreadCnt := s.idleThreadCnt + 1 }) s
  | [], _, _ => rfl
  | i :: is, s, calls => by
    rw [List.foldlM_cons, List.foldlM_cons, startNext]
    cases launch s i with
    | none => rfl
    | some t => exact foldlM_startNext_fst is _ _

/-- The calls are only noted down. -/
theorem startCalls_fst (s : State) (n : ℤ) : (startCalls s n).map Prod.fst = start s n :=
  foldlM_startNext_fst _ _ _

/-- The loop gets through where it finds a thread under every id, and starts these. -/
theorem foldlM_startNext_some : ∀ {is : List ℕ} {s t : State} {cs calls : List ℕ},
    is.foldlM startNext (s, cs) = some (t, calls) →
      calls = cs ++ is ∧ t.threads = s.threads ∧ t.generateId = s.generateId
  | [], _, _, _, _, h => by
    cases h
    exact ⟨(List.append_nil _).symm, rfl, rfl⟩
  | i :: is, s, t, cs, calls, h => by
    rw [List.foldlM_cons, startNext, launch] at h
    split at h
    · obtain ⟨hcalls, hthreads, hid⟩ := foldlM_startNext_some h
      refine ⟨?_, hthreads, hid⟩
      rw [hcalls, List.append_assoc]
      rfl
    · cases h

theorem exists_foldlM_startNext : ∀ {is : List ℕ} {s : State} {cs : List ℕ}, (∀ i ∈ is, i ∈ s.threads) →
    ∃ r, is.foldlM startNext (s, cs) = some r
  | [], s, cs, _ => ⟨(s, cs), rfl⟩
  | i :: is, s, cs, h => by
    rw [List.foldlM_cons, startNext, launch, if_pos (h i List.mem_cons_self)]
    exact exists_foldlM_startNext fun j hj => h j (List.mem_cons_of_mem i hj)

theorem startCalls_some (h : startCalls s n = some (t, calls)) :
    calls = List.range n.toNat ∧ t.threads = s.threads ∪ Finset.Ico s.generateId (s.generateId + n.toNat) ∧
      t.generateId = s.generateId + n.toNat := by
  obtain ⟨hcalls, hthreads, hid⟩ := foldlM_startNext_some h
  rw [makeThreads_eq] at hthreads hid
  exact ⟨hcalls, hthreads, hid⟩

/-- A pool that has no thread `0` and cannot make one any more: `threads_[0]` is absent. -/
theorem start_absent (hid : 0 < s.generateId) (h0 : 0 ∉ s.threads) (hn : 0 < n) : start s n = none := by
  obtain ⟨m, hm⟩ : ∃ m, n.toNat = m + 1 := ⟨n.toNat - 1, by omega⟩
  have habsent : 0 ∉ (makeThreads s n).threads := by
    rw [makeThreads_eq, Finset.mem_union, Finset.mem_Ico, not_or]
    exact ⟨h0, fun hnew => Nat.not_lt.2 hnew.1 hid⟩
  rw [← startCalls_fst, startCalls, hm, List.range_succ_eq_map, List.foldlM_cons, startNext, launch, if_neg habsent]
  rfl

/-! ## The counter -/

/-- The counter does not go back, and what has come to the pool has an id it has given. -/
structure Counts (s t : State) : Prop where
  le : s.generateId ≤ t.generateId
  given : ∀ id ∈ t.threads, id ∈ s.threads ∨ id < t.generateId

theorem Counts.of_subset (hid : t.generateId = s.generateId) (hthreads : t.threads ⊆ s.threads) : Counts s t :=
  ⟨Nat.le_of_eq hid.symm, fun _ hmem => .inl (hthreads hmem)⟩

theorem counts_set (s : State) (setter : Setter) : Counts s (set s setter) := by
  refine Counts.of_subset ?_ ?_
  · cases setter <;> simp only [set, setMode, setTaskMaxsize, setThreadMaxsize] <;> repeat' split
    all_goals rfl
  · cases setter <;> simp only [set, setMode, setTaskMaxsize, setThreadMaxsize] <;> repeat' split
    all_goals exact Finset.Subset.refl _

theorem counts_start (h : start s n = some t) : Counts s t := by
  rw [← startCalls_fst] at h
  obtain ⟨⟨u, calls⟩, hcalls, rfl⟩ := Option.map_eq_some_iff.1 h
  obtain ⟨-, hthreads, hid⟩ := startCalls_some hcalls
  refine ⟨?_, fun id hmem => ?_⟩
  · rw [hid]
    exact Nat.le_add_right _ _
  · rw [hthreads, Finset.mem_union, Finset.mem_Ico, ← hid] at hmem
    exact hmem.imp_right And.right

theorem counts_put {i : ℕ} (h : put s i = some t) : Counts s t := by
  unfold put grow at h
  split at h
  · simp only [launch, newThread, Finset.mem_insert_self, if_true, Option.map_some, Option.some.injEq] at h
    subst h
    refine ⟨Nat.le_succ _, fun id hmem => ?_⟩
    rcases Finset.mem_insert.1 hmem with rfl | hmem
    · exact .inr (Nat.lt_succ_self _)
    · exact .inl hmem
  · cases h
    exact .of_subset rfl (Finset.Subset.refl _)

theorem counts_loop (s : State) (id : ℕ) : Counts s (loop s id) := by
  unfold loop
  split
  · split
    · exact .of_subset rfl (Finset.Subset.refl _)
    · exact .of_subset rfl (Finset.erase_subset _ _)
  · unfold take
    dsimp only
    split
    · exact .of_subset rfl (Finset.Subset.refl _)
    · exact .of_subset rfl (Finset.Subset.refl _)

theorem counts_threadFunc {id dur : ℕ} (h : threadFunc s id dur = some t) : Counts s t := by
  unfold threadFunc at h
  split at h
  · split at h
    · cases h
      exact .of_subset rfl (Finset.erase_subset _ _)
    · cases h
      exact counts_loop s id
  · cases h
    exact .of_subset rfl (Finset.Subset.refl _)
  · cases h
    exact .of_subset rfl (Finset.Subset.refl _)
  all_goals cases h

theorem counts_destruct (h : destruct s = some t) : Counts s t := by
  unfold destruct at h
  split at h
  · cases h
    exact .of_subset rfl (Finset.Subset.refl _)
  · cases h
    exact .of_subset rfl (Finset.Subset.refl _)
  · cases h
    exact .of_subset rfl (Finset.Subset.refl _)
  all_goals cases h

theorem counts_step {e : Event} (h : step s e = some t) : Counts s t := by
  cases e with
  | call =>
    cases h
    exact .of_subset rfl (Finset.Subset.refl _)
  | commit i =>
    simp only [step] at h
    split at h
    · unfold commit at h
      split at h
      · exact counts_put h
      · cases h
        exact .of_subset rfl (Finset.Subset.refl _)
    · cases h
  | commitWakes i timeout =>
    simp only [step] at h
    split at h
    · cases h
      exact .of_subset rfl (Finset.Subset.refl _)
    · cases h
  | worker id dur => exact counts_threadFunc h
  | workerWakes id timeout =>
    simp only [step] at h
    split at h
    · split at h
      · cases h
      · cases h
        exact .of_subset rfl (Finset.Subset.refl _)
    · cases h
  | destruct => exact counts_destruct h
  | destructWakes =>
    simp only [step] at h
    split at h
    · cases h
      exact .of_subset rfl (Finset.Subset.refl _)
    · cases h

/-! ## Runs -/

namespace Process

variable {p p' : Process} {k : ℕ}

/-- Every thread in the process has an id that the counter has given. -/
def Below (p : Process) : Prop := ∀ q ∈ p.pools, ∀ id ∈ q.threads, id < p.generateId

theorem pool_some (h : p.pool k = some s) : s.generateId = p.generateId ∧ ∃ q ∈ p.pools, q.threads = s.threads := by
  obtain ⟨q, hq, rfl⟩ := Option.map_eq_some_iff.1 h
  exact ⟨rfl, q, List.mem_of_getElem? hq, rfl⟩

theorem Below.put (h : Below p) (hs : p.pool k = some s) (hcounts : Counts s t) : Below (p.put k t) := by
  obtain ⟨hid, q, hq, hthreads⟩ := pool_some hs
  have hle := hcounts.le
  intro r hr id hmem
  rcases List.mem_or_eq_of_mem_set hr with hr | rfl
  · have hlt := h r hr id hmem
    show id < t.generateId
    omega
  · rcases hcounts.given id hmem with hold | hlt
    · rw [← hthreads] at hold
      have hlt := h q hq id hold
      show id < r.generateId
      omega
    · exact hlt

theorem Below.step (h : Below p) {e : Event} (hs : step c p e = some p') : Below p' := by
  cases e with
  | create =>
    cases hs
    intro q hq id hmem
    rcases List.mem_append.1 hq with hq | hq
    · exact h q hq id hmem
    · rw [List.mem_singleton.1 hq] at hmem
      exact absurd hmem (Finset.notMem_empty id)
  | set k setter =>
    obtain ⟨s, hp, rfl⟩ := Option.map_eq_some_iff.1 hs
    exact h.put hp (counts_set s setter)
  | start k n =>
    obtain ⟨s, hp, hs⟩ := Option.bind_eq_some_iff.1 hs
    obtain ⟨t, ht, rfl⟩ := Option.map_eq_some_iff.1 hs
    exact h.put hp (counts_start ht)
  | inner k e =>
    obtain ⟨s, hp, hs⟩ := Option.bind_eq_some_iff.1 hs
    obtain ⟨t, ht, rfl⟩ := Option.map_eq_some_iff.1 hs
    exact h.put hp (counts_step ht)

/-- A call of `start` gets the right threads exactly if the ids of its new threads are
the indices of the loop that starts them. -/
theorem own_iff (h : Below p) (hs : p.pool k = some s) :
    (∃ t calls, startCalls s n = some (t, calls) ∧ Own p n s t calls) ↔ p.generateId = 0 ∨ n ≤ 0 := by
  obtain ⟨hid, q, hq, hthreads⟩ := pool_some hs
  have hlt : ∀ id ∈ s.threads, id < s.generateId := by
    intro id hmem
    rw [hid]
    rw [← hthreads] at hmem
    exact h q hq id hmem
  have hdisj : ∀ q ∈ p.pools, Disjoint (Finset.Ico s.generateId (s.generateId + n.toNat)) q.threads := by
    intro q hq
    refine Finset.disjoint_left.2 fun id hnew hold => ?_
    have hlt' := h q hq id hold
    have hge := (Finset.mem_Ico.1 hnew).1
    omega
  have hnew : ∀ {t : State}, t.threads = s.threads ∪ Finset.Ico s.generateId (s.generateId + n.toNat) →
      t.threads \ s.threads = Finset.Ico s.generateId (s.generateId + n.toNat) := by
    intro t ht
    rw [ht, Finset.union_sdiff_left]
    refine Finset.sdiff_eq_self_of_disjoint ?_
    rw [← hthreads]
    exact hdisj q hq
  constructor
  · intro hown
    obtain ⟨t, calls, hcalls, hown⟩ := hown
    obtain ⟨hlist, ht, -⟩ := startCalls_some hcalls
    by_contra hcon
    rw [not_or] at hcon
    -- The last of the new threads has an id that the loop does not reach.
    have hlast : s.generateId + n.toNat - 1 ∈ t.threads \ s.threads := by
      rw [hnew ht, Finset.mem_Ico]
      omega
    have honce := hown.once (s.generateId + n.toNat - 1)
    rw [if_pos hlast, hlist] at honce
    have hmem : s.generateId + n.toNat - 1 ∈ List.range n.toNat := List.count_pos_iff.1 (by rw [honce]; exact one_pos)
    rw [List.mem_range] at hmem
    omega
  · intro hfirst
    have hsame : ∀ id, id ∈ List.range n.toNat ↔ id ∈ Finset.Ico s.generateId (s.generateId + n.toNat) := by
      intro id
      rw [List.mem_range, Finset.mem_Ico]
      omega
    have hmade : ∀ id ∈ List.range n.toNat, id ∈ (makeThreads s n).threads := by
      intro id hmem
      rw [makeThreads_eq]
      exact Finset.mem_union_right _ ((hsame id).1 hmem)
    have hloop : ∃ r, startCalls s n = some r := exists_foldlM_startNext hmade
    obtain ⟨⟨t, calls⟩, hcalls⟩ := hloop
    obtain ⟨hlist, ht, -⟩ := startCalls_some hcalls
    refine ⟨t, calls, hcalls, ?_, ?_, fun q hq => ?_, fun id => ?_⟩
    · rw [ht]
      exact Finset.subset_union_left
    · rw [hnew ht, Nat.card_Ico, Nat.add_sub_cancel_left]
    · rw [hnew ht]
      exact hdisj q hq
    · rw [hnew ht, hlist, List.nodup_range.count]
      simp only [hsame]

theorem startsOwn_iff (h : Below p) (e : Event) : StartsOwn p e ↔ First p e := by
  cases e with
  | start k n =>
    constructor
    · intro hown hk
      have hs : p.pool k = some { p.pools[k] with generateId := p.generateId } := by
        rw [pool, List.getElem?_eq_getElem hk, Option.map_some]
      exact (own_iff h hs).1 (hown _ hs)
    · intro hfirst s hs
      obtain ⟨q, hq, -⟩ := Option.map_eq_some_iff.1 hs
      exact (own_iff h hs).2 (hfirst (List.getElem?_eq_some_iff.1 hq).1)
  | create => exact Iff.rfl
  | set k setter => exact Iff.rfl
  | inner k e => exact Iff.rfl

/-- **Only the first pool starts its own threads.** In every run of a process, with any
pools, sizes, commits and exits of threads: all the calls of `start` make and start
their own threads exactly if each is made before the process has made a thread, or for
no thread. -/
theorem run_own_iff (c : Class) (events : List Event) :
    Run.Along (step c) StartsOwn init events ↔ Run.Along (step c) First init events := by
  refine Run.along_congr Below (fun p e p' h hs => h.step hs) (fun p e h => startsOwn_iff h e) ?_
  intro q hq
  cases hq

/-- The second of two pools looks for its threads under the ids of the first. -/
theorem not_own_second :
    ¬ Run.Along (step .threadPool) StartsOwn init [.create, .start 0 2, .create, .start 1 2] := by
  intro h
  obtain ⟨-, hcreated⟩ := h
  obtain ⟨-, hstarted⟩ := hcreated _ rfl
  obtain ⟨-, hcreated'⟩ := hstarted _ rfl
  obtain ⟨hown, -⟩ := hcreated' _ rfl
  obtain ⟨t, calls, hcalls, -⟩ := hown _ rfl
  cases hcalls

end Process

end Learncc.ThreadPool
