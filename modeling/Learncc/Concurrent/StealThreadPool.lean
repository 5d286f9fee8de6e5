/-
`steal_thread_pool` (inc/concurrent/steal_threadpool.h): one `threadsafe_queue_s` for
each worker. `submit` puts tasks into the queues in turn; a worker pops from its own
queue or steals from another one.

`run_deque_and_tasks`: the queues are sequences, and a task that has been submitted is
in one of them or with one worker.
-/
import Learncc.Concurrent.ThreadsafeQueue

namespace Learncc.StealThreadPool

open ThreadsafeQueue (Queue Op Answer Input)

/-- `made` counts the packaged tasks, which have their number for a name. -/
structure Pool where
  made : ℕ
  atmIndex : ℕ
  workQues : List (Queue ℕ)

/-- What a call on a queue is for. -/
inductive After
  | submit (task : ℕ)
  | pop
  | steal

def After.op : After → Op ℕ
  | .submit task => .push task
  | .pop => .tryPop
  | .steal => .trySteal

/-- Where a thread is: in `submit`, on a queue, or in `worker_thread`, at the head of
its loop, at queue `i` of those it looks through, or with a task. -/
inductive Pc
  | load
  | store (index : ℕ)
  | make (index : ℕ)
  | onQueue (index : ℕ) (call : ThreadsafeQueue.Call ℕ) (after : After)
  | submitted (task : ℕ)
  | loop
  | next (i : ℕ)
  | run (task : ℕ)
  | undefined

/-- A call of `submit`, or the worker of an index, with the tasks it has run. -/
structure Thread where
  worker : Option ℕ
  pc : Pc
  ran : List ℕ

def submit : Thread := { worker := none, pc := .load, ran := [] }

def worker (index : ℕ) : Thread := { worker := some index, pc := .loop, ran := [] }

def Thread.enterQueue (c : Thread) (index : ℕ) (after : After) : Thread :=
  { c with pc := .onQueue index ⟨after.op, .start⟩ after }

def Thread.leaveQueue (c : Thread) (index : ℕ) : After → Answer ℕ → Thread
  | .submit task, _ => { c with pc := .submitted task }
  | .pop, .item task | .steal, .item task => { c with pc := .run task }
  | .pop, .done | .pop, .empty => { c with pc := .next 0 }
  | .steal, .done | .steal, .empty => { c with pc := .next (index + 1) }

/-- The next move of a thread; `done` is false. -/
def move (c : Thread) (input : Input) (p : Pool) : Option (Thread × Pool) :=
  match c.pc with
  | .load =>
    if p.workQues.length = 0 then some ({ c with pc := .undefined }, p)
    else some ({ c with pc := .store ((p.atmIndex + 1) % p.workQues.length) }, p)
  | .store index => some ({ c with pc := .make index }, { p with atmIndex := index })
  | .make index => some (c.enterQueue index (.submit p.made), { p with made := p.made + 1 })
  | .onQueue index call after =>
    match call.pc.answer with
    | some answer => some (c.leaveQueue index after answer, p)
    | none =>
      match p.workQues[index]? with
      | none => some ({ c with pc := .undefined }, p)
      | some s => (ThreadsafeQueue.move call input s).map fun r =>
        ({ c with pc := .onQueue index r.1 after }, { p with workQues := p.workQues.set index r.2 })
  | .loop =>
    match c.worker with
    | some index => some (c.enterQueue index .pop, p)
    | none => none
  | .next i =>
    if i < p.workQues.length then
      if c.worker = some i then some ({ c with pc := .next (i + 1) }, p) else some (c.enterQueue i .steal, p)
    else some ({ c with pc := .loop }, p)
  | .run task => some ({ c with pc := .loop, ran := c.ran ++ [task] }, p)
  | .submitted _ | .undefined => none

def program : Calls.Program Pool Thread Unit Input := { enter := fun _ => submit, move := move }

/-- After the constructor. -/
def started (threadCount : ℕ) : Calls Pool Thread :=
  { shared := { made := 0, atmIndex := 0, workQues := List.replicate threadCount ThreadsafeQueue.init }
    calls := (List.range threadCount).map worker }

/-! ## The tasks -/

/-- The task of a `submit` that has made it. -/
def Thread.made (c : Thread) : List ℕ :=
  match c.pc with
  | .onQueue _ _ (.submit task) | .submitted task => [task]
  | .onQueue _ _ .pop | .onQueue _ _ .steal | .load | .store _ | .make _ | .loop | .next _ | .run _ | .undefined => []

/-- The task of a `submit` whose push has taken effect. -/
def Thread.submitted (c : Thread) : List ℕ :=
  match c.pc with
  | .onQueue _ call (.submit task) => if call.pc.effect.isSome then [task] else []
  | .submitted task => [task]
  | .onQueue _ _ .pop | .onQueue _ _ .steal | .load | .store _ | .make _ | .loop | .next _ | .run _ | .undefined => []

/-- The value a pop or a steal has come back with. -/
def got : Option (Answer ℕ) → List ℕ
  | some (.item task) => [task]
  | some .done | some .empty | none => []

/-- The tasks a worker has taken: those it has run, and one that it is yet to run. -/
def Thread.taken (c : Thread) : List ℕ :=
  match c.pc with
  | .onQueue _ call .pop | .onQueue _ call .steal => c.ran ++ got call.pc.effect
  | .run task => c.ran ++ [task]
  | .onQueue _ _ (.submit _) | .load | .store _ | .make _ | .submitted _ | .loop | .next _ | .undefined => c.ran

/-- What the thread is doing on queue `j`. -/
def Thread.call (j : ℕ) (c : Thread) : ThreadsafeQueue.Call ℕ :=
  match c.pc with
  | .onQueue index call _ => if index = j then call else ⟨.tryPop, .returned .empty⟩
  | .load | .store _ | .make _ | .submitted _ | .loop | .next _ | .run _ | .undefined => ⟨.tryPop, .returned .empty⟩

/-- A submitter has taken no tasks, and indexes are those of queues. -/
def Thread.Fits (n : ℕ) (c : Thread) : Prop :=
  match c.pc with
  | .load | .submitted _ | .undefined => c.worker = none ∧ c.ran = []
  | .store index | .make index => c.worker = none ∧ c.ran = [] ∧ index < n
  | .onQueue index call (.submit task) => (c.worker = none ∧ c.ran = []) ∧ index < n ∧ call.op = .push task
  | .onQueue index call after => (∃ i, c.worker = some i ∧ i < n) ∧ index < n ∧ call.op = after.op
  | .loop | .next _ | .run _ => ∃ i, c.worker = some i ∧ i < n

structure Inv (p : Pool) (threads : List Thread) (items : List (List ℕ)) : Prop where
  length : items.length = p.workQues.length
  queues : ∀ {j s l}, p.workQues[j]? = some s → items[j]? = some l →
    ∃ cells, cells.map Prod.snd = l ∧ ThreadsafeQueue.Inv s (threads.map (Thread.call j)) cells
  account : ∀ x, Calls.total (List.count x) items + Calls.total (fun c => c.taken.count x) threads =
    Calls.total (fun c => c.submitted.count x) threads
  fresh : ∀ x, Calls.total (fun c => c.made.count x) threads = if x < p.made then 1 else 0
  fits : ∀ c ∈ threads, c.Fits p.workQues.length

section

variable {p p' : Pool} {threads : List Thread} {items : List (List ℕ)} {c c' : Thread} {i j index : ℕ}

theorem call_onQueue {call : ThreadsafeQueue.Call ℕ} {after : After} (hpc : c.pc = .onQueue index call after) :
    c.call j = if index = j then call else ⟨.tryPop, .returned .empty⟩ := by
  unfold Thread.call
  rw [hpc]

/-- A thread that is not on a queue, or before its first access there, or back. -/
def Thread.Away (c : Thread) : Prop := ∀ j, (c.call j).pc.Quiet

theorem away_of_not_onQueue (h : ∀ index call after, c.pc ≠ .onQueue index call after) : c.Away := by
  intro j
  unfold Thread.call
  cases hpc : c.pc <;> first | trivial | exact absurd hpc (h _ _ _)

theorem away_of_quiet {call : ThreadsafeQueue.Call ℕ} {after : After} (hpc : c.pc = .onQueue index call after)
    (hquiet : call.pc.Quiet) : c.Away := by
  intro j
  rw [call_onQueue hpc]
  split
  · exact hquiet
  · trivial

theorem away_enterQueue (after : After) : (c.enterQueue index after).Away := away_of_quiet rfl trivial

/-- A move that is not one on a queue. -/
theorem Inv.quiet (h : Inv p threads items) (hi : threads[i]? = some c) (hques : p'.workQues = p.workQues)
    (haway : c.Away) (haway' : c'.Away) (htaken : c'.taken = c.taken)
    (hsubmitted : c'.submitted = c.submitted)
    (hmade : ∀ x, c'.made.count x + (if x < p.made then 1 else 0) = c.made.count x + if x < p'.made then 1 else 0)
    (hfits : c'.Fits p.workQues.length) : Inv p' (threads.set i c') items := by
  refine ⟨?_, fun {j s l} hs hl => ?_, fun x => ?_, fun x => ?_, ?_⟩
  · rw [hques]
    exact h.length
  · rw [hques] at hs
    obtain ⟨cells, hcells, hinv⟩ := h.queues hs hl
    refine ⟨cells, hcells, ?_⟩
    rw [List.map_set]
    exact hinv.replace (by rw [List.getElem?_map, hi]; rfl) (haway j) (haway' j)
  · rw [Calls.total_set_same hi (by rw [htaken]), Calls.total_set_same hi (by rw [hsubmitted])]
    exact h.account x
  · have hset : Calls.total (fun c => c.made.count x) (threads.set i c') + c.made.count x =
        Calls.total (fun c => c.made.count x) threads + c'.made.count x := Calls.total_set hi
    have hfresh := h.fresh x
    have hx := hmade x
    omega
  · rw [hques]
    exact Calls.forall_mem_set h.fits hfits

/-- A move in which the thread keeps its tasks. -/
theorem Inv.keep (h : Inv p threads items) (hi : threads[i]? = some c) (hques : p'.workQues = p.workQues)
    (hmade : p'.made = p.made) (haway : c.Away) (haway' : c'.Away)
    (hsame : c'.taken = c.taken ∧ c'.submitted = c.submitted ∧ c'.made = c.made) (hfits : c'.Fits p.workQues.length) :
    Inv p' (threads.set i c') items :=
  h.quiet hi hques haway haway' hsame.1 hsame.2.1 (fun x => by rw [hsame.2.2, hmade]) hfits

/-- The call of thread `i` on a queue becomes `call'`, and the queue `s'`. -/
theorem Inv.setQueue (h : Inv p threads items) (hi : threads[i]? = some c) {call call' : ThreadsafeQueue.Call ℕ}
    {after : After} (hpc : c.pc = .onQueue index call after) (hop : call'.op = call.op) {s' : Queue ℕ} {l : List ℕ}
    (hl : items[index]? = some l) {cells' : List (ℕ × ℕ)}
    (hinv' : ThreadsafeQueue.Inv s' ((threads.map (Thread.call index)).set i call') cells')
    (hc' : c' = { c with pc := .onQueue index call' after })
    (haccount : ∀ x, (cells'.map Prod.snd).count x + c'.taken.count x + c.submitted.count x =
      l.count x + c.taken.count x + c'.submitted.count x) :
    Inv { p with workQues := p.workQues.set index s' } (threads.set i c') (items.set index (cells'.map Prod.snd)) := by
  have hpc' : c'.pc = .onQueue index call' after := by rw [hc']
  refine ⟨?_, fun {j u m} hu hm => ?_, fun x => ?_, fun x => ?_, ?_⟩
  · rw [List.length_set, List.length_set]
    exact h.length
  · rw [List.map_set]
    rcases Calls.getElem?_set_cases hu with ⟨rfl, rfl⟩ | ⟨hj, hu⟩
    · rcases Calls.getElem?_set_cases hm with ⟨-, rfl⟩ | ⟨hne, -⟩
      · refine ⟨cells', rfl, ?_⟩
        rw [call_onQueue hpc', if_pos rfl]
        exact hinv'
      · exact absurd rfl hne
    · rw [List.getElem?_set_ne (Ne.symm hj)] at hm
      obtain ⟨cells, hcells, hinv⟩ := h.queues hu hm
      refine ⟨cells, hcells, hinv.replace (by rw [List.getElem?_map, hi]; rfl) ?_ ?_⟩
      · rw [call_onQueue hpc, if_neg (Ne.symm hj)]
        trivial
      · rw [call_onQueue hpc', if_neg (Ne.symm hj)]
        trivial
  · have hitems : Calls.total (List.count x) (items.set index (cells'.map Prod.snd)) + l.count x =
        Calls.total (List.count x) items + (cells'.map Prod.snd).count x := Calls.total_set hl
    have htaken : Calls.total (fun c => c.taken.count x) (threads.set i c') + c.taken.count x =
        Calls.total (fun c => c.taken.count x) threads + c'.taken.count x := Calls.total_set hi
    have hsubmitted : Calls.total (fun c => c.submitted.count x) (threads.set i c') + c.submitted.count x =
        Calls.total (fun c => c.submitted.count x) threads + c'.submitted.count x := Calls.total_set hi
    have hbefore := h.account x
    have hx := haccount x
    omega
  · have hsame : c'.made = c.made := by
      unfold Thread.made
      rw [hpc, hpc']
      cases after <;> rfl
    rw [Calls.total_set_same hi (by rw [hsame])]
    exact h.fresh x
  · rw [List.length_set]
    refine Calls.forall_mem_set h.fits ?_
    have hfits := h.fits c (List.mem_of_getElem? hi)
    unfold Thread.Fits at hfits ⊢
    rw [hpc] at hfits
    rw [hpc', hc']
    cases after <;> simp only [hop] <;> exact hfits

/-- A value that gets into a queue has been submitted, one that gets out of it is
taken. -/
theorem account_of_spec {n : ℕ} {call : ThreadsafeQueue.Call ℕ} {after : After} (hpc : c.pc = .onQueue index call after)
    (hfits : c.Fits n) (hnone : call.pc.effect = none) {pc' : ThreadsafeQueue.Pc ℕ} {answer : Answer ℕ}
    (heffect : pc'.effect = some answer) (hc' : c' = { c with pc := .onQueue index ⟨call.op, pc'⟩ after })
    {l l' : List ℕ} (hspec : ThreadsafeQueue.Spec call.op l answer l') (x : ℕ) :
    l'.count x + c'.taken.count x + c.submitted.count x = l.count x + c.taken.count x + c'.submitted.count x := by
  subst hc'
  unfold Thread.Fits at hfits
  unfold Thread.taken Thread.submitted
  rw [hpc] at hfits ⊢
  cases after with
  | submit task =>
    obtain ⟨-, -, hop⟩ := hfits
    rw [hop] at hspec
    cases hspec
    simp [hnone, heffect]
    omega
  | pop =>
    obtain ⟨-, -, hop⟩ := hfits
    rw [hop] at hspec
    cases hspec with
    | tryPop value l =>
      simp [hnone, heffect, got, List.count_cons]
      omega
    | tryPopEmpty => simp [hnone, heffect, got]
  | steal =>
    obtain ⟨-, -, hop⟩ := hfits
    rw [hop] at hspec
    cases hspec with
    | trySteal value l =>
      simp [hnone, heffect, got]
      omega
    | tryStealEmpty => simp [hnone, heffect, got]

/-- A move of a call on a queue. -/
theorem Inv.onQueue (h : Inv p threads items) (hi : threads[i]? = some c) {call : ThreadsafeQueue.Call ℕ}
    {after : After} (hpc : c.pc = .onQueue index call after) {s s' : Queue ℕ} (hs : p.workQues[index]? = some s)
    {input : Input} {pc' : ThreadsafeQueue.Pc ℕ} (hm : s.move call.op input call.pc = some (pc', s')) :
    ∃ items', Inv { p with workQues := p.workQues.set index s' }
      (threads.set i { c with pc := .onQueue index ⟨call.op, pc'⟩ after }) items' := by
  obtain ⟨hlt, -⟩ := List.getElem?_eq_some_iff.1 hs
  obtain ⟨l, hl⟩ : ∃ l, items[index]? = some l := by
    rw [← h.length] at hlt
    exact ⟨items[index], List.getElem?_eq_getElem hlt⟩
  obtain ⟨cells, rfl, hinv⟩ := h.queues hs hl
  have hcall : (threads.map (Thread.call index))[i]? = some call := by
    rw [List.getElem?_map, hi, Option.map_some, call_onQueue hpc, if_pos rfl]
  have hop : (⟨call.op, pc'⟩ : ThreadsafeQueue.Call ℕ).op = call.op := rfl
  rcases ThreadsafeQueue.move_takes hinv hcall hm with
    ⟨heffect, cells', hsame, hinv'⟩ | ⟨hnone, answer, cells', heffect, hspec, hinv'⟩
  · refine ⟨_, h.setQueue hi hpc hop hl hinv' rfl fun x => ?_⟩
    unfold Thread.taken Thread.submitted
    rw [hpc, hsame]
    cases after <;> simp only [heffect]
  · exact ⟨_, h.setQueue hi hpc hop hl hinv' rfl
      (account_of_spec hpc (h.fits c (List.mem_of_getElem? hi)) hnone heffect rfl hspec)⟩

/-! ## One move -/

/-- A thread that comes back from a queue keeps what it has got there. -/
theorem leaveQueue_same {call : ThreadsafeQueue.Call ℕ} {after : After} {answer : Answer ℕ}
    (hpc : c.pc = .onQueue index call after) (hanswer : call.pc = .returned answer) :
    (c.leaveQueue index after answer).taken = c.taken ∧ (c.leaveQueue index after answer).submitted = c.submitted ∧
      (c.leaveQueue index after answer).made = c.made := by
  have heffect : call.pc.effect = some answer := by rw [hanswer]; rfl
  unfold Thread.taken Thread.submitted Thread.made
  rw [hpc]
  cases after with
  | submit task => simp [Thread.leaveQueue, heffect]
  | pop => cases answer <;> simp [Thread.leaveQueue, heffect, got]
  | steal => cases answer <;> simp [Thread.leaveQueue, heffect, got]

theorem pc_of_answer {call : ThreadsafeQueue.Call ℕ} {answer : Answer ℕ} (h : call.pc.answer = some answer) :
    call.pc = .returned answer := by
  cases hpc : call.pc <;> rw [hpc] at h <;> cases h
  rfl

theorem Inv.leaveQueue (h : Inv p threads items) (hi : threads[i]? = some c) {call : ThreadsafeQueue.Call ℕ}
    {after : After} (hpc : c.pc = .onQueue index call after) {answer : Answer ℕ}
    (hanswer : call.pc.answer = some answer) : Inv p (threads.set i (c.leaveQueue index after answer)) items := by
  have hreturned := pc_of_answer hanswer
  have hfits := h.fits c (List.mem_of_getElem? hi)
  have haway : c.Away := away_of_quiet hpc (by rw [hreturned]; trivial)
  have haway' : (c.leaveQueue index after answer).Away := by
    refine away_of_not_onQueue fun index' call' after' hpc' => ?_
    cases after <;> cases answer <;> cases hpc'
  refine h.keep hi rfl rfl haway haway' (leaveQueue_same hpc hreturned) ?_
  unfold Thread.Fits at hfits ⊢
  rw [hpc] at hfits
  cases after with
  | submit task => exact hfits.1
  | pop => cases answer <;> exact hfits.1
  | steal => cases answer <;> exact hfits.1

/-- Every move of a thread. -/
theorem move_inv (h : Inv p threads items) (hi : threads[i]? = some c) {input : Input}
    (hm : move c input p = some (c', p')) : ∃ items', Inv p' (threads.set i c') items' := by
  have hfits := h.fits c (List.mem_of_getElem? hi)
  unfold move at hm
  unfold Thread.Fits at hfits
  cases hpc : c.pc with
  | load =>
    rw [hpc] at hm hfits
    have haway : c.Away := away_of_not_onQueue (by simp [hpc])
    dsimp only at hm
    split at hm
    · cases hm
      refine ⟨items, h.keep hi rfl rfl haway (away_of_not_onQueue (by simp)) ?_ hfits⟩
      simp [Thread.taken, Thread.submitted, Thread.made, hpc]
    · rename_i hpos
      cases hm
      have hlt := Nat.mod_lt (p.atmIndex + 1) (Nat.pos_of_ne_zero hpos)
      refine ⟨items, h.keep hi rfl rfl haway (away_of_not_onQueue (by simp)) ?_ ⟨hfits.1, hfits.2, hlt⟩⟩
      simp [Thread.taken, Thread.submitted, Thread.made, hpc]
  | store index =>
    rw [hpc] at hm hfits
    have haway : c.Away := away_of_not_onQueue (by simp [hpc])
    cases hm
    refine ⟨items, h.keep hi rfl rfl haway (away_of_not_onQueue (by simp)) ?_ hfits⟩
    simp [Thread.taken, Thread.submitted, Thread.made, hpc]
  | make index =>
    rw [hpc] at hm hfits
    have haway : c.Away := away_of_not_onQueue (by simp [hpc])
    cases hm
    refine ⟨items, h.quiet hi rfl haway (away_enterQueue _) ?_ ?_ (fun x => ?_)
      ⟨⟨hfits.1, hfits.2.1⟩, hfits.2.2, rfl⟩⟩
    · simp [Thread.taken, Thread.enterQueue, hpc]
    · simp [Thread.submitted, Thread.enterQueue, hpc, ThreadsafeQueue.Pc.effect]
    · simp only [Thread.made, Thread.enterQueue, hpc, List.count_singleton, List.count_nil, beq_iff_eq]
      split <;> split <;> split <;> omega
  | onQueue index call after =>
    rw [hpc] at hm hfits
    dsimp only at hm
    cases hanswer : call.pc.answer with
    | some answer =>
      rw [hanswer] at hm
      cases hm
      exact ⟨items, h.leaveQueue hi hpc hanswer⟩
    | none =>
      rw [hanswer] at hm
      dsimp only at hm
      have hlt : index < p.workQues.length := by cases after <;> exact hfits.2.1
      rw [List.getElem?_eq_getElem hlt] at hm
      dsimp only at hm
      obtain ⟨r, hr, he⟩ := Option.map_eq_some_iff.1 hm
      cases he
      obtain ⟨⟨pc', s'⟩, hmove, he⟩ := Option.map_eq_some_iff.1 hr
      cases he
      exact h.onQueue hi hpc (List.getElem?_eq_getElem hlt) hmove
  | submitted task =>
    rw [hpc] at hm
    cases hm
  | loop =>
    rw [hpc] at hm hfits
    have haway : c.Away := away_of_not_onQueue (by simp [hpc])
    obtain ⟨index, hworker, hlt⟩ := hfits
    dsimp only at hm
    rw [hworker] at hm
    cases hm
    refine ⟨items, h.keep hi rfl rfl haway (away_enterQueue _) ?_ ⟨⟨index, hworker, hlt⟩, hlt, rfl⟩⟩
    simp [Thread.taken, Thread.submitted, Thread.made, Thread.enterQueue, hpc, got, ThreadsafeQueue.Pc.effect]
  | next k =>
    rw [hpc] at hm hfits
    have haway : c.Away := away_of_not_onQueue (by simp [hpc])
    dsimp only at hm
    split at hm
    · rename_i hlt
      split at hm
      · cases hm
        refine ⟨items, h.keep hi rfl rfl haway (away_of_not_onQueue (by simp)) ?_ hfits⟩
        simp [Thread.taken, Thread.submitted, Thread.made, hpc]
      · cases hm
        refine ⟨items, h.keep hi rfl rfl haway (away_enterQueue _) ?_ ⟨hfits, hlt, rfl⟩⟩
        simp [Thread.taken, Thread.submitted, Thread.made, Thread.enterQueue, hpc, got, ThreadsafeQueue.Pc.effect]
    · cases hm
      refine ⟨items, h.keep hi rfl rfl haway (away_of_not_onQueue (by simp)) ?_ hfits⟩
      simp [Thread.taken, Thread.submitted, Thread.made, hpc]
  | run task =>
    rw [hpc] at hm hfits
    have haway : c.Away := away_of_not_onQueue (by simp [hpc])
    cases hm
    refine ⟨items, h.keep hi rfl rfl haway (away_of_not_onQueue (by simp)) ?_ hfits⟩
    simp [Thread.taken, Thread.submitted, Thread.made, hpc]
  | undefined =>
    rw [hpc] at hm
    cases hm

/-! ## Runs -/

theorem started_inv (n : ℕ) :
    Inv (started n).shared (started n).calls (List.replicate n []) := by
  have hthreads : ∀ c ∈ (started n).calls, ∃ index < n, c = worker index := by
    intro c hc
    obtain ⟨index, hindex, rfl⟩ := List.mem_map.1 hc
    exact ⟨index, List.mem_range.1 hindex, rfl⟩
  refine ⟨?_, fun {j s l} hs hl => ?_, fun x => ?_, fun x => ?_, fun c hc => ?_⟩
  · simp [started]
  · obtain rfl := List.eq_of_mem_replicate (List.mem_of_getElem? hs)
    obtain rfl := List.eq_of_mem_replicate (List.mem_of_getElem? hl)
    refine ⟨[], rfl, ThreadsafeQueue.init_inv fun d hd => ?_⟩
    obtain ⟨c, hc, rfl⟩ := List.mem_map.1 hd
    obtain ⟨index, -, rfl⟩ := hthreads c hc
    trivial
  · have hitems : Calls.total (List.count x) (List.replicate n ([] : List ℕ)) = 0 :=
      Calls.total_eq_zero fun l hl => by rw [List.eq_of_mem_replicate hl]; rfl
    have htaken : Calls.total (fun c => c.taken.count x) (started n).calls = 0 := by
      refine Calls.total_eq_zero fun c hc => ?_
      obtain ⟨index, -, rfl⟩ := hthreads c hc
      rfl
    have hsubmitted : Calls.total (fun c => c.submitted.count x) (started n).calls = 0 := by
      refine Calls.total_eq_zero fun c hc => ?_
      obtain ⟨index, -, rfl⟩ := hthreads c hc
      rfl
    rw [hitems, htaken, hsubmitted]
  · refine Calls.total_eq_zero fun c hc => ?_
    obtain ⟨index, -, rfl⟩ := hthreads c hc
    rfl
  · obtain ⟨index, hlt, rfl⟩ := hthreads c hc
    refine ⟨index, rfl, ?_⟩
    simpa [started] using hlt

/-- Another `submit`. -/
theorem Inv.submit (h : Inv p threads items) : Inv p (threads ++ [submit]) items := by
  have hconcat : ∀ f : Thread → ℕ, f StealThreadPool.submit = 0 →
      Calls.total f (threads ++ [StealThreadPool.submit]) = Calls.total f threads :=
    fun f hf => by rw [Calls.total_concat, hf, Nat.add_zero]
  refine ⟨h.length, fun {j s l} hs hl => ?_, fun x => ?_, fun x => ?_, fun c hc => ?_⟩
  · obtain ⟨cells, hcells, hinv⟩ := h.queues hs hl
    rw [List.map_append]
    exact ⟨cells, hcells, hinv.add trivial⟩
  · rw [hconcat _ rfl, hconcat _ rfl]
    exact h.account x
  · rw [hconcat _ rfl]
    exact h.fresh x
  · rcases List.mem_append.1 hc with hc | hc
    · exact h.fits c hc
    · rw [List.mem_singleton.1 hc]
      exact ⟨rfl, rfl⟩

/-- The task is in one queue, once, and no thread has taken it. -/
structure Queued (items : List (List ℕ)) (threads : List Thread) (task : ℕ) : Prop where
  once : ∃ (j : ℕ) (l : List ℕ), items[j]? = some l ∧ l.count task = 1 ∧
    ∀ (k : ℕ) (m : List ℕ), k ≠ j → items[k]? = some m → task ∉ m
  not_taken : ∀ c ∈ threads, task ∉ c.taken

/-- One worker has taken the task, once, and it is in no queue. -/
structure Taken (items : List (List ℕ)) (threads : List Thread) (task : ℕ) : Prop where
  once : ∃ (i : ℕ) (c : Thread), threads[i]? = some c ∧ c.worker.isSome ∧ c.taken.count task = 1 ∧
    ∀ (k : ℕ) (d : Thread), k ≠ i → threads[k]? = some d → task ∉ d.taken
  not_queued : ∀ l ∈ items, task ∉ l

/-- The queues are sequences, which have each task that was submitted and not taken. -/
def Kept (p : Pool) (threads : List Thread) : Prop :=
  ∃ items : List (List ℕ), items.length = p.workQues.length ∧
    (∀ (j : ℕ) s l, p.workQues[j]? = some s → items[j]? = some l → ThreadsafeQueue.Represents s l) ∧
    ∀ c ∈ threads, ∀ task ∈ c.submitted, Queued items threads task ∨ Taken items threads task

/-- Who has taken a task is a worker. -/
theorem worker_of_taken {n : ℕ} (hfits : c.Fits n) (htaken : c.taken ≠ []) : c.worker.isSome := by
  unfold Thread.Fits at hfits
  unfold Thread.taken at htaken
  cases hpc : c.pc with
  | load | submitted _ | undefined =>
    rw [hpc] at hfits htaken
    exact absurd hfits.2 htaken
  | store _ | make _ =>
    rw [hpc] at hfits htaken
    exact absurd hfits.2.1 htaken
  | onQueue index call after =>
    rw [hpc] at hfits htaken
    cases after with
    | submit task => exact absurd hfits.1.2 htaken
    | pop | steal =>
      obtain ⟨⟨i, hi, -⟩, -⟩ := hfits
      rw [hi]
      rfl
  | loop | next _ | run _ =>
    rw [hpc] at hfits
    obtain ⟨i, hi, -⟩ := hfits
    rw [hi]
    rfl

/-- What has been submitted has been made. -/
theorem submitted_le_made (x : ℕ) : c.submitted.count x ≤ c.made.count x := by
  unfold Thread.submitted Thread.made
  cases c.pc with
  | onQueue index call after =>
    cases after with
    | submit task =>
      dsimp only
      split
      · exact le_rfl
      · exact Nat.zero_le _
    | pop | steal => exact le_rfl
  | load | store _ | make _ | submitted _ | loop | next _ | run _ | undefined => exact le_rfl

theorem Inv.keeps_tasks (h : Inv p threads items) : Kept p threads := by
  refine ⟨items, h.length, fun j s l hs hl => ?_, fun c hc task htask => ?_⟩
  · obtain ⟨cells, hcells, hinv⟩ := h.queues hs hl
    exact ⟨cells, hinv.chain, hcells⟩
  · obtain ⟨i, hi⟩ := List.mem_iff_getElem?.1 hc
    have hone : Calls.total (fun c => c.submitted.count task) threads = 1 := by
      have hlow := Calls.le_total (f := fun c : Thread => c.submitted.count task) hi
      have hpos := List.count_pos_iff.2 htask
      have hle : Calls.total (fun c => c.submitted.count task) threads ≤
          Calls.total (fun c => c.made.count task) threads := Calls.total_le_total fun c _ => submitted_le_made task
      have hmade := h.fresh task
      split at hmade <;> omega
    have haccount := h.account task
    rw [hone] at haccount
    rcases Nat.eq_zero_or_pos (Calls.total (fun c => c.taken.count task) threads) with hzero | hpos
    · have hitems : Calls.total (List.count task) items = 1 := by omega
      obtain ⟨j, l, hl, hcount, hothers⟩ := Calls.exists_of_total_eq_one hitems
      refine .inl ⟨⟨j, l, hl, hcount, fun k m hk hm => List.count_eq_zero.1 (hothers k m hk hm)⟩, fun d hd => ?_⟩
      exact List.count_eq_zero.1 (Calls.total_eq_zero_iff.1 hzero d hd)
    · have hzero : Calls.total (List.count task) items = 0 := by omega
      have htaken : Calls.total (fun c => c.taken.count task) threads = 1 := by omega
      obtain ⟨k, d, hk, hcount, hothers⟩ := Calls.exists_of_total_eq_one htaken
      have hsome : d.taken ≠ [] := by
        intro hnil
        rw [hnil] at hcount
        cases hcount
      refine .inr ⟨⟨k, d, hk, worker_of_taken (h.fits d (List.mem_of_getElem? hk)) hsome, hcount, fun j e hj he => ?_⟩,
        fun l hl => ?_⟩
      · exact List.count_eq_zero.1 (hothers j e hj he)
      · exact List.count_eq_zero.1 (Calls.total_eq_zero_iff.1 hzero l hl)

/-- The pool keeps its tasks. -/
theorem pool_keeps {n : ℕ} {events : List (Calls.Event Unit Input)} {t : Calls Pool Thread}
    (ht : Run.run program.step (started n) events = some t) : Kept t.shared t.calls := by
  obtain ⟨items, h⟩ := Calls.run_invariant (fun p threads => ∃ items, Inv p threads items)
    (fun _ _ _ ⟨items, h⟩ => ⟨items, h.submit⟩) (fun _ _ _ _ _ _ _ ⟨_, h⟩ hi hm => move_inv h hi hm)
    ⟨_, started_inv n⟩ ht
  exact h.keeps_tasks

/-- **A queue is a sequence, and the pool keeps its tasks.** The calls on one queue take
effect one after the other: `push` at the back, the pops at the front, `try_steal` at
the back. Each task submitted to the pool is in one of its queues or was taken by one
worker. -/
theorem run_deque_and_tasks :
    (∀ (α : Type) (events : List (Calls.Event (Op α) Input)) t,
      Run.run ThreadsafeQueue.program.step ⟨ThreadsafeQueue.init, []⟩ events = some t →
        ∃ log items, ThreadsafeQueue.Represents t.shared items ∧ (∀ c ∈ t.calls, c.pc ≠ .undefined) ∧
          Calls.Linearized ThreadsafeQueue.program ThreadsafeQueue.view ThreadsafeQueue.Spec
            ⟨ThreadsafeQueue.init, []⟩ [] events t log items) ∧
    ∀ (n : ℕ) (events : List (Calls.Event Unit Input)) t,
      Run.run program.step (started n) events = some t → Kept t.shared t.calls :=
  ⟨fun _ _ _ ht => ThreadsafeQueue.queue_linearized ht, fun _ _ _ ht => pool_keeps ht⟩

end

/-- So many moves of call `i`; a node it makes gets this address. -/
def moves {ω : Type} (i times address : ℕ) : List (Calls.Event ω Input) :=
  List.replicate times (.move i { address := address, timeout := false })

/-- A pop takes 7 while 8 is half linked in behind it; then 8 is stolen. -/
def popDuringPush : List (Calls.Event (Op ℕ) Input) :=
  .call (.push 7) :: moves 0 7 2 ++ .call .tryPop :: moves 1 3 0 ++ .call (.push 8) :: moves 2 5 3 ++
    moves 1 4 0 ++ moves 2 2 0 ++ .call .trySteal :: moves 3 1 0

/-- Two workers; a task is put into the queue of the second one, and the first one
steals it. -/
def stolenTask : List (Calls.Event Unit Input) := .call () :: moves 2 11 2 ++ moves 0 11 0

theorem run_deque_and_tasks_stolen :
    (∃ t, Run.run ThreadsafeQueue.program.step ⟨ThreadsafeQueue.init, []⟩ popDuringPush = some t ∧
      ∃ log items, ThreadsafeQueue.Represents t.shared items ∧ (∀ c ∈ t.calls, c.pc ≠ .undefined) ∧
        Calls.Linearized ThreadsafeQueue.program ThreadsafeQueue.view ThreadsafeQueue.Spec
          ⟨ThreadsafeQueue.init, []⟩ [] popDuringPush t log items) ∧
    ∃ t, Run.run program.step (started 2) stolenTask = some t ∧ t.calls.map Thread.ran = [[0], [], []] ∧
      Kept t.shared t.calls := by
  have hqueue : ((Run.run ThreadsafeQueue.program.step ⟨ThreadsafeQueue.init, []⟩ popDuringPush).map
      fun t => t.calls.length) = some 4 := by
    decide +kernel
  have hpool : ((Run.run program.step (started 2) stolenTask).map fun t => t.calls.map Thread.ran) =
      some [[0], [], []] := by
    decide +kernel
  obtain ⟨t, ht, -⟩ := Option.map_eq_some_iff.1 hqueue
  obtain ⟨u, hu, hran⟩ := Option.map_eq_some_iff.1 hpool
  exact ⟨⟨t, ht, run_deque_and_tasks.1 ℕ popDuringPush t ht⟩, u, hu, hran, run_deque_and_tasks.2 2 stolenTask u hu⟩

end Learncc.StealThreadPool
