/-
`connector` (src/mmuduo/connector.cc): one connection attempt at a time, each
with a channel of its own that waits for the socket to become writable.

The channel objects are numbered in the order of their attempts. Beside its
members the connector records the channels destroyed while still registered
with the poller, the attempts handed to `conn_cb_` and those on which
`handle_error` ran. An event on a destroyed channel is undefined behaviour
and not modelled; the destruction is recorded.

`handle_error` removes the channel but leaves `state_` at CONNECTING (compare
`stop_inloop`), and a new attempt may begin while the channel of an earlier
one is still there or its deferred reset is still queued. `run_attempts`: the
state machine is sound in the runs that avoid both.
-/
import Learncc.Lib.Run
import Learncc.Mmuduo.Channel
import Mathlib.Data.List.Nodup

namespace Learncc

def EINTR : Errno := 4
def EAGAIN : Errno := 11
def EADDRINUSE : Errno := 98
def EADDRNOTAVAIL : Errno := 99
def ENETUNREACH : Errno := 101
def EISCONN : Errno := 106
def ECONNREFUSED : Errno := 111
def EINPROGRESS : Errno := 115

namespace Connector

/-- `states`. -/
inductive States
  | disconnected
  | connecting
  | connected
deriving Repr, DecidableEq

/-- The functors a connector queues in its loop. -/
inductive Fn
  | startInloop
  | stopInloop
  | resetChannel
deriving Repr, DecidableEq

end Connector

structure Connector where
  connect : Bool
  state : Connector.States
  /-- `channel_`, as the number of the object. -/
  channel : Option Nat
  chans : Nat → Channel
  /-- The number of the next channel object. -/
  next : Nat
  pending : List Connector.Fn
  nullDeref : Bool
  lostChannels : List Nat
  connCbs : List Nat
  errors : List Nat

namespace Connector

def init : Connector :=
  { connect := false, state := .disconnected, channel := none, chans := fun _ => Channel.init, next := 0,
    pending := [], nullDeref := false, lostChannels := [], connCbs := [], errors := [] }

/-- The channel is in the poller's epoll set (`EpollPoller.run_registered`). -/
def registered (c : Connector) (id : Nat) : Bool := (c.chans id).idx == .added

def setState (c : Connector) (state : States) : Connector := { c with state }

def queueInLoop (c : Connector) (f : Fn) : Connector := { c with pending := c.pending ++ [f] }

def setChan (c : Connector) (id : Nat) (ch : Channel) : Connector :=
  { c with chans := fun i => if i = id then ch else c.chans i }

/-- `channel_.reset()`: destroys the channel, if there is one. -/
def resetChannel (c : Connector) : Connector :=
  match c.channel with
  | none => c
  | some id =>
    { c with channel := none, lostChannels := if c.registered id then c.lostChannels ++ [id] else c.lostChannels }

def removeAndResetChannel (c : Connector) : Connector :=
  match c.channel with
  | none => { c with nullDeref := true }
  | some id => (c.setChan id (c.chans id).disableAll.remove).queueInLoop .resetChannel

/-- `channel_.reset(new channel(loop_, sockfd))` destroys the old channel; the
new one is watched for writing. -/
def connecting (c : Connector) : Connector :=
  let c := (c.setState .connecting).resetChannel
  { c.setChan c.next Channel.init.enableWriting with channel := some c.next, next := c.next + 1 }

/-- What `connect()` does with the socket, by the `errno` of `::connect` (0 on
success): go on, leave it, or close it. -/
inductive Outcome
  | connecting
  | leave
  | close
deriving Repr, DecidableEq

def outcome (saveErrno : Errno) : Outcome :=
  if saveErrno ∈ [0, EINPROGRESS, EINTR, EISCONN] then .connecting
  else if saveErrno ∈ [EAGAIN, EADDRINUSE, EADDRNOTAVAIL, ECONNREFUSED, ENETUNREACH] then .leave
  else .close

def doConnect (c : Connector) (saveErrno : Errno) : Connector :=
  match outcome saveErrno with
  | .connecting => c.connecting
  | .leave | .close => c

def startInloop (c : Connector) (saveErrno : Errno) : Connector :=
  if c.connect then c.doConnect saveErrno else c

def start (c : Connector) (inLoop : Bool) (saveErrno : Errno) : Connector :=
  let c := { c with connect := true }
  if inLoop then c.startInloop saveErrno else c.queueInLoop .startInloop

def stop (c : Connector) : Connector := { c with connect := false }.queueInLoop .stopInloop

def stopInloop (c : Connector) : Connector :=
  if c.state = .connecting then (c.setState .disconnected).removeAndResetChannel else c

def restart (c : Connector) (saveErrno : Errno) : Connector :=
  { c.setState .disconnected with connect := true }.startInloop saveErrno

/-- `handle_write`, called back by channel `id`. -/
def handleWrite (c : Connector) (id : Nat) : Connector :=
  if c.state = .connecting then
    let c := c.removeAndResetChannel.setState .connected
    if c.connect then { c with connCbs := c.connCbs ++ [id] } else c
  else c

/-- `handle_error`, called back by channel `id`. -/
def handleError (c : Connector) (id : Nat) : Connector :=
  let c := { c with errors := c.errors ++ [id] }
  if c.state = .connecting then c.removeAndResetChannel else c

def runCallback (id : Nat) (c : Connector) : Channel.Callback → Connector
  | .error => c.handleError id
  | .write => c.handleWrite id
  | .close | .read => c

/-- `connecting` sets the write and the error callback only. -/
def hasCallback : Channel.Callback → Bool
  | .error | .write => true
  | .close | .read => false

def handleEvent (c : Connector) (id : Nat) (revents : EventMask) : Connector :=
  (Channel.handleEventWithGuard hasCallback revents).foldl (runCallback id) c

inductive Act
  | start (inLoop : Bool) (saveErrno : Errno)
  | stop
  | restart (saveErrno : Errno)
  | functor (saveErrno : Errno)
  | event (id : Nat) (revents : EventMask)
deriving Repr, DecidableEq

/-- One step: a call, the next queued functor, or a poll result, which comes
for the registered channel only. -/
def step (c : Connector) : Act → Option Connector
  | .start inLoop e => some (c.start inLoop e)
  | .stop => some c.stop
  | .restart e => some (c.restart e)
  | .functor e =>
    match c.pending with
    | [] => none
    | .startInloop :: fs => some ({ c with pending := fs }.startInloop e)
    | .stopInloop :: fs => some { c with pending := fs }.stopInloop
    | .resetChannel :: fs => some { c with pending := fs }.resetChannel
  | .event id revents => if c.registered id && c.channel == some id then some (c.handleEvent id revents) else none

/-! ## Sound runs -/

/-- The step goes on with a new attempt. -/
def attempts (c : Connector) : Act → Bool
  | .start true e => outcome e == .connecting
  | .restart e => outcome e == .connecting
  | .functor e => c.pending.head? == some .startInloop && c.connect && outcome e == .connecting
  | _ => false

/-- The condition on a step: a new attempt begins only when no channel is
left and no reset is queued, and the channel of an attempt in progress sees
no EPOLLERR. -/
def Orderly (c : Connector) (a : Act) : Prop :=
  (c.attempts a = true → c.channel = none ∧ .resetChannel ∉ c.pending) ∧
  ∀ id revents, a = .event id revents → c.state = .connecting → revents.has EPOLLERR = false

/-- The channel of an attempt in progress is there and registered, no reset
is queued, and neither callback has run for it. A queued reset finds the
channel removed from the poller. No channel but `channel_` is registered, and
no number is used twice. -/
structure Inv (c : Connector) : Prop where
  attempt : c.state = .connecting → ∃ id, c.channel = some id ∧ c.registered id = true ∧
    .resetChannel ∉ c.pending ∧ id ∉ c.connCbs ∧ id ∉ c.errors
  reset : .resetChannel ∈ c.pending → ∀ id, c.channel = some id → c.registered id = false
  current : ∀ id, c.registered id = true → c.channel = some id
  used : (∀ id, c.channel = some id → id < c.next) ∧ (∀ id ∈ c.connCbs, id < c.next) ∧ ∀ id ∈ c.errors, id < c.next
  called : ∀ id ∈ c.connCbs, c.registered id = false ∧ id ∉ c.errors
  once : c.connCbs.Nodup
  kept : c.lostChannels = []
  deref : c.nullDeref = false

theorem init_inv : init.Inv := by
  refine ⟨fun h => ?_, fun h => ?_, fun _ h => ?_, ⟨fun _ h => ?_, by simp [init], by simp [init]⟩, by simp [init],
    List.nodup_nil, rfl, rfl⟩
  · cases h
  · cases h
  · cases h
  · cases h

theorem setChan_registered (c : Connector) (id i : Nat) (ch : Channel) :
    (c.setChan id ch).registered i = if i = id then ch.idx == .added else c.registered i := by
  simp only [setChan, registered]
  split <;> rfl

/-- Leaving CONNECTING without touching the channel. -/
theorem Inv.leave {c : Connector} (h : c.Inv) (b : Bool) : Inv { c.setState .disconnected with connect := b } := by
  refine ⟨fun h' => ?_, h.reset, h.current, h.used, h.called, h.once, h.kept, h.deref⟩
  cases h'

theorem Inv.connect {c : Connector} (h : c.Inv) (b : Bool) : Inv { c with connect := b } :=
  ⟨h.attempt, h.reset, h.current, h.used, h.called, h.once, h.kept, h.deref⟩

/-- Queueing a functor other than a reset. -/
theorem Inv.queue {c : Connector} (h : c.Inv) {f : Fn} (hf : f ≠ .resetChannel) : (c.queueInLoop f).Inv := by
  refine ⟨fun hc => ?_, fun hr => ?_, h.current, h.used, h.called, h.once, h.kept, h.deref⟩
  · obtain ⟨id, h1, h2, h3, h4, h5⟩ := h.attempt hc
    exact ⟨id, h1, h2, by simp [queueInLoop, h3, hf.symm], h4, h5⟩
  · refine h.reset ?_
    simpa [queueInLoop, hf.symm] using hr

theorem Inv.pop {c : Connector} (h : c.Inv) {f : Fn} {fs : List Fn} (hp : c.pending = f :: fs) :
    Inv { c with pending := fs } := by
  refine ⟨fun hc => ?_, fun hr => ?_, h.current, h.used, h.called, h.once, h.kept, h.deref⟩
  · obtain ⟨id, h1, h2, h3, h4, h5⟩ := h.attempt hc
    refine ⟨id, h1, h2, fun hm => h3 ?_, h4, h5⟩
    rw [hp]
    exact List.mem_cons_of_mem _ hm
  · refine h.reset ?_
    rw [hp]
    exact List.mem_cons_of_mem _ hr

/-- A new attempt, where no channel is left and no reset is queued. -/
theorem connecting_inv {c : Connector} (h : c.Inv) (hn : c.channel = none) (hp : .resetChannel ∉ c.pending) :
    c.connecting.Inv := by
  have he : c.connecting = { c.setChan c.next Channel.init.enableWriting with
      state := .connecting, channel := some c.next, next := c.next + 1 } := by
    simp [connecting, setState, resetChannel, hn, setChan]
  have hreg : ∀ i, c.connecting.registered i = if i = c.next then true else c.registered i := by
    intro i
    rw [he]
    exact setChan_registered c c.next i _
  obtain ⟨u1, u2, u3⟩ := h.used
  have hnone : ∀ i, c.registered i = false := fun i => by
    by_contra hi
    have := h.current i (by simpa using hi)
    rw [hn] at this
    cases this
  refine ⟨fun _ => ⟨c.next, ?_, ?_, ?_, fun hm => ?_, fun hm => ?_⟩, fun hr => ?_, fun i hi => ?_,
    ⟨fun i hi => ?_, fun i hi => ?_, fun i hi => ?_⟩, fun i hi => ?_, ?_, ?_, ?_⟩
  · rw [he]
  · rw [hreg, if_pos rfl]
  · rw [he]; exact hp
  · rw [he] at hm; exact absurd (u2 _ hm) (Nat.lt_irrefl _)
  · rw [he] at hm; exact absurd (u3 _ hm) (Nat.lt_irrefl _)
  · rw [he] at hr; exact absurd hr hp
  · rw [hreg] at hi
    split at hi
    · rename_i hx; rw [he, hx]
    · rw [hnone i] at hi; cases hi
  · rw [he] at hi ⊢; cases hi; exact Nat.lt_succ_self _
  · rw [he] at hi ⊢; exact Nat.lt_succ_of_lt (u2 i hi)
  · rw [he] at hi ⊢; exact Nat.lt_succ_of_lt (u3 i hi)
  · rw [hreg]
    rw [he] at hi ⊢
    have hlt := u2 i hi
    rw [if_neg (by omega)]
    exact h.called i hi
  · rw [he]; exact h.once
  · rw [he]; exact h.kept
  · rw [he]; exact h.deref

theorem startInloop_inv {c : Connector} (h : c.Inv) {e : Errno}
    (ho : (c.connect && outcome e == .connecting) = true → c.channel = none ∧ .resetChannel ∉ c.pending) :
    (c.startInloop e).Inv := by
  unfold startInloop
  split
  · rename_i hcon
    unfold doConnect
    split
    · rename_i hout
      obtain ⟨hn, hp⟩ := ho (by simp [hcon, hout])
      exact connecting_inv h hn hp
    · exact h
    · exact h
  · exact h

/-- The attempt in progress is over: its channel leaves the poller, and its
reset is queued. -/
theorem Inv.retire {c : Connector} (h : c.Inv) (hc : c.state = .connecting) {st : States} (hst : st ≠ .connecting)
    {id : Nat} (hid : c.channel = some id) :
    (c.removeAndResetChannel.setState st).Inv ∧ (c.removeAndResetChannel.setState st).registered id = false ∧
      id ∉ c.connCbs ∧ id ∉ c.errors := by
  obtain ⟨id', h1, h2, h3, h4, h5⟩ := h.attempt hc
  rw [hid] at h1
  cases h1
  have he : c.removeAndResetChannel.setState st =
      { c.setChan id (c.chans id).disableAll.remove with state := st, pending := c.pending ++ [.resetChannel] } := by
    simp only [removeAndResetChannel, hid]
    rfl
  have hreg : ∀ i, (c.removeAndResetChannel.setState st).registered i =
      if i = id then false else c.registered i := by
    intro i
    rw [he]
    exact setChan_registered c id i _
  have hoff : (c.removeAndResetChannel.setState st).registered id = false := by rw [hreg, if_pos rfl]
  refine ⟨⟨fun hc' => ?_, fun _ i hi => ?_, fun i hi => ?_, ?_, fun i hi => ?_, ?_, ?_, ?_⟩, hoff, h4, h5⟩
  · rw [he] at hc'; exact absurd hc' hst
  · have hi' : c.channel = some i := by rw [he] at hi; exact hi
    rw [hid] at hi'
    cases hi'
    exact hoff
  · rw [hreg] at hi
    split at hi
    · cases hi
    · rw [he]; exact h.current i hi
  · rw [he]; exact h.used
  · have hi' : i ∈ c.connCbs := by rw [he] at hi; exact hi
    refine ⟨?_, ?_⟩
    · rw [hreg]
      split
      · rfl
      · exact (h.called i hi').1
    · rw [he]; exact (h.called i hi').2
  · rw [he]; exact h.once
  · rw [he]; exact h.kept
  · rw [he]; exact h.deref

theorem stopInloop_inv {c : Connector} (h : c.Inv) : c.stopInloop.Inv := by
  unfold stopInloop
  split
  · rename_i hc
    obtain ⟨id, hid, -⟩ := h.attempt hc
    have he : (c.setState .disconnected).removeAndResetChannel = c.removeAndResetChannel.setState .disconnected := by
      simp only [removeAndResetChannel, setState, hid, queueInLoop, setChan]
    rw [he]
    exact (h.retire hc (by simp) hid).1
  · exact h

theorem handleWrite_inv {c : Connector} (h : c.Inv) {id : Nat} (hid : c.channel = some id) :
    (c.handleWrite id).Inv := by
  unfold handleWrite
  split
  · rename_i hc
    obtain ⟨hi, hoff, h4, h5⟩ := h.retire hc (show States.connected ≠ .connecting by simp) hid
    have hcbs : (c.removeAndResetChannel.setState .connected).connCbs = c.connCbs := by
      simp only [removeAndResetChannel, hid]; rfl
    have herr : (c.removeAndResetChannel.setState .connected).errors = c.errors := by
      simp only [removeAndResetChannel, hid]; rfl
    have hnext : (c.removeAndResetChannel.setState .connected).next = c.next := by
      simp only [removeAndResetChannel, hid]; rfl
    dsimp only
    split
    · refine ⟨fun hc' => ?_, hi.reset, hi.current, ⟨hi.used.1, fun i hi' => ?_, hi.used.2.2⟩, fun i hi' => ?_, ?_,
        hi.kept, hi.deref⟩
      · cases hc'
      · rw [List.mem_append, List.mem_singleton] at hi'
        rcases hi' with hi' | rfl
        · exact hi.used.2.1 i hi'
        · rw [hnext]; exact h.used.1 _ hid
      · rw [List.mem_append, List.mem_singleton] at hi'
        rcases hi' with hi' | rfl
        · exact hi.called i hi'
        · exact ⟨hoff, by rw [herr]; exact h5⟩
      · show List.Nodup (_ ++ [id])
        rw [List.nodup_append]
        refine ⟨hi.once, List.nodup_singleton id, fun a ha b hb hab => ?_⟩
        rw [List.mem_singleton] at hb
        subst hb hab
        rw [hcbs] at ha
        exact h4 ha
    · exact hi
  · exact h

/-- The error callback outside an attempt in progress only logs. -/
theorem handleError_inv {c : Connector} (h : c.Inv) {id : Nat} (hid : c.channel = some id)
    (hreg : c.registered id = true) (hc : c.state ≠ .connecting) :
    c.handleError id = { c with errors := c.errors ++ [id] } ∧ (c.handleError id).Inv := by
  have he : c.handleError id = { c with errors := c.errors ++ [id] } := by simp [handleError, hc]
  refine ⟨he, ?_⟩
  rw [he]
  refine ⟨fun hc' => absurd hc' hc, h.reset, h.current, ⟨h.used.1, h.used.2.1, fun i hi => ?_⟩, fun i hi => ?_, h.once,
    h.kept, h.deref⟩
  · rw [List.mem_append, List.mem_singleton] at hi
    rcases hi with hi | rfl
    · exact h.used.2.2 i hi
    · exact h.used.1 _ hid
  · obtain ⟨h1, h2⟩ := h.called i hi
    refine ⟨h1, fun hm => ?_⟩
    rw [List.mem_append, List.mem_singleton] at hm
    rcases hm with hm | rfl
    · exact h2 hm
    · have h1' : c.registered i = false := h1
      rw [hreg] at h1'
      cases h1'

theorem handleEvent_inv {c : Connector} (h : c.Inv) {id : Nat} {revents : EventMask} (hid : c.channel = some id)
    (hreg : c.registered id = true) (ho : c.state = .connecting → revents.has EPOLLERR = false) :
    (c.handleEvent id revents).Inv := by
  have he : Channel.handleEventWithGuard hasCallback revents =
      (if revents.has EPOLLERR then [.error] else []) ++ (if revents.has EPOLLOUT then [.write] else []) := by
    simp [Channel.handleEventWithGuard, hasCallback]
  rw [handleEvent, he, List.foldl_append]
  by_cases hc : c.state = .connecting
  · simp only [ho hc, Bool.false_eq_true, if_false, List.foldl_nil]
    split
    · exact handleWrite_inv h hid
    · exact h
  · have hlog : ∀ d : Connector, d.Inv → d.state ≠ .connecting →
        (List.foldl (runCallback id) d (if revents.has EPOLLOUT then [.write] else [])).Inv := by
      intro d hd hdc
      split
      · simpa [runCallback, handleWrite, hdc] using hd
      · exact hd
    split
    · obtain ⟨hee, hei⟩ := handleError_inv h hid hreg hc
      refine hlog _ hei ?_
      show (c.handleError id).state ≠ .connecting
      rw [hee]
      exact hc
    · exact hlog c h hc

theorem resetChannel_eq {c : Connector} {id : Nat} (hid : c.channel = some id) (hoff : c.registered id = false) :
    c.resetChannel = { c with channel := none } := by
  simp only [resetChannel, hid, hoff, Bool.false_eq_true, if_false]

theorem resetChannel_inv {c : Connector} (h : c.Inv) {fs : List Fn} (hp : c.pending = .resetChannel :: fs) :
    Inv { c with pending := fs }.resetChannel := by
  have hmem : Fn.resetChannel ∈ c.pending := by rw [hp]; exact List.mem_cons_self
  have hpop := h.pop hp
  have hst : c.state ≠ .connecting := fun hc => by
    obtain ⟨_, _, _, hr, _⟩ := h.attempt hc
    exact hr hmem
  rcases Option.eq_none_or_eq_some c.channel with hch | ⟨id, hch⟩
  · simpa only [resetChannel, hch] using hpop
  · have hoff : c.registered id = false := h.reset hmem id hch
    have he := resetChannel_eq (c := { c with pending := fs }) hch hoff
    rw [he]
    refine ⟨fun hc => absurd hc hst, fun _ _ hi => ?_, fun i hi => ?_, ⟨fun _ hi => ?_, h.used.2⟩, h.called, h.once,
      h.kept, h.deref⟩
    · cases hi
    · have hi' := h.current i hi
      rw [hch] at hi'
      cases hi'
      have hi'' : c.registered id = true := hi
      rw [hoff] at hi''
      cases hi''
    · cases hi

theorem step_inv {c c' : Connector} {a : Act} (h : c.Inv) (ho : c.Orderly a) (hs : c.step a = some c') : c'.Inv := by
  cases a with
  | start inLoop e =>
    simp only [step, Option.some.injEq] at hs; subst hs
    cases inLoop with
    | true =>
      refine startInloop_inv (h.connect true) fun hc => ?_
      exact ho.1 (by simpa [attempts] using hc)
    | false => exact (h.connect true).queue (by simp)
  | stop =>
    simp only [step, Option.some.injEq] at hs; subst hs
    exact (h.connect false).queue (by simp)
  | restart e =>
    simp only [step, Option.some.injEq] at hs; subst hs
    refine startInloop_inv (h.leave true) fun hc => ?_
    exact ho.1 (by simpa [attempts] using hc)
  | functor e =>
    simp only [step] at hs
    split at hs
    · cases hs
    · rename_i fs hp
      simp only [Option.some.injEq] at hs; subst hs
      refine startInloop_inv (h.pop hp) fun hc => ?_
      obtain ⟨h1, h2⟩ := ho.1 (by simpa [attempts, hp] using hc)
      exact ⟨h1, fun hm => h2 (by rw [hp]; exact List.mem_cons_of_mem _ hm)⟩
    · rename_i fs hp
      simp only [Option.some.injEq] at hs; subst hs
      exact stopInloop_inv (h.pop hp)
    · rename_i fs hp
      simp only [Option.some.injEq] at hs; subst hs
      exact resetChannel_inv h hp
  | event id revents =>
    simp only [step] at hs
    split at hs
    · rename_i hen
      simp only [Option.some.injEq] at hs; subst hs
      simp only [Bool.and_eq_true, beq_iff_eq] at hen
      exact handleEvent_inv h hen.2 hen.1 (ho.2 id revents rfl)
    · cases hs

/-- What the state machine is to keep: an attempt in progress has its channel,
registered; no channel is destroyed while registered; and `conn_cb_` is
called at most once for an attempt, and for none on which `handle_error` ran. -/
structure Sound (c : Connector) : Prop where
  attempt : c.state = .connecting → ∃ id, c.channel = some id ∧ c.registered id = true
  kept : c.lostChannels = []
  once : c.connCbs.Nodup
  clean : ∀ id ∈ c.connCbs, id ∉ c.errors

/-- **The connector is sound in every run whose steps are all orderly**: a new
attempt begins only when no channel is left over and no reset is queued, and
the channel of an attempt in progress sees no EPOLLERR. It never dereferences
a null `channel_` there either. -/
theorem run_attempts {acts : List Act} {c : Connector} (ho : Run.Along step Orderly init acts)
    (h : Run.run step init acts = some c) : c.Sound ∧ c.nullDeref = false := by
  have hi : c.Inv := Run.run_along_invariant Inv (fun _ _ _ => step_inv) init_inv ho h
  refine ⟨⟨fun hc => ?_, hi.kept, hi.once, fun id hm => (hi.called id hm).2⟩, hi.deref⟩
  obtain ⟨id, h1, h2, -⟩ := hi.attempt hc
  exact ⟨id, h1, h2⟩

/-- An attempt that becomes writable. -/
def writable : List Act := [.start true EINPROGRESS, .event 0 EPOLLOUT, .functor 0]

theorem run_attempts_writable :
    ∃ c, Run.run step init writable = some c ∧ c.connCbs = [0] ∧ c.Sound := by
  have hsome : (Run.run step init writable).map (·.connCbs) = some [0] := by decide
  obtain ⟨c, hc, hcb⟩ := Option.map_eq_some_iff.1 hsome
  refine ⟨c, hc, hcb, (run_attempts ?_ hc).1⟩
  refine ⟨⟨fun _ => by decide, fun _ _ h => by cases h⟩, ?_⟩
  intro _ he
  cases he
  refine ⟨⟨fun h => by simp [attempts] at h, ?_⟩, ?_⟩
  · intro _ _ he _
    cases he
    decide
  intro _ he
  cases he
  exact ⟨⟨fun h => absurd h (by decide), fun _ _ h => by cases h⟩, fun _ _ => trivial⟩

/-- A refused attempt: the error leaves the connector in CONNECTING without a
registered channel, and when the same poll result is also writable, the
failed socket goes to `conn_cb_`. -/
theorem refused_attempt :
    (Run.run step init [.start true EINPROGRESS, .event 0 EPOLLERR]).map
        (fun c => (c.state, c.channel, c.registered 0)) = some (.connecting, some 0, false) ∧
    (Run.run step init [.start true EINPROGRESS, .event 0 (EPOLLERR ||| EPOLLOUT)]).map
        (fun c => (c.connCbs, c.errors)) = some ([0], [0]) := by
  decide

end Connector

end Learncc
