/-
The interest mask of a `tcp_connection` over its whole life, and what follows
for queued output.

`is_writing()` compares the whole mask with EPOLLOUT. An established
connection is watched for reading, so the test is false even while EPOLLOUT
is watched for (`MaskInv.isWriting`). Two things follow.

`never_drains`: on an established connection no EPOLLOUT event drains the
output buffer. `graceful_iff`: the write side is shut down over pending
output whenever a message was not taken whole by its first `write(2)`. It is
also shut down over messages that other threads sent and that still wait in
the loop's queue, when the loop's own thread calls `shutdown`. And what another
thread sent is read through a pointer into its string, which may be gone by then.
-/
import Learncc.Mmuduo.ConnOutput

namespace Learncc

namespace Conn

open Channel (knoneEvent kreadEvent kwriteEvent)

/-! ## The mask -/

/-- The mask in each state: nothing is watched before the connection is
established and after it is closed; in between reading is, and writing may
be. Nothing is queued before the connection is established. -/
structure MaskInv (c : Conn) : Prop where
  connecting : c.state = .connecting → c.chan.events = knoneEvent ∧ c.queued = []
  opened : c.state = .connected ∨ c.state = .disconnecting →
    c.chan.events = kreadEvent ∨ c.chan.events = kreadEvent ||| kwriteEvent
  closed : c.state = .disconnected → c.chan.events = knoneEvent

theorem MaskInv.isWriting {c : Conn} (h : c.MaskInv) : c.chan.isWriting = false := by
  have hm : c.chan.events = knoneEvent ∨ c.chan.events = kreadEvent ∨
      c.chan.events = kreadEvent ||| kwriteEvent := by
    cases hs : c.state with
    | disconnected => exact .inl (h.closed hs)
    | connecting => exact .inl (h.connecting hs).1
    | connected => exact .inr (h.opened (.inl hs))
    | disconnecting => exact .inr (h.opened (.inr hs))
  rcases hm with he | he | he <;> rw [Channel.isWriting, he] <;> decide

theorem new_maskInv (wc hw : Bool) (hm : Nat) : (new wc hw hm).MaskInv := by
  refine ⟨fun _ => ⟨rfl, rfl⟩, fun h => ?_, fun h => ?_⟩
  · rcases h with h | h <;> cases h
  · cases h

/-- Only the state, the mask and the queue matter. -/
theorem MaskInv.of_opened {c : Conn} (hs : c.state = .connected ∨ c.state = .disconnecting)
    (he : c.chan.events = kreadEvent ∨ c.chan.events = kreadEvent ||| kwriteEvent) : c.MaskInv := by
  refine ⟨fun h => ?_, fun _ => he, fun h => ?_⟩
  · rcases hs with hs | hs <;> rw [hs] at h <;> cases h
  · rcases hs with hs | hs <;> rw [hs] at h <;> cases h

theorem MaskInv.of_closed {c : Conn} (hs : c.state = .disconnected) (he : c.chan.events = knoneEvent) :
    c.MaskInv := by
  refine ⟨fun h => ?_, fun h => ?_, fun _ => he⟩
  · rw [hs] at h; cases h
  · rcases h with h | h <;> rw [hs] at h <;> cases h

theorem handleClose_mask (c : Conn) : c.handleClose.MaskInv := MaskInv.of_closed rfl (by simp [handleClose, callback])

theorem sendInloop_mask {c : Conn} (h : c.MaskInv) (hs : c.state ≠ .connecting) (data : Bytes) (w : WriteResult) :
    (c.sendInloop data w).MaskInv := by
  by_cases hd : c.state = .disconnected
  · rw [sendInloop, if_pos hd]
    exact ⟨h.connecting, h.opened, h.closed⟩
  obtain ⟨q, ch, he, hev⟩ := sendInloop_eq hd data w
  have ho : c.state = .connected ∨ c.state = .disconnecting := by cases hc : c.state <;> simp_all
  rw [he]
  refine MaskInv.of_opened ho ?_
  show ch.events = _ ∨ ch.events = _
  rcases hev with hev | hev
  · rw [hev]; exact h.opened ho
  · right
    rcases h.opened ho with hm | hm <;> rw [hev, hm]
    decide

theorem sendBound_mask {c : Conn} (h : c.MaskInv) (hs : c.state ≠ .connecting) (data : Bytes) (valid : Bool)
    (w : WriteResult) : (c.sendBound data valid w).MaskInv := by
  unfold sendBound
  split
  · exact sendInloop_mask h hs data w
  · exact ⟨h.connecting, h.opened, h.closed⟩

theorem handleWrite_mask {c : Conn} (h : c.MaskInv) (w : WriteResult) : c.handleWrite w = c := by
  simp [handleWrite, h.isWriting]

theorem forceCloseInloop_mask {c : Conn} (h : c.MaskInv) : c.forceCloseInloop.MaskInv := by
  unfold forceCloseInloop
  split
  · exact handleClose_mask c
  · exact h

theorem shutdownInloop_mask {c : Conn} (h : c.MaskInv) : c.shutdownInloop.MaskInv := by
  obtain ⟨sw, he⟩ := shutdownInloop_eq c
  rw [he]
  exact ⟨h.connecting, h.opened, h.closed⟩

theorem handleRead_mask {c : Conn} (h : c.MaskInv) (r : ReadvResult) : (c.handleRead r).MaskInv := by
  simp only [handleRead]
  split
  · exact ⟨h.connecting, h.opened, h.closed⟩
  · split
    · exact handleClose_mask _
    · exact ⟨h.connecting, h.opened, h.closed⟩

theorem runCallback_mask {c : Conn} (h : c.MaskInv) (r : ReadvResult) (w : WriteResult) (cb : Channel.Callback) :
    (runCallback r w c cb).MaskInv := by
  cases cb with
  | close => exact handleClose_mask c
  | error => exact h
  | read => exact handleRead_mask h r
  | write => simp only [runCallback, handleWrite_mask h]; exact h

theorem handleEvent_mask {c : Conn} (h : c.MaskInv) (ev : EventMask) (r : ReadvResult) (w : WriteResult) :
    (c.handleEvent ev r w).MaskInv :=
  List.foldlRecOn _ _ h fun _ hc cb _ => runCallback_mask hc r w cb

theorem step_send {c c' : Conn} {inLoop : Bool} {data : Bytes} {w : WriteResult}
    (hs : c.step (.send inLoop data w) = some c') : c.obuf.Room data.length ∧ c' = c.send inLoop data w := by
  simp only [step] at hs
  split at hs
  · rename_i hroom
    exact ⟨hroom, (Option.some.inj hs).symm⟩
  · cases hs

theorem step_functor {c c' : Conn} {w : WriteResult} (hs : c.step (.functor w) = some c') :
    ∃ f fs, c.queued = f :: fs ∧ c.obuf.Room f.message.length ∧ c' = { c with queued := fs }.runFunctor w f := by
  simp only [step] at hs
  split at hs
  · cases hs
  · rename_i f fs hq
    split at hs
    · rename_i hroom
      exact ⟨f, fs, hq, hroom, (Option.some.inj hs).symm⟩
    · cases hs

theorem step_mask {c c' : Conn} {a : Act} (h : c.MaskInv) (hs : c.step a = some c') : c'.MaskInv := by
  cases a with
  | connectEstablished =>
    simp only [step] at hs
    split at hs
    · rename_i hc
      simp only [Option.some.injEq] at hs; subst hs
      refine MaskInv.of_opened (.inl rfl) (.inl ?_)
      simp [connectEstablished, callback, setState, (h.connecting hc).1, knoneEvent]
    · cases hs
  | send inLoop data w =>
    obtain ⟨-, rfl⟩ := step_send hs
    unfold send
    split
    · rename_i hc
      split
      · exact sendInloop_mask h (by simp [hc]) data w
      · exact MaskInv.of_opened (.inl hc) (h.opened (.inl hc))
    · exact h
  | stringEnds k =>
    simp only [step, Option.some.injEq] at hs; subst hs
    exact ⟨fun hc => ⟨(h.connecting hc).1, by simp [stringEnds, (h.connecting hc).2]⟩, h.opened, h.closed⟩
  | shutdown inLoop =>
    simp only [step, Option.some.injEq] at hs; subst hs
    unfold shutdown
    split
    · rename_i hc
      have hm : MaskInv (c.setState .disconnecting) := MaskInv.of_opened (.inr rfl) (h.opened (.inl hc))
      split
      · exact shutdownInloop_mask hm
      · exact MaskInv.of_opened (.inr rfl) (h.opened (.inl hc))
    · exact h
  | forceClose =>
    simp only [step, Option.some.injEq] at hs; subst hs
    unfold forceClose
    split
    · rename_i hc
      exact MaskInv.of_opened (.inr rfl) (h.opened hc)
    · exact h
  | functor w =>
    obtain ⟨f, fs, hq, -, rfl⟩ := step_functor hs
    -- Something is queued, so the connection has been established.
    have hne : c.state ≠ .connecting := fun hc => by simp [(h.connecting hc).2] at hq
    have h' : MaskInv { c with queued := fs } := ⟨fun hc => absurd hc hne, h.opened, h.closed⟩
    cases f with
    | writeComplete | highWatermark => exact ⟨h'.connecting, h'.opened, h'.closed⟩
    | sendInloop data valid => exact sendBound_mask h' hne data valid w
    | shutdownInloop => exact shutdownInloop_mask h'
    | forceCloseInloop => exact forceCloseInloop_mask h'
  | event ev r w =>
    simp only [step, Option.some.injEq] at hs; subst hs
    exact handleEvent_mask h ev r w
  | connectDestroyed =>
    simp only [step, Option.some.injEq] at hs; subst hs
    unfold connectDestroyed
    split
    · exact MaskInv.of_closed rfl (by simp [callback])
    · exact ⟨h.connecting, h.opened, h.closed⟩

theorem run_mask {wc hw : Bool} {hm : Nat} {acts : List Act} {c : Conn}
    (h : Run.run step (new wc hw hm) acts = some c) : c.MaskInv :=
  Run.run_invariant MaskInv (fun _ _ _ => step_mask) (new_maskInv wc hw hm) h

/-! ## Draining -/

/-- What an EPOLLOUT event on which `write(2)` takes `n` bytes is to do: the
first `n` bytes leave the output buffer; EPOLLOUT is watched for until the
buffer is empty; then the write-complete callback is queued and, on a
connection being closed, the write side is shut down. -/
structure Drains (c : Conn) (n : Nat) : Prop where
  removes : (c.handleWrite (.ok n)).obuf.readable = c.obuf.readable.drop n
  interest : (c.handleWrite (.ok n)).chan.events.has EPOLLOUT = false ↔
    (c.handleWrite (.ok n)).obuf.readable = []
  complete : (c.handleWrite (.ok n)).obuf.readable = [] → c.writeCompCb = true →
    (c.handleWrite (.ok n)).queued = c.queued ++ [.writeComplete]
  closes : (c.handleWrite (.ok n)).obuf.readable = [] → c.state = .disconnecting →
    (c.handleWrite (.ok n)).shutdownWrites.length = c.shutdownWrites.length + 1

/-- **Established connections never drain.** Whatever happened to the
connection so far, while output is queued an EPOLLOUT event on which
`write(2)` would take bytes does not do what it is to do: it leaves the
connection as it is. -/
theorem never_drains {wc hw : Bool} {hm : Nat} {acts : List Act} {c : Conn}
    (h : Run.run step (new wc hw hm) acts = some c) (hout : c.obuf.readable ≠ []) (n : Nat) (hn : 0 < n) :
    ¬ c.Drains n ∧ c.handleWrite (.ok n) = c := by
  have hsame := handleWrite_mask (run_mask h) (.ok n)
  refine ⟨fun hd => ?_, hsame⟩
  have hrem := hd.removes
  rw [hsame] at hrem
  have hlen := congrArg List.length hrem
  have hpos := List.length_pos_iff.2 hout
  simp only [List.length_drop] at hlen
  omega

/-- A two-byte message of which the kernel took one byte. -/
def halfSent : List Act := [.connectEstablished, .send true [1, 2] (.ok 1)]

theorem never_drains_halfSent :
    ∃ c, Run.run step (new false false 64) halfSent = some c ∧ c.handleWrite (.ok 1) = c := by
  have hsome : ((Run.run step (new false false 64) halfSent).map (·.obuf.readable)) = some [2] := by
    decide +kernel
  obtain ⟨c, hc, hr⟩ := Option.map_eq_some_iff.1 hsome
  exact ⟨c, hc, (never_drains hc (by rw [hr]; decide) 1 (by decide)).2⟩

/-- The byte left over stays in the output buffer when EPOLLOUT comes. -/
theorem halfSent_stays :
    ∃ c, Run.run step (new false false 64) halfSent = some c ∧ c.state = .connected ∧
      c.obuf.readable = [2] ∧ ¬ c.Drains 1 := by
  have hsome : ((Run.run step (new false false 64) halfSent).map fun c =>
      (c.state, c.obuf.readable, (c.handleWrite (.ok 1)).obuf.readable)) = some (.connected, [2], [2]) := by
    decide +kernel
  obtain ⟨c, hc, hr⟩ := Option.map_eq_some_iff.1 hsome
  simp only [Prod.mk.injEq] at hr
  refine ⟨c, hc, hr.1, hr.2.1, fun hd => ?_⟩
  have := hd.removes
  rw [hr.2.1, hr.2.2] at this
  simp at this

/-! ## Closing gracefully -/

/-- The message an act passes to `send_inloop`, with `write(2)`'s answer. -/
def passes (c : Conn) : Act → Option (Bytes × WriteResult)
  | .send true data w => if c.state = .connected then some (data, w) else none
  | .functor w =>
    match c.queued with
    | .sendInloop data true :: _ => some (data, w)
    | _ => none
  | _ => none

/-- The act runs `shutdown_inloop`: a `shutdown` in the loop's thread, or the
functor one in another thread has queued. -/
def runsShutdown (c : Conn) : Act → Bool
  | .shutdown true => c.state == .connected
  | .functor _ => c.queued.head? == some .shutdownInloop
  | _ => false

/-- The act runs the `send_inloop` of another thread whose string is not there any more. -/
def readsEnded (c : Conn) : Act → Bool
  | .functor _ =>
    match c.queued with
    | .sendInloop _ false :: _ => true
    | _ => false
  | _ => false

/-- How much a `write(2)` that answers `w` takes of a message. -/
def taken (c : Conn) (w : WriteResult) : Nat := if c.state = .disconnected then 0 else w.accepted

/-- The act passes a message to `send_inloop` of which `write(2)` does not
take the whole; on a DISCONNECTED connection it is not asked to. -/
def Incomplete (c : Conn) (a : Act) : Prop :=
  ∃ data w, c.passes a = some (data, w) ∧ c.taken w < data.length

/-- At every `shutdown_write()` nothing is pending, and everything `send`
accepted is on the wire; and every message that was read was there. -/
def Graceful (c : Conn) : Prop :=
  (∀ k ∈ c.shutdownWrites, k.pending = [] ∧ k.wire = k.sent ∧ k.unsent = []) ∧ c.undefined = false

/-- The part of a connection the output is about. -/
structure Output where
  sent : Bytes
  dropped : Bytes
  wire : Bytes
  obuf : Buffer
  shutdownWrites : List ShutdownCall
  undefined : Bool

def output (c : Conn) : Output := ⟨c.sent, c.dropped, c.wire, c.obuf, c.shutdownWrites, c.undefined⟩

theorem handleClose_output (c : Conn) : c.handleClose.output = c.output := rfl

theorem handleRead_output (c : Conn) (r : ReadvResult) : (c.handleRead r).output = c.output := by
  simp only [handleRead]
  split
  · rfl
  · split
    · rw [handleClose_output]; rfl
    · rfl

theorem handleEvent_output {c : Conn} (h : c.MaskInv) (ev : EventMask) (r : ReadvResult) (w : WriteResult) :
    (c.handleEvent ev r w).output = c.output := by
  have hI : (c.handleEvent ev r w).MaskInv ∧ (c.handleEvent ev r w).output = c.output := by
    refine List.foldlRecOn (motive := fun c' : Conn => c'.MaskInv ∧ c'.output = c.output) _ _ ⟨h, rfl⟩ ?_
    rintro c' ⟨hm, ho⟩ cb -
    refine ⟨runCallback_mask hm r w cb, ?_⟩
    rw [← ho]
    cases cb with
    | close | error => rfl
    | read => exact handleRead_output c' r
    | write => simp only [runCallback, handleWrite_mask hm]
  exact hI.2

theorem shutdownInloop_output {c : Conn} (h : c.MaskInv) : c.shutdownInloop.output = c.shutdownWrite.output := by
  simp [shutdownInloop, h.isWriting]

/-- What a step does to the output. -/
inductive OutputStep (c c' : Conn) (a : Act) : Prop
  | sends {data : Bytes} {w : WriteResult} (hroom : c.obuf.Room data.length) (hpasses : c.passes a = some (data, w))
      (hshuts : c.runsShutdown a = false) (hends : c.readsEnded a = false)
      (houtput : c'.output = (c.sendInloop data w).output)
  | shuts (hpasses : c.passes a = none) (hshuts : c.runsShutdown a = true) (hends : c.readsEnded a = false)
      (houtput : c'.output = c.shutdownWrite.output)
  | ended (hpasses : c.passes a = none) (hshuts : c.runsShutdown a = false) (hends : c.readsEnded a = true)
      (houtput : c'.output = { c.output with undefined := true })
  | none (hpasses : c.passes a = none) (hshuts : c.runsShutdown a = false) (hends : c.readsEnded a = false)
      (houtput : c'.output = c.output)

theorem step_output {c c' : Conn} {a : Act} (h : c.MaskInv) (hs : c.step a = some c') : c.OutputStep c' a := by
  cases a with
  | connectEstablished =>
    simp only [step] at hs
    split at hs
    · simp only [Option.some.injEq] at hs; subst hs
      exact .none rfl rfl rfl rfl
    · cases hs
  | send inLoop data w =>
    obtain ⟨hroom, rfl⟩ := step_send hs
    by_cases hc : c.state = .connected
    · cases inLoop with
      | true => exact .sends (w := w) hroom (by simp [passes, hc]) rfl rfl (by simp [send, hc])
      | false => exact .none rfl rfl rfl (by simp [send, hc]; rfl)
    · refine .none ?_ ?_ rfl (by simp [send, hc])
      · cases inLoop <;> simp [passes, hc]
      · cases inLoop <;> rfl
  | stringEnds k =>
    simp only [step, Option.some.injEq] at hs; subst hs
    exact .none rfl rfl rfl rfl
  | shutdown inLoop =>
    simp only [step, Option.some.injEq] at hs; subst hs
    by_cases hc : c.state = .connected
    · cases inLoop with
      | true =>
        refine .shuts rfl (by simp [runsShutdown, hc]) rfl ?_
        have hm : MaskInv (c.setState .disconnecting) := MaskInv.of_opened (.inr rfl) (h.opened (.inl hc))
        simp only [shutdown, hc, if_true, shutdownInloop_output hm]
        rfl
      | false => exact .none rfl rfl rfl (by simp [shutdown, hc]; rfl)
    · refine .none ?_ ?_ rfl (by simp [shutdown, hc])
      · cases inLoop <;> rfl
      · cases inLoop <;> simp [runsShutdown, hc]
  | forceClose =>
    simp only [step, Option.some.injEq] at hs; subst hs
    refine .none rfl rfl rfl ?_
    unfold forceClose
    split <;> rfl
  | functor w =>
    obtain ⟨f, fs, hq, hroom, rfl⟩ := step_functor hs
    cases f with
    | writeComplete | highWatermark =>
      exact .none (by simp [passes, hq]) (by simp [runsShutdown, hq]) (by simp [readsEnded, hq]) rfl
    | sendInloop data valid =>
      have hshuts : c.runsShutdown (.functor w) = false := by simp [runsShutdown, hq]
      cases valid with
      | false => exact .ended (by simp [passes, hq]) hshuts (by simp [readsEnded, hq]) rfl
      | true =>
        refine .sends (w := w) (show c.obuf.Room data.length from hroom) (by simp [passes, hq]) hshuts
          (by simp [readsEnded, hq]) ?_
        by_cases hd : c.state = .disconnected
        · simp only [runFunctor, sendBound, sendInloop, hd, if_true]
          rfl
        · obtain ⟨_, _, he, -⟩ := sendInloop_eq (c := { c with queued := fs }) hd data w
          obtain ⟨_, _, he', -⟩ := sendInloop_eq hd data w
          simp only [runFunctor, sendBound, he, he', if_true]
          rfl
    | shutdownInloop =>
      refine .shuts (by simp [passes, hq]) (by simp [runsShutdown, hq]) (by simp [readsEnded, hq]) ?_
      have hw : ({ c with queued := fs } : Conn).chan.isWriting = false := h.isWriting
      have hwait : waiting { c with queued := fs } = c.waiting := by simp [waiting, hq, ConnFunctor.message]
      simp only [runFunctor, shutdownInloop, hw, Bool.not_false, if_true, shutdownWrite, hwait]
      rfl
    | forceCloseInloop =>
      refine .none (by simp [passes, hq]) (by simp [runsShutdown, hq]) (by simp [readsEnded, hq]) ?_
      simp only [runFunctor, forceCloseInloop]
      split <;> rfl
  | event ev r w =>
    simp only [step, Option.some.injEq] at hs; subst hs
    exact .none rfl rfl rfl (handleEvent_output h ev r w)
  | connectDestroyed =>
    simp only [step, Option.some.injEq] at hs; subst hs
    refine .none rfl rfl rfl ?_
    unfold connectDestroyed
    split <;> rfl

/-- What the output looks like, given whether some message was not taken
whole: nothing is left over, or something is missing on the wire for good. -/
structure OutputInv (c : Conn) (incomplete : Prop) : Prop where
  mask : c.MaskInv
  obuf : c.obuf.Inv
  whole : ¬ incomplete → c.obuf.readable = [] ∧ c.wire = c.sent ∧ c.dropped = []
  missing : incomplete → c.wire.length < c.sent.length ∨ c.dropped ≠ []

theorem OutputInv.clean_iff {c : Conn} {p : Prop} (h : c.OutputInv p) :
    (c.obuf.readable = [] ∧ c.wire = c.sent ∧ c.dropped = []) ↔ ¬ p := by
  refine ⟨fun hc hp => ?_, h.whole⟩
  rcases h.missing hp with hlt | hne
  · rw [hc.2.1] at hlt
    omega
  · exact hne hc.2.2

/-- Only the output and the mask matter. -/
theorem OutputInv.of_output {c c' : Conn} {p : Prop} (h : c.OutputInv p) (hm : c'.MaskInv)
    (ho : c'.obuf = c.obuf) (hw : c'.wire = c.wire) (hs : c'.sent = c.sent) (hd : c'.dropped = c.dropped) :
    c'.OutputInv p :=
  ⟨hm, ho ▸ h.obuf, by rw [ho, hw, hs, hd]; exact h.whole, by rw [hw, hs, hd]; exact h.missing⟩

/-- A message `send_inloop` does not drop. -/
theorem sendInloop_kept {c c' : Conn} {p : Prop} {data : Bytes} {w : WriteResult} (h : c.OutputInv p)
    (hroom : c.obuf.Room data.length) (hd : c.state ≠ .disconnected) (hm : c'.MaskInv)
    (ho : c'.output = (c.sendInloop data w).output) :
    c'.OutputInv (p ∨ w.accepted < data.length) ∧ c'.shutdownWrites = c.shutdownWrites ∧
      c'.undefined = c.undefined := by
  obtain ⟨q, ch, he, -⟩ := sendInloop_eq hd data w
  rw [he] at ho
  simp only [output, Output.mk.injEq] at ho
  obtain ⟨hsent, hdrop, hwire, hobuf, hsw⟩ := ho
  have hroom' : c.obuf.Room (c.rest data w).length := by
    have hle : (c.rest data w).length ≤ data.length := by
      unfold rest
      split <;> simp
    rw [Buffer.Room] at hroom ⊢
    omega
  have hai := Buffer.append_spec h.obuf hroom'
  refine ⟨⟨hm, ?_, fun hn => ?_, fun hp => ?_⟩, hsw⟩
  · rw [hobuf]
    split
    · exact h.obuf
    · exact hai.1
  · -- Nothing was left over before, so the write is direct and takes it all.
    simp only [not_or, Nat.not_lt] at hn
    obtain ⟨hr, hws, hdr⟩ := h.whole hn.1
    have hdir : c.direct = true := by
      have h0 := Buffer.readable_length h.obuf
      rw [hr] at h0
      simp [direct, h.mask.isWriting, ← h0]
    have hwr : c.writes w = w.accepted := by simp [writes, hdir]
    have hrest : c.rest data w = [] := by
      unfold rest
      split
      · rfl
      · exact List.drop_of_length_le (by omega)
    rw [hobuf, if_pos hrest, hwire, hsent, hdrop, hwr, List.take_of_length_le hn.2, hws]
    exact ⟨hr, rfl, hdr⟩
  · have hle : (data.take (c.writes w)).length ≤ data.length := (List.take_sublist _ _).length_le
    rw [hwire, hsent, hdrop, List.length_append, List.length_append]
    by_cases hpp : p
    · refine (h.missing hpp).imp_left fun hlt => ?_
      omega
    · obtain ⟨hr, hws, -⟩ := h.whole hpp
      have hlt : c.writes w < data.length := by
        have := hp.resolve_left hpp
        unfold writes
        split
        · exact this
        · omega
      simp only [hws, List.length_take]
      omega

/-- A message passed to `send_inloop`. -/
theorem sendInloop_output {c c' : Conn} {p : Prop} {data : Bytes} {w : WriteResult} (h : c.OutputInv p)
    (hroom : c.obuf.Room data.length) (hm : c'.MaskInv) (ho : c'.output = (c.sendInloop data w).output) :
    c'.OutputInv (p ∨ c.taken w < data.length) ∧ c'.shutdownWrites = c.shutdownWrites ∧
      c'.undefined = c.undefined := by
  by_cases hd : c.state = .disconnected
  · simp only [sendInloop, hd, if_true, output, Output.mk.injEq] at ho
    obtain ⟨hsent, hdrop, hwire, hobuf, hsw⟩ := ho
    simp only [taken, if_pos hd]
    refine ⟨⟨hm, hobuf ▸ h.obuf, fun hn => ?_, fun hp => ?_⟩, hsw⟩
    · simp only [not_or, Nat.not_lt, Nat.le_zero, List.length_eq_zero_iff] at hn
      obtain ⟨hr, hws, hdr⟩ := h.whole hn.1
      rw [hobuf, hwire, hsent, hdrop, hdr, hn.2]
      exact ⟨hr, hws, rfl⟩
    · rw [hwire, hsent, hdrop]
      rcases hp with hp | hlt
      · exact (h.missing hp).imp_right fun hne he => hne (List.append_eq_nil_iff.1 he).1
      · exact .inr fun he => List.length_pos_iff.1 hlt (List.append_eq_nil_iff.1 he).2
  · simp only [taken, if_neg hd]
    exact sendInloop_kept h hroom hd hm ho

/-- What may not happen on the way to a graceful close: `shutdown_inloop` runs after a message
that its `write(2)` did not take whole, or while one waits in the loop's queue; or the
`send_inloop` of another thread runs after the end of its string. -/
def Cuts (c₀ : Conn) (pre : List Act) (c : Conn) (a : Act) : Prop :=
  (c.runsShutdown a = true ∧ (Run.Occurs step c₀ pre (fun _ => Incomplete) ∨ c.waiting ≠ [])) ∨
    c.readsEnded a = true

/-- **Graceful close.** In every run of a connection the write side is shut
down with nothing pending and everything `send` accepted on the wire, exactly
when `shutdown_inloop` runs neither after a message that its `write(2)` did
not take whole nor while one waits in the loop's queue, and no message of another
thread is read after the end of its string. -/
theorem graceful_iff {wc hw : Bool} {hm : Nat} {acts : List Act} {c : Conn}
    (h : Run.run step (new wc hw hm) acts = some c) :
    c.Graceful ↔ ¬ Run.Occurs step (new wc hw hm) acts (Cuts (new wc hw hm)) := by
  let c₀ := new wc hw hm
  let P : List Act → Conn → Prop := fun acts c =>
    c.OutputInv (Run.Occurs step c₀ acts fun _ => Incomplete) ∧ (c.Graceful ↔ ¬ Run.Occurs step c₀ acts (Cuts c₀))
  have h0 : P [] c₀ := by
    refine ⟨⟨new_maskInv wc hw hm, Buffer.initial_inv, fun _ => ⟨Buffer.new_readable _, rfl, rfl⟩,
      fun hp => ?_⟩, ?_⟩
    · exact absurd hp Run.not_occurs_nil
    · exact ⟨fun _ => Run.not_occurs_nil, fun _ => ⟨fun k hk => (List.not_mem_nil hk).elim, rfl⟩⟩
  refine (Run.run_history P h0 ?_ h).2
  intro acts c a c' hrun hP hs
  obtain ⟨hi, hg⟩ := hP
  have hm' := step_mask hi.mask hs
  have hnone : c.passes a = none → ¬ c.Incomplete a := by
    rintro hp ⟨data, w, he, -⟩
    rw [hp] at he
    cases he
  simp only [P, Run.occurs_concat hrun]
  cases step_output hi.mask hs with
  | @sends data w hroom hp hsd hends ho =>
    obtain ⟨hi', hsw, hundef⟩ := sendInloop_output (p := Run.Occurs step c₀ acts fun _ => Incomplete) hi hroom hm' ho
    have hinc : c.Incomplete a ↔ c.taken w < data.length := by
      simp only [Incomplete, hp, Option.some.injEq, Prod.mk.injEq]
      exact ⟨fun ⟨_, _, ⟨rfl, rfl⟩, hlt⟩ => hlt, fun hlt => ⟨_, _, ⟨rfl, rfl⟩, hlt⟩⟩
    refine ⟨by simpa only [hinc] using hi', ?_⟩
    simp only [Graceful, hsw, hundef, Cuts, hsd, hends, Bool.false_eq_true, false_and, or_false]
    exact hg
  | shuts hp hsd hends ho =>
    -- The call is recorded with the output as it stands.
    simp only [output, shutdownWrite, Output.mk.injEq] at ho
    obtain ⟨hsent, hdrop, hwire, hobuf, hsw, hundef⟩ := ho
    refine ⟨by simpa only [hnone hp, or_false] using hi.of_output hm' hobuf hwire hsent hdrop, ?_⟩
    have hgr : c'.Graceful ↔
        c.Graceful ∧ (c.obuf.readable = [] ∧ c.wire = c.sent ∧ c.dropped = []) ∧ c.waiting = [] := by
      simp only [Graceful, hsw, hundef, List.mem_append, List.mem_singleton]
      constructor
      · intro hx
        obtain ⟨hk, hu⟩ := hx
        obtain ⟨h1, h2, h3⟩ := hk _ (.inr rfl)
        obtain ⟨h3, h4⟩ := List.append_eq_nil_iff.1 h3
        exact ⟨⟨fun k hk' => hk k (.inl hk'), hu⟩, ⟨h1, h2, h3⟩, h4⟩
      · intro hx
        obtain ⟨⟨hk, hu⟩, ⟨h1, h2, h3⟩, h4⟩ := hx
        refine ⟨fun k hy => ?_, hu⟩
        rcases hy with hk' | rfl
        · exact hk k hk'
        · exact ⟨h1, h2, List.append_eq_nil_iff.2 ⟨h3, h4⟩⟩
    rw [hgr, hi.clean_iff, hg]
    simp only [Cuts, hsd, hends, true_and, not_or, ne_eq, not_not, Bool.false_eq_true, or_false]
  | ended hp hsd hends ho =>
    simp only [output, Output.mk.injEq] at ho
    obtain ⟨hsent, hdrop, hwire, hobuf, -, hundef⟩ := ho
    refine ⟨by simpa only [hnone hp, or_false] using hi.of_output hm' hobuf hwire hsent hdrop, ?_⟩
    refine iff_of_false (fun hx => ?_) fun hx => hx (.inr (.inr hends))
    have hfalse := hx.2
    rw [hundef] at hfalse
    cases hfalse
  | none hp hsd hends ho =>
    simp only [output, Output.mk.injEq] at ho
    obtain ⟨hsent, hdrop, hwire, hobuf, hsw, hundef⟩ := ho
    refine ⟨by simpa only [hnone hp, or_false] using hi.of_output hm' hobuf hwire hsent hdrop, ?_⟩
    simp only [Graceful, hsw, hundef, Cuts, hsd, hends, Bool.false_eq_true, false_and, or_false]
    exact hg

/-- A response taken whole, then `shutdown`, as `arpc_server` does. -/
def wholeSent : List Act := [.connectEstablished, .send true [1, 2] (.ok 2), .shutdown true]

theorem graceful_wholeSent :
    ∃ c, Run.run step (new false false 64) wholeSent = some c ∧ c.shutdownWrites.length = 1 ∧
      ¬ Run.Occurs step (new false false 64) wholeSent (Cuts (new false false 64)) := by
  have hsome : ((Run.run step (new false false 64) wholeSent).map fun c => (c.shutdownWrites, c.undefined)) =
      some ([⟨[], [1, 2], [1, 2], []⟩], false) := by decide +kernel
  obtain ⟨c, hc, hx⟩ := Option.map_eq_some_iff.1 hsome
  obtain ⟨hl, hu⟩ := Prod.mk.inj hx
  exact ⟨c, hc, by simp [hl], (graceful_iff hc).1 ⟨by simp [hl], hu⟩⟩

/-- The write side is shut down over the byte left over. -/
theorem halfSent_cut :
    ∃ c, Run.run step (new false false 64) (halfSent ++ [.shutdown true]) = some c ∧
      c.shutdownWrites = [⟨[2], [1], [1, 2], []⟩] ∧ ¬ c.Graceful := by
  have hsome : ((Run.run step (new false false 64) (halfSent ++ [.shutdown true])).map (·.shutdownWrites)) =
      some [⟨[2], [1], [1, 2], []⟩] := by decide +kernel
  obtain ⟨c, hc, hl⟩ := Option.map_eq_some_iff.1 hsome
  refine ⟨c, hc, hl, fun hg => ?_⟩
  have := (hg.1 ⟨[2], [1], [1, 2], []⟩ (by rw [hl]; simp)).1
  simp at this

end Conn

end Learncc
