/-
`epoll_poller` (src/mmuduo/epoll_poller.cc): one fact, which channels are
registered and for what, kept four times over: each channel's index and
event mask, the poller's `channels_` map, and the kernel's epoll set.

`run_registered`: the four copies agree after every sequence of channel
operations, and no `epoll_ctl` is issued against its precondition (a failed
ADD or MOD ends the process).
-/
import Learncc.Lib.Run
import Learncc.Mmuduo.Channel
import Mathlib.Logic.Function.Basic

namespace Learncc

/-- A set of channel objects with distinct file descriptors. -/
structure ChannelSet (ι : Type*) where
  fd : ι → Int
  distinct : Function.Injective fd

inductive CtlOp
  | add
  | mod
  | del
deriving Repr, DecidableEq

/-- The channels, the poller's map from descriptors to channels, the kernel's
epoll set, and the `epoll_ctl` calls that failed. -/
structure EpollPoller (ι : Type*) where
  chan : ι → Channel
  channels : Int → Option ι
  epollSet : Int → Option EventMask
  failed : List (CtlOp × Int)

/-- The six operations of a channel that reach the poller. -/
inductive ChannelOp
  | enableReading
  | disableReading
  | enableWriting
  | disableWriting
  | disableAll
  | remove
deriving Repr, DecidableEq

/-- The operation on the channel alone. -/
def ChannelOp.onChannel : ChannelOp → Channel → Channel
  | .enableReading => Channel.enableReading
  | .disableReading => Channel.disableReading
  | .enableWriting => Channel.enableWriting
  | .disableWriting => Channel.disableWriting
  | .disableAll => Channel.disableAll
  | .remove => Channel.remove

namespace EpollPoller

variable {ι : Type*} [DecidableEq ι] (cs : ChannelSet ι)

/-- No channel has been added yet. -/
def init : EpollPoller ι :=
  { chan := fun _ => Channel.init, channels := fun _ => none, epollSet := fun _ => none, failed := [] }

/-- `epoll_ctl`: fails on an ADD of a registered descriptor (EEXIST) and on a
MOD or DEL of one that is not (ENOENT), and succeeds otherwise. -/
def epollCtl (p : EpollPoller ι) (op : CtlOp) (fd : Int) (events : EventMask) : EpollPoller ι :=
  match op, p.epollSet fd with
  | .add, none => { p with epollSet := Function.update p.epollSet fd (some events) }
  | .mod, some _ => { p with epollSet := Function.update p.epollSet fd (some events) }
  | .del, some _ => { p with epollSet := Function.update p.epollSet fd none }
  | op, _ => { p with failed := p.failed ++ [(op, fd)] }

/-- `update`: the channel's current mask, under its descriptor. -/
def update (p : EpollPoller ι) (op : CtlOp) (ch : ι) : EpollPoller ι :=
  p.epollCtl op (cs.fd ch) (p.chan ch).events

def setIndex (p : EpollPoller ι) (ch : ι) (idx : ChannelState) : EpollPoller ι :=
  { p with chan := Function.update p.chan ch { p.chan ch with idx } }

def updateChannel (p : EpollPoller ι) (ch : ι) : EpollPoller ι :=
  match (p.chan ch).idx with
  | .new =>
    update cs (setIndex { p with channels := Function.update p.channels (cs.fd ch) (some ch) } ch .added) .add ch
  | .deleted => update cs (p.setIndex ch .added) .add ch
  | .added =>
    if (p.chan ch).isNone then (update cs p .del ch).setIndex ch .deleted
    else update cs p .mod ch

def removeChannel (p : EpollPoller ι) (ch : ι) : EpollPoller ι :=
  let p := { p with channels := Function.update p.channels (cs.fd ch) none }
  let p := if (p.chan ch).idx = .added then update cs p .del ch else p
  p.setIndex ch .new

/-- Stores a channel's new mask and calls `update_channel`. -/
def setEvents (p : EpollPoller ι) (ch : ι) (events : EventMask) : EpollPoller ι :=
  updateChannel cs { p with chan := Function.update p.chan ch { p.chan ch with events } } ch

def step (p : EpollPoller ι) (i : ι × ChannelOp) : Option (EpollPoller ι) :=
  let e := (p.chan i.1).events
  match i.2 with
  | .enableReading => some (p.setEvents cs i.1 (e ||| Channel.kreadEvent))
  | .disableReading => some (p.setEvents cs i.1 (e &&& ~~~Channel.kreadEvent))
  | .enableWriting => some (p.setEvents cs i.1 (e ||| Channel.kwriteEvent))
  | .disableWriting => some (p.setEvents cs i.1 (e &&& ~~~Channel.kwriteEvent))
  | .disableAll => some (p.setEvents cs i.1 Channel.knoneEvent)
  | .remove => some (p.removeChannel cs i.1)

/-! ## One operation -/

variable {cs}

/-- What the kernel holds for a channel in step with it. -/
def entry (ch : Channel) : Option EventMask := if ch.idx = .added then some ch.events else none

/-- Which channel the map holds for a channel's descriptor. -/
def mapped (p : EpollPoller ι) (ch : ι) : Option ι := if (p.chan ch).idx = .new then none else some ch

/-- A channel whose new mask is stored but not yet sent to the kernel: the
kernel knows its descriptor exactly when the index is `ADDED`. -/
theorem updateChannel_eq {p : EpollPoller ι} {ch : ι}
    (h : (p.epollSet (cs.fd ch)).isSome ↔ (p.chan ch).idx = .added) :
    p.updateChannel cs ch =
      { chan := Function.update p.chan ch (p.chan ch).updated
        channels := if (p.chan ch).idx = .new then Function.update p.channels (cs.fd ch) (some ch) else p.channels
        epollSet := Function.update p.epollSet (cs.fd ch) (entry (p.chan ch).updated)
        failed := p.failed } := by
  cases hi : (p.chan ch).idx with
  | new =>
    have hn : p.epollSet (cs.fd ch) = none := by simpa [hi] using h
    simp [updateChannel, hi, update, setIndex, epollCtl, hn, entry, Channel.updated]
  | deleted =>
    have hn : p.epollSet (cs.fd ch) = none := by simpa [hi] using h
    simp [updateChannel, hi, update, setIndex, epollCtl, hn, entry, Channel.updated]
  | added =>
    obtain ⟨e, he⟩ := Option.isSome_iff_exists.1 (h.2 hi)
    by_cases hz : (p.chan ch).events = Channel.knoneEvent
    · simp [updateChannel, hi, update, setIndex, epollCtl, he, entry, Channel.updated, Channel.isNone, hz]
    · simp [updateChannel, hi, update, epollCtl, he, entry, Channel.updated, Channel.isNone, hz]

theorem removeChannel_eq {p : EpollPoller ι} {ch : ι}
    (h : (p.epollSet (cs.fd ch)).isSome ↔ (p.chan ch).idx = .added) :
    p.removeChannel cs ch =
      { chan := Function.update p.chan ch (p.chan ch).remove
        channels := Function.update p.channels (cs.fd ch) none
        epollSet := Function.update p.epollSet (cs.fd ch) none
        failed := p.failed } := by
  by_cases hi : (p.chan ch).idx = .added
  · obtain ⟨e, he⟩ := Option.isSome_iff_exists.1 (h.2 hi)
    simp [removeChannel, hi, update, setIndex, epollCtl, he, Channel.remove]
  · have hn : p.epollSet (cs.fd ch) = none := by simpa [hi] using h
    simp [removeChannel, hi, setIndex, Channel.remove, hn]

/-! ## The invariant -/

/-- The four copies agree, on every channel. -/
structure Inv (cs : ChannelSet ι) (p : EpollPoller ι) : Prop where
  kernel : ∀ ch, p.epollSet (cs.fd ch) = entry (p.chan ch)
  map : ∀ ch, p.channels (cs.fd ch) = p.mapped ch
  ctl : p.failed = []

omit [DecidableEq ι] in
theorem Inv.isSome {p : EpollPoller ι} (h : Inv cs p) (ch : ι) :
    (p.epollSet (cs.fd ch)).isSome ↔ (p.chan ch).idx = .added := by
  rw [h.kernel, entry]
  split <;> simp_all

omit [DecidableEq ι] in
theorem init_inv : Inv cs init := ⟨fun _ => rfl, fun _ => rfl, rfl⟩

/-- After a step on `ch` that leaves the map and the kernel in step with the
channel `c`, every channel is. -/
theorem Inv.of_update {p : EpollPoller ι} (h : Inv cs p) {ch : ι} {c : Channel} {m : Int → Option ι}
    (hm : m = Function.update p.channels (cs.fd ch) (if c.idx = .new then none else some ch)) :
    Inv cs { chan := Function.update p.chan ch c, channels := m,
             epollSet := Function.update p.epollSet (cs.fd ch) (entry c), failed := p.failed } := by
  subst hm
  refine ⟨fun d => ?_, fun d => ?_, h.ctl⟩
  · by_cases hd : d = ch
    · subst hd; simp
    · simp [hd, cs.distinct.ne hd, h.kernel]
  · by_cases hd : d = ch
    · subst hd; simp [mapped]
    · have := h.map d
      simp only [mapped] at this ⊢
      simp [hd, cs.distinct.ne hd, this]

theorem setEvents_inv {p : EpollPoller ι} (h : Inv cs p) (ch : ι) (e : EventMask) :
    Inv cs (p.setEvents cs ch e) ∧
      (p.setEvents cs ch e).chan = Function.update p.chan ch ((p.chan ch).setEvents e) := by
  have hi : ((p.epollSet (cs.fd ch)).isSome ↔
      ((Function.update p.chan ch { p.chan ch with events := e }) ch).idx = .added) := by
    simpa using h.isSome ch
  rw [setEvents, updateChannel_eq hi]
  simp only [Function.update_self, Function.update_idem]
  refine ⟨?_, rfl⟩
  refine h.of_update ?_
  have hup : ({ p.chan ch with events := e } : Channel).updated.idx ≠ .new := by
    unfold Channel.updated
    split
    · simp
    · simp
    · split <;> simp_all
  rw [if_neg hup]
  split
  · rfl
  · rename_i hnew
    rw [Function.eq_update_self_iff, h.map, mapped, if_neg hnew]

theorem step_inv {p p' : EpollPoller ι} {i : ι × ChannelOp} (h : Inv cs p) (hs : p.step cs i = some p') :
    Inv cs p' ∧ p'.chan = Function.update p.chan i.1 (i.2.onChannel (p.chan i.1)) := by
  obtain ⟨ch, op⟩ := i
  cases op with
  | remove =>
    simp only [step, Option.some.injEq] at hs
    subst hs
    rw [removeChannel_eq (h.isSome ch)]
    exact ⟨h.of_update (c := (p.chan ch).remove) rfl, rfl⟩
  | enableReading | disableReading | enableWriting | disableWriting | disableAll =>
    simp only [step, Option.some.injEq] at hs
    subst hs
    exact setEvents_inv h ch _

theorem step_total (p : EpollPoller ι) (i : ι × ChannelOp) : ∃ p', p.step cs i = some p' := by
  obtain ⟨ch, op⟩ := i
  cases op <;> exact ⟨_, rfl⟩

/-- **Registration.** After any operations on any channels with distinct
descriptors: a descriptor is in the epoll set exactly when its channel's
index is `ADDED`, and then under the channel's mask; the map holds the
channel exactly when the index is `ADDED` or `DELETED`; and no `epoll_ctl`
has been issued against its precondition. -/
theorem run_registered (cs : ChannelSet ι) (ops : List (ι × ChannelOp)) :
    ∃ p, Run.run (step cs) init ops = some p ∧ p.failed = [] ∧
      ∀ ch, ((p.epollSet (cs.fd ch)).isSome ↔ (p.chan ch).idx = .added) ∧
        (∀ e, p.epollSet (cs.fd ch) = some e → e = (p.chan ch).events) ∧
        (p.channels (cs.fd ch) = some ch ↔ (p.chan ch).idx = .added ∨ (p.chan ch).idx = .deleted) := by
  obtain ⟨p, hp⟩ := Run.run_total step_total ops (init : EpollPoller ι)
  have hi : Inv cs p := Run.run_invariant (Inv cs) (fun _ _ _ hq hs => (step_inv hq hs).1) init_inv hp
  refine ⟨p, hp, hi.ctl, fun ch => ⟨hi.isSome ch, fun e he => ?_, ?_⟩⟩
  · rw [hi.kernel, entry] at he
    split at he
    · exact (Option.some.inj he).symm
    · cases he
  · rw [hi.map, mapped]
    cases (p.chan ch).idx <;> simp

end EpollPoller

end Learncc
