/-
`channel` (inc/mmuduo/channel.h, src/mmuduo/channel.cc): the events a file
descriptor is watched for, the poller's index for it, and the dispatch of a
poll result to callbacks.

Each change of interest ends in `update()`, which the loop hands to the
poller. Here a channel sees of that call what the poller does to its index
(`Channel.updated`); `Learncc.Mmuduo.EpollPoller` models the poller's side
and proves the two agree.
-/
import Learncc.Posix

namespace Learncc

/-- `channel_state` of epoll_poller.cc: never added or removed again, in the
epoll set, or known to the poller but watched for nothing. -/
inductive ChannelState
  | new
  | added
  | deleted
deriving Repr, DecidableEq

structure Channel where
  events : EventMask
  idx : ChannelState
deriving Repr, DecidableEq

namespace Channel

def knoneEvent : EventMask := 0
def kreadEvent : EventMask := EPOLLIN ||| EPOLLPRI
def kwriteEvent : EventMask := EPOLLOUT

/-- The constructor: no events, index `NEW`. -/
def init : Channel := { events := knoneEvent, idx := .new }

/-- What `loop_->update_channel(this)` does to the channel's index. -/
def updated (ch : Channel) : Channel :=
  match ch.idx with
  | .new | .deleted => { ch with idx := .added }
  | .added => if ch.events = knoneEvent then { ch with idx := .deleted } else ch

/-- Sets the events and calls `update()`. -/
def setEvents (ch : Channel) (events : EventMask) : Channel := updated { ch with events }

def enableReading (ch : Channel) : Channel := ch.setEvents (ch.events ||| kreadEvent)
def disableReading (ch : Channel) : Channel := ch.setEvents (ch.events &&& ~~~kreadEvent)
def enableWriting (ch : Channel) : Channel := ch.setEvents (ch.events ||| kwriteEvent)
def disableWriting (ch : Channel) : Channel := ch.setEvents (ch.events &&& ~~~kwriteEvent)
def disableAll (ch : Channel) : Channel := ch.setEvents knoneEvent

/-- What `loop_->remove_channel(this)` does to the channel's index. -/
def remove (ch : Channel) : Channel := { ch with idx := .new }

/- The three tests compare the whole mask: `is_writing` is false for a
channel that is watched for reading too. -/
def isNone (ch : Channel) : Bool := ch.events == knoneEvent
def isReading (ch : Channel) : Bool := ch.events == kreadEvent
def isWriting (ch : Channel) : Bool := ch.events == kwriteEvent

@[simp] theorem updated_events (ch : Channel) : ch.updated.events = ch.events := by
  unfold updated
  split
  · rfl
  · rfl
  · split <;> rfl

@[simp] theorem setEvents_events (ch : Channel) (e : EventMask) : (ch.setEvents e).events = e := by
  simp [setEvents]

@[simp] theorem enableReading_events (ch : Channel) :
    ch.enableReading.events = ch.events ||| kreadEvent := setEvents_events _ _

@[simp] theorem enableWriting_events (ch : Channel) :
    ch.enableWriting.events = ch.events ||| kwriteEvent := setEvents_events _ _

@[simp] theorem disableAll_events (ch : Channel) : ch.disableAll.events = knoneEvent := setEvents_events _ _

@[simp] theorem remove_events (ch : Channel) : ch.remove.events = ch.events := rfl

/-! ## Dispatch -/

inductive Callback
  | close
  | error
  | read
  | write
deriving Repr, DecidableEq

/-- `handle_event_with_guard`: the callbacks a poll result runs, in order,
`has` telling which ones were set. -/
def handleEventWithGuard (has : Callback → Bool) (revents : EventMask) : List Callback :=
  (if revents.has EPOLLHUP && !revents.has EPOLLIN && has .close then [.close] else []) ++
  (if revents.has EPOLLERR && has .error then [.error] else []) ++
  (if revents.has (EPOLLIN ||| EPOLLPRI) && has .read then [.read] else []) ++
  (if revents.has EPOLLOUT && has .write then [.write] else [])

end Channel

end Learncc
