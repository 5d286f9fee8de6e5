/-
`tcp_connection` (src/mmuduo/tcp_connection.cc): the states of a connection,
its channel and its two buffers, each member function as a function of the
connection and the kernel's answers, and the machine they make.

Beside the members a connection records what passed through it: the bytes
given to `send_inloop` (`sent`; those it gives up because the connection is
DISCONNECTED are `dropped`), those `write(2)` accepted (`wire`), the functors
it queued in its loop, the user callbacks it ran, and, for each
`socket_->shutdown_write()`, how the output stood at the call.

`send` from another thread queues a pointer into the caller's string, not the
string. It ends when the caller likes, and `undefined` says that a functor has
read one after its end.
-/
import Learncc.Lib.Run
import Learncc.Mmuduo.Buffer
import Learncc.Mmuduo.Channel

namespace Learncc

/-- `stateE`. -/
inductive StateE
  | disconnected
  | connecting
  | connected
  | disconnecting
deriving Repr, DecidableEq

/-- The functors a connection hands to its loop. `sendInloop` is bound to `buf.c_str()` and
`buf.size()`; `data` is what was there at the call, and is there as long as it is `valid`. -/
inductive ConnFunctor
  | writeComplete
  | highWatermark (pending : Nat)
  | sendInloop (data : Bytes) (valid : Bool)
  | shutdownInloop
  | forceCloseInloop
deriving Repr, DecidableEq

/-- The user callbacks a connection runs: `conn_cb_` on the way up and on the
way down, `msg_cb_`, `close_cb_`, `write_comp_cb_` and `high_watermark_cb_`. -/
inductive CbCall
  | connUp
  | connDown
  | message
  | close
  | writeComplete
  | highWatermark (pending : Nat)
deriving Repr, DecidableEq

/-- The message a queued functor is to pass to `send_inloop`. -/
def ConnFunctor.message : ConnFunctor → Bytes
  | .sendInloop data _ => data
  | _ => []

/-- The string it points into ends, or is written to. -/
def ConnFunctor.stringEnds : ConnFunctor → ConnFunctor
  | .sendInloop data _ => .sendInloop data false
  | f => f

/-- How the output stands when the write side is shut down: the bytes still
in `obuf_`, those on the wire, those given to `send_inloop`, and those that
`send` accepted but `send_inloop` has dropped or not seen yet. -/
structure ShutdownCall where
  pending : Bytes
  wire : Bytes
  sent : Bytes
  unsent : Bytes
deriving Repr, DecidableEq

structure Conn where
  state : StateE
  chan : Channel
  ibuf : Buffer
  obuf : Buffer
  writeCompCb : Bool
  highWatermarkCb : Bool
  highWatermark : Nat
  sent : Bytes
  dropped : Bytes
  wire : Bytes
  queued : List ConnFunctor
  cbs : List CbCall
  shutdownWrites : List ShutdownCall
  undefined : Bool
deriving Repr, DecidableEq

namespace Conn

/-- The constructor, with the callbacks the owner sets before the connection
is established. -/
def new (writeCompCb highWatermarkCb : Bool) (highWatermark : Nat) : Conn :=
  { state := .connecting
    chan := Channel.init
    ibuf := Buffer.new Buffer.initialSize
    obuf := Buffer.new Buffer.initialSize
    writeCompCb, highWatermarkCb, highWatermark
    sent := [], dropped := [], wire := [], queued := [], cbs := [], shutdownWrites := []
    undefined := false }

def setState (c : Conn) (state : StateE) : Conn := { c with state }

/-- `loop_->queue_in_loop`. -/
def queueInLoop (c : Conn) (f : ConnFunctor) : Conn := { c with queued := c.queued ++ [f] }

def callback (c : Conn) (cb : CbCall) : Conn := { c with cbs := c.cbs ++ [cb] }

/-! ## Output -/

/-- `send_inloop` writes at once when the channel is idle and nothing waits
in the output buffer. -/
def direct (c : Conn) : Bool := !c.chan.isWriting && c.obuf.readableBytes == 0

/-- The errors on which `send_inloop` gives the data up (`faulterror`). -/
def faultError (e : Errno) : Bool := e != EWOULDBLOCK && (e == EPIPE || e == ECONNRESET)

/-- The first half of `send_inloop`: the connection after the attempt to
write, how much was written, and whether the connection is at fault. -/
def tryWrite (c : Conn) (data : Bytes) (w : WriteResult) : Conn × Nat × Bool :=
  if c.direct then
    match w with
    | .ok n =>
      let c := { c with wire := c.wire ++ data.take n }
      (if data.length - n = 0 && c.writeCompCb then c.queueInLoop .writeComplete else c, n, false)
    | .err e => (c, 0, faultError e)
  else (c, 0, false)

/-- The second half: what is left goes behind the output buffer, and the
channel is watched for writing. -/
def keepRest (c : Conn) (rest : Bytes) : Conn :=
  let old := c.obuf.readableBytes
  let c :=
    if old + rest.length ≥ c.highWatermark && old < c.highWatermark && c.highWatermarkCb then
      c.queueInLoop (.highWatermark (old + rest.length))
    else c
  let c := { c with obuf := c.obuf.append rest }
  if !c.chan.isWriting then { c with chan := c.chan.enableWriting } else c

def sendInloop (c : Conn) (data : Bytes) (w : WriteResult) : Conn :=
  if c.state = .disconnected then { c with dropped := c.dropped ++ data }
  else
    let (c, nwrote, fault) := { c with sent := c.sent ++ data }.tryWrite data w
    if !fault && data.length - nwrote > 0 then c.keepRest (data.drop nwrote) else c

def send (c : Conn) (inLoop : Bool) (data : Bytes) (w : WriteResult) : Conn :=
  if c.state = .connected then
    if inLoop then c.sendInloop data w else c.queueInLoop (.sendInloop data true)
  else c

/-- `send_inloop` from the loop's queue. -/
def sendBound (c : Conn) (data : Bytes) (valid : Bool) (w : WriteResult) : Conn :=
  if valid then c.sendInloop data w else { c with undefined := true }

/-- The caller's string of the `k`-th queued functor ends. -/
def stringEnds (c : Conn) (k : Nat) : Conn := { c with queued := c.queued.modify k ConnFunctor.stringEnds }

/-- The bytes of the messages that wait in the loop's queue. -/
def waiting (c : Conn) : Bytes := c.queued.flatMap ConnFunctor.message

/-- `socket_->shutdown_write()`. -/
def shutdownWrite (c : Conn) : Conn :=
  { c with shutdownWrites := c.shutdownWrites ++ [⟨c.obuf.readable, c.wire, c.sent, c.dropped ++ c.waiting⟩] }

def shutdownInloop (c : Conn) : Conn := if !c.chan.isWriting then c.shutdownWrite else c

def shutdown (c : Conn) (inLoop : Bool) : Conn :=
  if c.state = .connected then
    let c := c.setState .disconnecting
    if inLoop then c.shutdownInloop else c.queueInLoop .shutdownInloop
  else c

/-- What `handle_write` does once the output buffer has run empty. -/
def writeDone (c : Conn) : Conn :=
  let c := { c with chan := c.chan.disableWriting }
  let c := if c.writeCompCb then c.queueInLoop .writeComplete else c
  if c.state = .disconnecting then c.shutdownInloop else c

def handleWrite (c : Conn) (w : WriteResult) : Conn :=
  if c.chan.isWriting then
    match w with
    | .ok n =>
      let c := { c with wire := c.wire ++ c.obuf.readable.take n }
      if n > 0 then
        let c := { c with obuf := c.obuf.retrieve n }
        if c.obuf.readableBytes = 0 then c.writeDone else c
      else c
    | .err _ => c
  else c

/-! ## Opening and closing -/

def handleClose (c : Conn) : Conn :=
  let c := c.setState .disconnected
  let c := { c with chan := c.chan.disableAll }
  (c.callback .connDown).callback .close

def forceClose (c : Conn) : Conn :=
  if c.state = .connected ∨ c.state = .disconnecting then
    (c.setState .disconnecting).queueInLoop .forceCloseInloop
  else c

def forceCloseInloop (c : Conn) : Conn :=
  if c.state = .connected ∨ c.state = .disconnecting then c.handleClose else c

def connectEstablished (c : Conn) : Conn :=
  let c := c.setState .connected
  let c := { c with chan := c.chan.enableReading }
  c.callback .connUp

def connectDestroyed (c : Conn) : Conn :=
  let c :=
    if c.state = .connected then
      let c := c.setState .disconnected
      let c := { c with chan := c.chan.disableAll }
      c.callback .connDown
    else c
  { c with chan := c.chan.remove }

/-- `handle_error` reads the socket's error and logs it. -/
def handleError (c : Conn) : Conn := c

def handleRead (c : Conn) (r : ReadvResult) : Conn :=
  let (n, ibuf) := c.ibuf.readFd r
  let c := { c with ibuf }
  if n > 0 then c.callback .message else if n = 0 then c.handleClose else c.handleError

/-- One callback of a poll result, with the kernel's answers to the `readv`
or `write` it makes. -/
def runCallback (r : ReadvResult) (w : WriteResult) (c : Conn) : Channel.Callback → Conn
  | .close => c.handleClose
  | .error => c.handleError
  | .read => c.handleRead r
  | .write => c.handleWrite w

/-- `channel::handle_event_with_guard`: the constructor sets all four
callbacks. -/
def handleEvent (c : Conn) (revents : EventMask) (r : ReadvResult) (w : WriteResult) : Conn :=
  (Channel.handleEventWithGuard (fun _ => true) revents).foldl (runCallback r w) c

/-- The loop runs a functor of this connection. The user's own callbacks do
not touch the connection. -/
def runFunctor (c : Conn) (w : WriteResult) : ConnFunctor → Conn
  | .writeComplete => c.callback .writeComplete
  | .highWatermark pending => c.callback (.highWatermark pending)
  | .sendInloop data valid => c.sendBound data valid w
  | .shutdownInloop => c.shutdownInloop
  | .forceCloseInloop => c.forceCloseInloop

/-! ## The machine -/

/-- What can happen to a connection. `inLoop` tells whether the caller is
the loop's own thread. -/
inductive Act
  | connectEstablished
  | send (inLoop : Bool) (data : Bytes) (w : WriteResult)
  | stringEnds (k : Nat)
  | shutdown (inLoop : Bool)
  | forceClose
  | functor (w : WriteResult)
  | event (revents : EventMask) (r : ReadvResult) (w : WriteResult)
  | connectDestroyed
deriving Repr, DecidableEq

/-- One step, each call running to its end. A connection is established once,
by its owner, and the loop runs queued functors in order. A message is in memory
beside `obuf_`, so a vector can hold both. -/
def step (c : Conn) : Act → Option Conn
  | .connectEstablished => if c.state = .connecting then some c.connectEstablished else none
  | .send inLoop data w => if c.obuf.Room data.length then some (c.send inLoop data w) else none
  | .stringEnds k => some (c.stringEnds k)
  | .shutdown inLoop => some (c.shutdown inLoop)
  | .forceClose => some c.forceClose
  | .functor w =>
    match c.queued with
    | [] => none
    | f :: fs => if c.obuf.Room f.message.length then some ({ c with queued := fs }.runFunctor w f) else none
  | .event revents r w => some (c.handleEvent revents r w)
  | .connectDestroyed => some c.connectDestroyed

end Conn

end Learncc
