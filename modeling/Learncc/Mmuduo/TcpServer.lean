/-
`tcp_server` (src/mmuduo/tcp_server.cc) and the loops its connections run in
(src/mmuduo/eventloop_threadpool.cc).

The server's own loop is loop 0, the loops of the pool's threads are the others.
Each loop runs the functors it has been handed in the order in which it got them
(`Learncc.Mmuduo.EventLoop`) and, in between, the callbacks of its channels. A
functor, or what one poll result does to a channel, is one step of its loop; the
loops and the other threads take their steps in any order. A call of `send`, `shutdown` or `force_close` from
another thread tests `state_` in one step, stores it in the next and queues its
functor in a third, as in `Learncc.Mmuduo.ConnLifecycle`.
-/
import Learncc.Lib.Run
import Learncc.Mmuduo.TcpConnection
import Mathlib.Logic.Function.Basic

namespace Learncc

/-- `inet_address`: the four bytes of the address and the port. -/
structure InetAddress where
  ip : Fin 4 → UInt8
  port : UInt16

/-- `snprintf` into a buffer of this size: what does not fit is cut off. -/
def snprintf (size : ℕ) (s : String) : String := String.ofList (s.toList.take (size - 1))

namespace InetAddress

/-- `inet_ntop` of an IPv4 address. -/
def toIp (a : InetAddress) : String :=
  toString (a.ip 0).toNat ++ "." ++ toString (a.ip 1).toNat ++ "." ++ toString (a.ip 2).toNat ++ "." ++
    toString (a.ip 3).toNat

def toIpPort (a : InetAddress) : String := a.toIp ++ ":" ++ toString a.port.toNat

end InetAddress

/-- `event_loop_threadpool`. -/
structure EventLoopThreadpool where
  baseLoop : ℕ
  started : Bool
  numThreads : ℕ
  next : ℕ
  loops : List ℕ
deriving Repr, DecidableEq

namespace EventLoopThreadpool

def new (baseLoop : ℕ) : EventLoopThreadpool := { baseLoop, started := false, numThreads := 0, next := 0, loops := [] }

def setThreadnum (p : EventLoopThreadpool) (num : ℕ) : EventLoopThreadpool := { p with numThreads := num }

/-- Each new thread brings a loop. -/
def start (p : EventLoopThreadpool) : EventLoopThreadpool :=
  { p with started := true, loops := p.loops ++ (List.range p.numThreads).map (p.baseLoop + · + 1) }

def getNextloop (p : EventLoopThreadpool) : ℕ × EventLoopThreadpool :=
  if p.loops = [] then (p.baseLoop, p)
  else (p.loops.getD p.next p.baseLoop, { p with next := if p.next + 1 ≥ p.loops.length then 0 else p.next + 1 })

def getAllLoops (p : EventLoopThreadpool) : List ℕ := if p.loops = [] then [p.baseLoop] else p.loops

end EventLoopThreadpool

/-- The map of connections holds each as the place of the object in `System.conns`. -/
structure TcpServer where
  listenAddr : InetAddress
  name : String
  threadpool : EventLoopThreadpool
  writeCompleteCb : Bool
  nextConnid : ℕ
  connections : String → Option ℕ

/-- The name of a connection. -/
def TcpServer.connName (s : TcpServer) (connid : ℕ) : String :=
  s.name ++ snprintf 64 ("-" ++ s.listenAddr.toIpPort ++ "#" ++ toString connid)

/-- A connection of the server, with how often `remove_connection_inloop` and
`connect_destroyed` have run for it. -/
structure ServerConn where
  name : String
  loop : ℕ
  conn : Conn
  removed : ℕ
  destroyed : ℕ
deriving Repr, DecidableEq

/-- What a loop is handed, with the connection: `own` is the next functor of the
connection's own (`Conn.queued`). -/
inductive ServerFunctor
  | established (conn : ℕ)
  | own (conn : ℕ)
  | removeInLoop (conn : ℕ)
  | destroyed (conn : ℕ)
deriving Repr, DecidableEq

/-- Where another thread stands in a call of `send`, `shutdown` or `force_close`. -/
inductive ConnCaller
  | idle
  | toStore (conn : ℕ) (f : ConnFunctor)
  | toQueue (conn : ℕ) (f : ConnFunctor)
deriving Repr, DecidableEq

inductive ConnCall
  | send (data : Bytes)
  | shutdown
  | forceClose
deriving Repr, DecidableEq

namespace TcpServer

/-- The server, the connections it has made, what each loop has been handed, and
the other threads. -/
structure System where
  server : TcpServer
  conns : List ServerConn
  queue : ℕ → List ServerFunctor
  callers : ℕ → ConnCaller

namespace System

/-- A server that has been started with so many threads. -/
def init (listenAddr : InetAddress) (name : String) (numThreads : ℕ) (writeCompleteCb : Bool) : System :=
  { server :=
      { listenAddr, name, threadpool := ((EventLoopThreadpool.new 0).setThreadnum numThreads).start
        writeCompleteCb, nextConnid := 1, connections := fun _ => none }
    conns := [], queue := fun _ => [], callers := fun _ => .idle }

/-- `queue_in_loop`. -/
def push (s : System) (loop : ℕ) (fs : List ServerFunctor) : System :=
  { s with queue := Function.update s.queue loop (s.queue loop ++ fs) }

def setConn (s : System) (i : ℕ) (o : ServerConn) : System := { s with conns := s.conns.set i o }

def removeConnectionInloop (s : System) (i : ℕ) : System :=
  match s.conns[i]? with
  | none => s
  | some o =>
    let server := { s.server with connections := Function.update s.server.connections o.name none }
    ({ s with server }.setConn i { o with removed := o.removed + 1 }).push o.loop [.destroyed i]

/-- `remove_connection` from the thread of a loop: `loop_->run_in_loop`. -/
def removeConnection (s : System) (thread i : ℕ) : System :=
  if thread = 0 then s.removeConnectionInloop i else s.push 0 [.removeInLoop i]

/-- The close callback runs so many times. -/
def removeConnections (s : System) (thread i : ℕ) : ℕ → System
  | 0 => s
  | n + 1 => (s.removeConnection thread i).removeConnections thread i n

/-- The connection has run something in its loop: the functors it has queued are in
the loop's queue, and `close_cb_` is `remove_connection`. -/
def settle (s : System) (i : ℕ) (c : Conn) : System :=
  match s.conns[i]? with
  | none => s
  | some o =>
    let queued := List.replicate (c.queued.length - o.conn.queued.length) (ServerFunctor.own i)
    let closes := c.cbs.count .close - o.conn.cbs.count .close
    ((s.setConn i { o with conn := c }).push o.loop queued).removeConnections o.loop i closes

/-- A member function of the connection runs in its loop. -/
def call (s : System) (i : ℕ) (f : Conn → Conn) : System :=
  match s.conns[i]? with
  | none => s
  | some o => s.settle i (f o.conn)

def connectEstablished (s : System) (i : ℕ) : System := s.call i Conn.connectEstablished

def runFunctor (s : System) (w : WriteResult) : ServerFunctor → System
  | .established i => s.connectEstablished i
  | .own i =>
    match s.conns[i]? with
    | none => s
    | some o =>
      match o.conn.queued with
      | [] => s
      | f :: fs => (s.setConn i { o with conn := { o.conn with queued := fs } }).call i (·.runFunctor w f)
  | .removeInLoop i => s.removeConnectionInloop i
  | .destroyed i =>
    match s.conns[i]? with
    | none => s
    | some o => (s.setConn i { o with destroyed := o.destroyed + 1 }).call i Conn.connectDestroyed

/-- The server sets no high watermark callback; the mark is the constructor's. -/
def newConnection (s : System) : System :=
  let (ioloop, threadpool) := s.server.threadpool.getNextloop
  let name := s.server.connName s.server.nextConnid
  let i := s.conns.length
  let o : ServerConn :=
    { name, loop := ioloop, conn := Conn.new s.server.writeCompleteCb false (64 * 1024 * 1024)
      removed := 0, destroyed := 0 }
  let server :=
    { s.server with
      threadpool, nextConnid := s.server.nextConnid + 1
      connections := Function.update s.server.connections name (some i) }
  let s := { s with server, conns := s.conns ++ [o] }
  -- `ioloop->run_in_loop`, in the thread of loop 0.
  if ioloop = 0 then s.connectEstablished i else s.push ioloop [.established i]

/-- `accept` is the acceptor's callback in loop 0; `send`, `shutdown` and
`forceClose` are calls from the connection's own loop, the last steps those of another
thread, and the end of the string that it gave to a call of `send`. -/
inductive Act
  | accept
  | functor (loop : ℕ) (w : WriteResult)
  | event (conn : ℕ) (revents : EventMask) (r : ReadvResult) (w : WriteResult)
  | send (conn : ℕ) (data : Bytes) (w : WriteResult)
  | shutdown (conn : ℕ)
  | forceClose (conn : ℕ)
  | test (thread conn : ℕ) (call : ConnCall)
  | store (thread : ℕ)
  | queue (thread : ℕ)
  | stringEnds (conn k : ℕ)
deriving Repr, DecidableEq

def setCaller (s : System) (t : ℕ) (k : ConnCaller) : System := { s with callers := Function.update s.callers t k }

/-- The first step of a call: the test of `state_`. -/
def test (c : Conn) (i : ℕ) : ConnCall → ConnCaller
  | .send data => if c.state = .connected then .toQueue i (.sendInloop data true) else .idle
  | .shutdown => if c.state = .connected then .toStore i .shutdownInloop else .idle
  | .forceClose => if c.state = .connected ∨ c.state = .disconnecting then .toStore i .forceCloseInloop else .idle

/-- The largest `int`: `next_connid_++` has no meaning past it. -/
def intMax : ℕ := 2 ^ 31 - 1

def step (s : System) : Act → Option System
  | .accept => if s.server.nextConnid < intMax then some s.newConnection else none
  | .functor l w =>
    match s.queue l with
    | [] => none
    | f :: fs => some (runFunctor { s with queue := Function.update s.queue l fs } w f)
  | .event i revents r w =>
    match s.conns[i]? with
    | none => none
    | some o =>
      -- The poller returns channels that are in the epoll set.
      if o.conn.chan.idx = .added then
        some ((Channel.handleEventWithGuard (fun _ => true) revents).foldl
          (fun s cb => s.call i (Conn.runCallback r w · cb)) s)
      else none
  | .send i data w => some (s.call i (·.send true data w))
  | .shutdown i => some (s.call i (·.shutdown true))
  | .forceClose i => some (s.call i Conn.forceClose)
  | .test t i call =>
    match s.callers t, s.conns[i]? with
    | .idle, some o => some (s.setCaller t (test o.conn i call))
    | _, _ => none
  | .store t =>
    match s.callers t with
    | .toStore i f =>
      match s.conns[i]? with
      | none => none
      | some o => some ((s.setConn i { o with conn := o.conn.setState .disconnecting }).setCaller t (.toQueue i f))
    | _ => none
  | .queue t =>
    match s.callers t with
    | .toQueue i f => some ((s.call i (·.queueInLoop f)).setCaller t .idle)
    | _ => none
  | .stringEnds i k => some (s.call i (·.stringEnds k))

end System

end TcpServer

end Learncc
