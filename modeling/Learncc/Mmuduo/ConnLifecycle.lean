/-
The life of a `tcp_connection` when other threads call `shutdown` and
`force_close` while its loop runs.

What the loop's thread runs is cut into the steps between which another
thread may come (`Micro`): each load and each store of `state_` is one. A
call from another thread tests `state_` in one step, stores DISCONNECTING in
the next and queues its functor in a third. `program_runs` says that a
program run without interference is the member function of
`Learncc.Mmuduo.TcpConnection`.

`lifecycle`: DISCONNECTED is final and each callback runs at most once in
every run in which no thread stores DISCONNECTING over DISCONNECTED and no
poll result closes a closed connection or closes it twice. `force_close_race`
is a run that breaks the first condition.
-/
import Learncc.Mmuduo.ConnOutput

namespace Learncc

namespace Conn

/-- One step of the loop's thread. -/
inductive Micro
  | setState (state : StateE)
  | enableReading
  | disableAll
  | remove
  | callback (cb : CbCall)
  | testForceClose
  | testDestroyed
  | read (r : ReadvResult)
  | write (w : WriteResult)
  | send (data : Bytes) (valid : Bool) (w : WriteResult)
  | shutdownInloop
deriving Repr, DecidableEq

def handleCloseProg : List Micro :=
  [.setState .disconnected, .disableAll, .callback .connDown, .callback .close]

def connectEstablishedProg : List Micro := [.setState .connected, .enableReading, .callback .connUp]

def connectDestroyedProg : List Micro := [.testDestroyed, .remove]

/-- The step, and what it makes the thread do next. -/
def Micro.exec (c : Conn) : Micro → Conn × List Micro
  | .setState st => (c.setState st, [])
  | .enableReading => ({ c with chan := c.chan.enableReading }, [])
  | .disableAll => ({ c with chan := c.chan.disableAll }, [])
  | .remove => ({ c with chan := c.chan.remove }, [])
  | .callback cb => (c.callback cb, [])
  | .testForceClose =>
    (c, if c.state = .connected ∨ c.state = .disconnecting then handleCloseProg else [])
  | .testDestroyed =>
    (c, if c.state = .connected then [.setState .disconnected, .disableAll, .callback .connDown] else [])
  | .read r =>
    let (n, ibuf) := c.ibuf.readFd r
    ({ c with ibuf }, if n > 0 then [.callback .message] else if n = 0 then handleCloseProg else [])
  | .write w => (c.handleWrite w, [])
  | .send data valid w => (c.sendBound data valid w, [])
  | .shutdownInloop => (c.shutdownInloop, [])

def callbackProg (r : ReadvResult) (w : WriteResult) : Channel.Callback → List Micro
  | .close => handleCloseProg
  | .error => []
  | .read => [.read r]
  | .write => [.write w]

def eventProg (revents : EventMask) (r : ReadvResult) (w : WriteResult) : List Micro :=
  (Channel.handleEventWithGuard (fun _ => true) revents).flatMap (callbackProg r w)

def functorProg (w : WriteResult) : ConnFunctor → List Micro
  | .writeComplete => [.callback .writeComplete]
  | .highWatermark pending => [.callback (.highWatermark pending)]
  | .sendInloop data valid => [.send data valid w]
  | .shutdownInloop => [.shutdownInloop]
  | .forceCloseInloop => [.testForceClose]

/-- Where another thread stands in `shutdown` or `force_close`, with the
functor the call queues at its end. -/
inductive Caller
  | idle
  | toStore (f : ConnFunctor)
  | toQueue (f : ConnFunctor)
deriving Repr, DecidableEq

/-- The connection, the rest of what the loop's thread is running, and the
other threads. -/
structure Sys where
  conn : Conn
  cont : List Micro
  callers : Nat → Caller

namespace Sys

/-- A constructed connection, about to be established. -/
def init (wc hw : Bool) (hm : Nat) : Sys :=
  { conn := new wc hw hm, cont := connectEstablishedProg, callers := fun _ => .idle }

inductive Act
  | event (revents : EventMask) (r : ReadvResult) (w : WriteResult)
  | functor (w : WriteResult)
  | destroyed
  | micro
  | shutdown (t : Nat)
  | forceClose (t : Nat)
  | store (t : Nat)
  | queue (t : Nat)
deriving Repr, DecidableEq

def setCaller (s : Sys) (t : Nat) (k : Caller) : Sys :=
  { s with callers := fun u => if u = t then k else s.callers u }

/-- The first step of a call from another thread: the test of `state_`. -/
def test (s : Sys) (t : Nat) (pass : Prop) [Decidable pass] (f : ConnFunctor) : Option Sys :=
  if s.callers t = .idle then some (if pass then s.setCaller t (.toStore f) else s) else none

def step (s : Sys) : Act → Option Sys
  | .event revents r w => if s.cont = [] then some { s with cont := eventProg revents r w } else none
  | .functor w =>
    match s.cont, s.conn.queued with
    | [], f :: fs => some { s with conn := { s.conn with queued := fs }, cont := functorProg w f }
    | _, _ => none
  | .destroyed => if s.cont = [] then some { s with cont := connectDestroyedProg } else none
  | .micro =>
    match s.cont with
    | [] => none
    | m :: rest => some { s with conn := (m.exec s.conn).1, cont := (m.exec s.conn).2 ++ rest }
  | .shutdown t => s.test t (s.conn.state = .connected) .shutdownInloop
  | .forceClose t =>
    s.test t (s.conn.state = .connected ∨ s.conn.state = .disconnecting) .forceCloseInloop
  | .store t =>
    match s.callers t with
    | .toStore f => some ({ s with conn := s.conn.setState .disconnecting }.setCaller t (.toQueue f))
    | _ => none
  | .queue t =>
    match s.callers t with
    | .toQueue f => some ({ s with conn := s.conn.queueInLoop f }.setCaller t .idle)
    | _ => none

/-! ## Programs and member functions -/

/-- Without interference the thread runs `p` from `c` to `c'`. -/
def Completes (p : List Micro) (c c' : Conn) : Prop :=
  ∀ s rest, s.conn = c → s.cont = p ++ rest →
    ∃ n, Run.run step s (List.replicate n .micro) = some { s with conn := c', cont := rest }

theorem Completes.nil (c : Conn) : Completes [] c c := by
  intro s rest he hcont
  subst he
  refine ⟨0, ?_⟩
  simp only [List.nil_append] at hcont
  rw [List.replicate_zero, Run.run_nil, ← hcont]

theorem Completes.cons {m : Micro} {p : List Micro} {c c' : Conn}
    (h : Completes ((m.exec c).2 ++ p) (m.exec c).1 c') : Completes (m :: p) c c' := by
  intro s rest he hcont
  subst he
  obtain ⟨n, hn⟩ := h { s with conn := (m.exec s.conn).1, cont := (m.exec s.conn).2 ++ (p ++ rest) } rest rfl
    (by simp)
  refine ⟨n + 1, ?_⟩
  rw [List.replicate_succ, Run.run_cons]
  exact ⟨_, by simp [step, hcont], hn⟩

theorem Completes.append {p q : List Micro} {c c' c'' : Conn} (h₁ : Completes p c c') (h₂ : Completes q c' c'') :
    Completes (p ++ q) c c'' := by
  intro s rest hc hcont
  obtain ⟨n, hn⟩ := h₁ s (q ++ rest) hc (by simp [hcont])
  obtain ⟨k, hk⟩ := h₂ { s with conn := c', cont := q ++ rest } rest rfl rfl
  refine ⟨n + k, ?_⟩
  rw [List.replicate_add, Run.run_append]
  exact ⟨_, hn, hk⟩

theorem completes_handleClose (c : Conn) : Completes handleCloseProg c c.handleClose :=
  .cons (.cons (.cons (.cons (.nil _))))

theorem completes_callback (r : ReadvResult) (w : WriteResult) (c : Conn) (cb : Channel.Callback) :
    Completes (callbackProg r w cb) c (runCallback r w c cb) := by
  cases cb with
  | close => exact completes_handleClose c
  | error => exact .nil c
  | write => exact .cons (.nil _)
  | read =>
    refine .cons ?_
    simp only [Micro.exec, runCallback, handleRead, List.append_nil]
    split
    · exact .cons (.nil _)
    · split
      · exact completes_handleClose _
      · exact .nil _

/-- **The programs are the member functions**: run without interference,
each program of the loop's thread does what the function does. -/
theorem program_runs (c : Conn) :
    Completes connectEstablishedProg c c.connectEstablished ∧
    Completes connectDestroyedProg c c.connectDestroyed ∧
    (∀ revents r w, Completes (eventProg revents r w) c (c.handleEvent revents r w)) ∧
    (∀ w f, Completes (functorProg w f) c (c.runFunctor w f)) := by
  refine ⟨.cons (.cons (.cons (.nil _))), ?_, fun revents r w => ?_, fun w f => ?_⟩
  · refine .cons ?_
    simp only [Micro.exec, connectDestroyed]
    split
    · exact .cons (.cons (.cons (.cons (.nil _))))
    · exact .cons (.nil _)
  · unfold eventProg handleEvent
    generalize Channel.handleEventWithGuard (fun _ => true) revents = cbs
    induction cbs generalizing c with
    | nil => exact .nil c
    | cons cb cbs ih =>
      rw [List.flatMap_cons, List.foldl_cons]
      exact (completes_callback r w c cb).append (ih _)
  · cases f with
    | writeComplete | highWatermark | sendInloop | shutdownInloop => exact .cons (.nil _)
    | forceCloseInloop =>
      refine .cons ?_
      simp only [Micro.exec, runFunctor, forceCloseInloop, List.append_nil]
      split
      · exact completes_handleClose c
      · exact .nil c

/-! ## What a program may still do -/

end Sys

namespace Micro

/-- Steps that are sure to store DISCONNECTED. -/
def stores : Micro → Nat
  | .setState .disconnected | .read (.ok []) => 1
  | _ => 0

/-- Steps that store DISCONNECTED if a test of `state_` passes. -/
def tests : Micro → Nat
  | .testForceClose | .testDestroyed => 1
  | _ => 0

/-- Steps that store another state. -/
def opens : Micro → Nat
  | .setState .disconnected => 0
  | .setState _ => 1
  | _ => 0

def closes : Micro → Nat
  | .callback .close | .read (.ok []) => 1
  | _ => 0

def downs : Micro → Nat
  | .callback .connDown | .read (.ok []) => 1
  | _ => 0

def ups : Micro → Nat
  | .callback .connUp => 1
  | _ => 0

/-- The closing callbacks that come before any store of DISCONNECTED. -/
def bare : List Micro → Nat
  | [] => 0
  | .setState .disconnected :: _ => 0
  | .callback .connDown :: p | .callback .close :: p => bare p + 1
  | _ :: p => bare p

def total (f : Micro → Nat) (p : List Micro) : Nat := (p.map f).sum

@[simp] theorem total_nil (f : Micro → Nat) : total f [] = 0 := rfl

@[simp] theorem total_cons (f : Micro → Nat) (m : Micro) (p : List Micro) : total f (m :: p) = f m + total f p := by
  simp [total]

@[simp] theorem total_append (f : Micro → Nat) (p q : List Micro) : total f (p ++ q) = total f p + total f q := by
  simp [total]

end Micro

namespace Sys

open Micro (total stores tests opens closes downs ups bare total_nil total_cons total_append)

/-- Until it is established the connection is in CONNECTING and nobody's test
has passed. While it is open at most one close is under way or can come, and
no closing callback has run; once it is DISCONNECTED no store is under way,
and at most one closing callback of each kind has run or is to run. -/
structure Inv (s : Sys) : Prop where
  opening : s.conn.state = .connecting →
    s.cont = connectEstablishedProg ∧ ∀ t f, s.callers t ≠ .toStore f
  opened : s.conn.state ≠ .connecting → total opens s.cont = 0
  up : s.conn.cbs.count .connUp + total ups s.cont ≤ 1
  alive : s.conn.state ≠ .disconnected →
    total stores s.cont + total tests s.cont ≤ 1 ∧ total closes s.cont + total tests s.cont ≤ 1 ∧
      total downs s.cont + total tests s.cont ≤ 1 ∧ bare s.cont = 0 ∧
      s.conn.cbs.count .close = 0 ∧ s.conn.cbs.count .connDown = 0
  dead : s.conn.state = .disconnected →
    total stores s.cont = 0 ∧ s.conn.cbs.count .close + total closes s.cont ≤ 1 ∧
      s.conn.cbs.count .connDown + total downs s.cont ≤ 1

theorem init_inv (wc hw : Bool) (hm : Nat) : (init wc hw hm).Inv := by
  refine ⟨fun _ => ⟨rfl, fun _ _ h => ?_⟩, fun h => absurd rfl h, Nat.le_refl 1, fun _ => ?_, fun h => ?_⟩
  · cases h
  · exact ⟨Nat.zero_le 1, Nat.zero_le 1, Nat.zero_le 1, rfl, rfl, rfl⟩
  · cases h

/-- A program that stores, tests and calls nothing that matters here. -/
def Calm (p : List Micro) : Prop :=
  total stores p = 0 ∧ total tests p = 0 ∧ total opens p = 0 ∧ total closes p = 0 ∧ total downs p = 0 ∧
    total ups p = 0

theorem calm_nil : Calm [] := ⟨rfl, rfl, rfl, rfl, rfl, rfl⟩

/-- The callbacks that a connection opens and closes with. -/
def lifeCbs : List CbCall := [.connUp, .connDown, .close]

/-- The step changes neither `state_` nor the callbacks run, and makes the
thread do nothing that matters here. -/
theorem Inv.quiet {s : Sys} {m : Micro} {rest ext : List Micro} {c : Conn} (h : s.Inv) (hcont : s.cont = m :: rest)
    (hne : s.conn.state ≠ .connecting) (hst : c.state = s.conn.state)
    (hcb : ∀ k ∈ lifeCbs, c.cbs.count k = s.conn.cbs.count k)
    (hext : Calm ext) (hbare : bare (ext ++ rest) = bare rest) (hm : bare (m :: rest) = bare rest) :
    Inv { s with conn := c, cont := ext ++ rest } := by
  obtain ⟨e1, e2, e3, e4, e5, e6⟩ := hext
  have h1 := h.opened hne
  have h2 := h.up
  rw [hcont] at h1 h2
  simp only [total_cons] at h1 h2
  refine ⟨fun hc => absurd (hst ▸ hc) hne, fun _ => ?_, ?_, fun ha => ?_, fun hd => ?_⟩
  · simp only [total_append]; omega
  · simp only [total_append, hcb .connUp (by decide)]; omega
  · obtain ⟨a1, a2, a3, a4, a5, a6⟩ := h.alive (hst ▸ ha)
    rw [hcont] at a1 a2 a3 a4
    simp only [total_cons] at a1 a2 a3
    refine ⟨?_, ?_, ?_, ?_, ?_, ?_⟩
    · simp only [total_append]; omega
    · simp only [total_append]; omega
    · simp only [total_append]; omega
    · rw [hbare, ← hm]; exact a4
    · rw [hcb .close (by decide)]; exact a5
    · rw [hcb .connDown (by decide)]; exact a6
  · obtain ⟨d1, d2, d3⟩ := h.dead (hst ▸ hd)
    rw [hcont] at d1 d2 d3
    simp only [total_cons] at d1 d2 d3
    refine ⟨?_, ?_, ?_⟩
    · simp only [total_append]; omega
    · simp only [total_append, hcb .close (by decide)]; omega
    · simp only [total_append, hcb .connDown (by decide)]; omega

theorem handleWrite_state (c : Conn) (w : WriteResult) :
    (c.handleWrite w).state = c.state ∧ (c.handleWrite w).cbs = c.cbs := by
  unfold handleWrite
  split
  · cases w with
    | err e => exact ⟨rfl, rfl⟩
    | ok n =>
      dsimp only
      split
      · split
        · obtain ⟨q, ch, sw, he⟩ := writeDone_eq
            { c with wire := c.wire ++ c.obuf.readable.take n, obuf := c.obuf.retrieve n }
          rw [he]
          exact ⟨rfl, rfl⟩
        · exact ⟨rfl, rfl⟩
      · exact ⟨rfl, rfl⟩
  · exact ⟨rfl, rfl⟩

theorem sendInloop_state (c : Conn) (data : Bytes) (w : WriteResult) :
    (c.sendInloop data w).state = c.state ∧ (c.sendInloop data w).cbs = c.cbs := by
  by_cases hd : c.state = .disconnected
  · simp [sendInloop, hd]
  · obtain ⟨q, ch, he, -⟩ := sendInloop_eq hd data w
    rw [he]
    exact ⟨rfl, rfl⟩

theorem sendBound_state (c : Conn) (data : Bytes) (valid : Bool) (w : WriteResult) :
    (c.sendBound data valid w).state = c.state ∧ (c.sendBound data valid w).cbs = c.cbs := by
  unfold sendBound
  split
  · exact sendInloop_state c data w
  · exact ⟨rfl, rfl⟩

/-- A close begins while the connection is open. The step `m` stands for it
already, so nothing else under way closes the connection. -/
theorem Inv.close {s : Sys} {m : Micro} {rest ext : List Micro} {c : Conn} (h : s.Inv) (hcont : s.cont = m :: rest)
    (hne : s.conn.state ≠ .connecting) (ha : s.conn.state ≠ .disconnected)
    (hm : stores m + tests m = 1 ∧ closes m + tests m = 1 ∧ downs m + tests m = 1)
    (hst : c.state = s.conn.state) (hcb : c.cbs = s.conn.cbs)
    (hext : total stores ext = 1 ∧ total tests ext = 0 ∧ total opens ext = 0 ∧ total closes ext ≤ 1 ∧
      total downs ext = 1 ∧ total ups ext = 0) (hbare : bare (ext ++ rest) = 0) :
    Inv { s with conn := c, cont := ext ++ rest } := by
  obtain ⟨m1, m2, m3⟩ := hm
  obtain ⟨e1, e2, e3, e4, e5, e6⟩ := hext
  have h1 := h.opened hne
  have h2 := h.up
  obtain ⟨a1, a2, a3, -, a5, a6⟩ := h.alive ha
  rw [hcont] at h1 h2 a1 a2 a3
  simp only [total_cons] at h1 h2 a1 a2 a3
  refine ⟨fun hc => absurd (hst ▸ hc) hne, fun _ => ?_, ?_, fun _ => ?_, fun hd => absurd (hst ▸ hd) ha⟩
  · simp only [total_append]; omega
  · simp only [total_append, hcb]; omega
  · refine ⟨?_, ?_, ?_, hbare, hcb ▸ a5, hcb ▸ a6⟩
    · simp only [total_append]; omega
    · simp only [total_append]; omega
    · simp only [total_append]; omega

/-- The store that establishes the connection. -/
theorem establish_inv {s : Sys} {m : Micro} {rest : List Micro} (h : s.Inv) (hcont : s.cont = m :: rest)
    (hc : s.conn.state = .connecting) :
    Inv { s with conn := (m.exec s.conn).1, cont := (m.exec s.conn).2 ++ rest } := by
  have hp := (h.opening hc).1
  obtain ⟨-, -, -, -, a5, a6⟩ := h.alive (by simp [hc])
  have hu := h.up
  rw [hp] at hcont hu
  cases hcont
  refine ⟨fun h' => ?_, fun _ => rfl, hu, fun _ => ?_, fun h' => ?_⟩
  · cases h'
  · exact ⟨Nat.zero_le 1, Nat.zero_le 1, Nat.zero_le 1, rfl, a5, a6⟩
  · cases h'

/-- The store that closes it. -/
theorem storeDisconnected_inv {s : Sys} {rest : List Micro} (h : s.Inv) (hc : s.conn.state ≠ .connecting)
    (hcont : s.cont = .setState .disconnected :: rest) :
    Inv { s with conn := s.conn.setState .disconnected, cont := rest } := by
  have hopens := h.opened hc
  have hdead := h.dead
  have hups := h.up
  have halive := h.alive
  rw [hcont] at hopens hdead hups halive
  simp only [total_cons] at hopens hdead hups halive
  have ha : s.conn.state ≠ .disconnected := fun hd => by simpa [stores] using (hdead hd).1
  obtain ⟨a1, a2, a3, -, a5, a6⟩ := halive ha
  simp only [stores, tests, closes, downs] at a1 a2 a3
  refine ⟨fun h' => ?_, fun _ => ?_, ?_, fun h' => absurd rfl h', fun _ => ?_⟩
  · cases h'
  · simpa [opens] using hopens
  · simpa [setState, ups] using hups
  · simp only [setState]
    exact ⟨by omega, by omega, by omega⟩

/-- A closing callback runs on a DISCONNECTED connection only. -/
theorem closingCallback_inv {s : Sys} {rest : List Micro} {cb : CbCall} (h : s.Inv) (hc : s.conn.state ≠ .connecting)
    (hcb : cb = .connDown ∨ cb = .close) (hcont : s.cont = .callback cb :: rest) :
    Inv { s with conn := s.conn.callback cb, cont := rest } := by
  have hopens := h.opened hc
  have hups := h.up
  have hd : s.conn.state = .disconnected := by
    by_contra ha
    have hbare := (h.alive ha).2.2.2.1
    rw [hcont] at hbare
    rcases hcb with rfl | rfl <;> simp [bare] at hbare
  obtain ⟨d1, d2, d3⟩ := h.dead hd
  rw [hcont] at hopens hups d1 d2 d3
  simp only [total_cons] at hopens hups d1 d2 d3
  refine ⟨fun h' => absurd h' hc, fun _ => ?_, ?_, fun ha => absurd hd ha, fun _ => ?_⟩
  · exact (Nat.add_eq_zero_iff.1 hopens).2
  · rcases hcb with rfl | rfl <;> simpa [Conn.callback, List.count_append, ups] using hups
  · rcases hcb with rfl | rfl <;> simp only [stores, closes, downs] at d1 d2 d3 <;>
      simp [Conn.callback, List.count_append] <;> exact ⟨by omega, by omega, by omega⟩

theorem callback_inv {s : Sys} {rest : List Micro} {cb : CbCall} (h : s.Inv) (hc : s.conn.state ≠ .connecting)
    (hcont : s.cont = .callback cb :: rest) : Inv { s with conn := s.conn.callback cb, cont := rest } := by
  have hother : ∀ cb ∉ lifeCbs, ∀ k ∈ lifeCbs, (s.conn.callback cb).cbs.count k = s.conn.cbs.count k := by
    intro cb hcb k hk
    have hne : cb ≠ k := fun he => hcb (he ▸ hk)
    simp [Conn.callback, List.count_append, hne]
  cases cb with
  | message => exact h.quiet (c := s.conn.callback .message) hcont hc rfl (hother _ (by decide)) calm_nil rfl rfl
  | writeComplete =>
    exact h.quiet (c := s.conn.callback .writeComplete) hcont hc rfl (hother _ (by decide)) calm_nil rfl rfl
  | highWatermark pending =>
    exact h.quiet (c := s.conn.callback (.highWatermark pending)) hcont hc rfl (hother _ (by simp [lifeCbs])) calm_nil
      rfl rfl
  | connUp =>
    have hopens := h.opened hc
    have halive := h.alive
    have hdead := h.dead
    have hups := h.up
    rw [hcont] at hopens halive hdead hups
    simp only [total_cons, ups] at hopens halive hdead hups
    refine ⟨fun h' => absurd h' hc, fun _ => ?_, ?_, fun ha => ?_, fun hd => ?_⟩
    · simpa [opens] using hopens
    · simp [Conn.callback, List.count_append]; omega
    · simpa [Conn.callback, List.count_append, stores, tests, closes, downs, bare] using halive ha
    · simpa [Conn.callback, List.count_append, stores, tests, closes, downs, bare] using hdead hd
  | connDown => exact closingCallback_inv h hc (.inl rfl) hcont
  | close => exact closingCallback_inv h hc (.inr rfl) hcont

/-- A read that meets end of file closes the connection. -/
theorem read_inv {s : Sys} {r : ReadvResult} {rest : List Micro} (h : s.Inv) (hc : s.conn.state ≠ .connecting)
    (hcont : s.cont = .read r :: rest) :
    Inv { s with conn := (Micro.exec s.conn (.read r)).1, cont := (Micro.exec s.conn (.read r)).2 ++ rest } := by
  cases r with
  | err e => exact h.quiet hcont hc rfl (fun _ _ => rfl) calm_nil rfl rfl
  | ok data =>
    cases data with
    | nil =>
      have ha : s.conn.state ≠ .disconnected := by
        intro hd
        have hstores := (h.dead hd).1
        rw [hcont] at hstores
        simp [stores] at hstores
      have he : (Micro.exec s.conn (.read (.ok []))).2 = handleCloseProg := rfl
      rw [he]
      exact h.close hcont hc ha ⟨rfl, rfl, rfl⟩ rfl rfl ⟨rfl, rfl, rfl, Nat.le_refl 1, rfl, rfl⟩ rfl
    | cons b bs =>
      have hn : ((s.conn.ibuf.readFd (.ok (b :: bs))).1) > 0 := by
        simp only [Buffer.readFd]
        split <;> simp
      have he : (Micro.exec s.conn (.read (.ok (b :: bs)))).2 = [.callback .message] := by
        simp only [Micro.exec, hn, if_true]
      rw [he]
      exact h.quiet hcont hc rfl (fun _ _ => rfl) ⟨rfl, rfl, rfl, rfl, rfl, rfl⟩ rfl rfl

/-- One step of the loop's thread. -/
theorem micro_inv {s : Sys} {m : Micro} {rest : List Micro} (h : s.Inv) (hcont : s.cont = m :: rest) :
    Inv { s with conn := (m.exec s.conn).1, cont := (m.exec s.conn).2 ++ rest } := by
  by_cases hc : s.conn.state = .connecting
  · exact establish_inv h hcont hc
  cases m with
  | setState st =>
    cases st with
    | disconnected => exact storeDisconnected_inv h hc hcont
    | connected | connecting | disconnecting =>
      have hopens := h.opened hc
      rw [hcont] at hopens
      simp [opens] at hopens
  | enableReading | disableAll | remove => exact h.quiet hcont hc rfl (fun _ _ => rfl) calm_nil rfl rfl
  | write w =>
    obtain ⟨h1, h2⟩ := handleWrite_state s.conn w
    exact h.quiet hcont hc h1 (fun _ _ => by simp [Micro.exec, h2]) calm_nil rfl rfl
  | send data valid w =>
    obtain ⟨h1, h2⟩ := sendBound_state s.conn data valid w
    exact h.quiet hcont hc h1 (fun _ _ => by simp [Micro.exec, h2]) calm_nil rfl rfl
  | shutdownInloop =>
    obtain ⟨sw, he⟩ := shutdownInloop_eq s.conn
    exact h.quiet hcont hc (by simp [Micro.exec, he]) (fun _ _ => by simp [Micro.exec, he]) calm_nil rfl rfl
  | callback cb => exact callback_inv h hc hcont
  | testForceClose =>
    by_cases hp : s.conn.state = .connected ∨ s.conn.state = .disconnecting
    · have ha : s.conn.state ≠ .disconnected := by rcases hp with hp | hp <;> simp [hp]
      simp only [Micro.exec, hp, if_true]
      exact h.close hcont hc ha ⟨rfl, rfl, rfl⟩ rfl rfl ⟨rfl, rfl, rfl, Nat.le_refl 1, rfl, rfl⟩ rfl
    · simp only [Micro.exec, hp, if_false]
      exact h.quiet hcont hc rfl (fun _ _ => rfl) calm_nil rfl rfl
  | testDestroyed =>
    by_cases hp : s.conn.state = .connected
    · have ha : s.conn.state ≠ .disconnected := by simp [hp]
      simp only [Micro.exec, hp, if_true]
      exact h.close hcont hc ha ⟨rfl, rfl, rfl⟩ rfl rfl ⟨rfl, rfl, rfl, Nat.zero_le 1, rfl, rfl⟩ rfl
    · simp only [Micro.exec, hp, if_false]
      exact h.quiet hcont hc rfl (fun _ _ => rfl) calm_nil rfl rfl
  | read r => exact read_inv h hc hcont

/-! ## Runs -/

/-- The poll result runs the close callback. -/
def hupCloses (revents : EventMask) : Bool := revents.has EPOLLHUP && !revents.has EPOLLIN

/-- The poll result runs the read callback, and the read meets end of file. -/
def eofCloses (revents : EventMask) (r : ReadvResult) : Bool :=
  revents.has (EPOLLIN ||| EPOLLPRI) && r == .ok []

theorem eventProg_eq (revents : EventMask) (r : ReadvResult) (w : WriteResult) :
    eventProg revents r w =
      (if hupCloses revents then handleCloseProg else []) ++
      (if revents.has (EPOLLIN ||| EPOLLPRI) then [.read r] else []) ++
      (if revents.has EPOLLOUT then [.write w] else []) := by
  unfold eventProg Channel.handleEventWithGuard hupCloses
  generalize (revents.has EPOLLHUP && !revents.has EPOLLIN) = hup
  generalize revents.has (EPOLLIN ||| EPOLLPRI) = rd
  cases hup <;> cases revents.has EPOLLERR <;> cases rd <;> cases revents.has EPOLLOUT <;> rfl

/-- What a poll result may do: as many closes as it has causes. -/
theorem eventProg_total (revents : EventMask) (r : ReadvResult) (w : WriteResult) :
    total stores (eventProg revents r w) = (hupCloses revents).toNat + (eofCloses revents r).toNat ∧
    total closes (eventProg revents r w) = (hupCloses revents).toNat + (eofCloses revents r).toNat ∧
    total downs (eventProg revents r w) = (hupCloses revents).toNat + (eofCloses revents r).toNat ∧
    total tests (eventProg revents r w) = 0 ∧ total opens (eventProg revents r w) = 0 ∧
    total ups (eventProg revents r w) = 0 ∧ bare (eventProg revents r w) = 0 := by
  rw [eventProg_eq, eofCloses]
  generalize hupCloses revents = hup
  generalize revents.has (EPOLLIN ||| EPOLLPRI) = rd
  rcases r with (_ | ⟨b, bs⟩) | e <;> cases hup <;> cases rd <;> cases revents.has EPOLLOUT <;>
    exact ⟨rfl, rfl, rfl, rfl, rfl, rfl, rfl⟩

/-- The condition on a step, on the state before it: DISCONNECTING is not
stored over DISCONNECTED, and a poll result closes the connection once at
most and only while it is open. -/
def Orderly (s : Sys) : Act → Prop
  | .store _ => s.conn.state ≠ .disconnected
  | .event revents r _ =>
    ¬ (hupCloses revents = true ∧ eofCloses revents r = true) ∧
      (hupCloses revents = true ∨ eofCloses revents r = true → s.conn.state ≠ .disconnected)
  | _ => True

/-- A new program, when the thread has none to run. -/
theorem Inv.start {s : Sys} (h : s.Inv) (hcont : s.cont = []) {p : List Micro} {c : Conn}
    (hst : c.state = s.conn.state) (hcb : c.cbs = s.conn.cbs)
    (hp : total opens p = 0 ∧ total ups p = 0 ∧ bare p = 0)
    (ha : total stores p + total tests p ≤ 1 ∧ total closes p + total tests p ≤ 1 ∧
      total downs p + total tests p ≤ 1)
    (hd : s.conn.state = .disconnected → total stores p = 0 ∧ total closes p = 0 ∧ total downs p = 0) :
    Inv { s with conn := c, cont := p } := by
  have hne : s.conn.state ≠ .connecting := fun hc => by
    have := (h.opening hc).1
    rw [hcont] at this
    cases this
  have hup := h.up
  rw [hcont, total_nil] at hup
  refine ⟨fun hc => absurd (hst ▸ hc) hne, fun _ => hp.1, ?_, fun ho => ?_, fun hc => ?_⟩
  · simp only [hcb, hp.2.1]; exact hup
  · obtain ⟨-, -, -, -, a5, a6⟩ := h.alive (hst ▸ ho)
    exact ⟨ha.1, ha.2.1, ha.2.2, hp.2.2, hcb ▸ a5, hcb ▸ a6⟩
  · obtain ⟨-, d2, d3⟩ := h.dead (hst ▸ hc)
    obtain ⟨p1, p2, p3⟩ := hd (hst ▸ hc)
    rw [hcont, total_nil] at d2 d3
    simp only [hcb, p1, p2, p3]
    exact ⟨trivial, d2, d3⟩

/-- A change of another thread's place, of the queue, or of `state_` among
the states of an open connection. -/
theorem Inv.frame {s s' : Sys} (h : s.Inv) (hcont : s'.cont = s.cont) (hcb : s'.conn.cbs = s.conn.cbs)
    (hst : s'.conn.state = s.conn.state ∨
      (s.conn.state ≠ .connecting ∧ s.conn.state ≠ .disconnected ∧ s'.conn.state = .disconnecting))
    (hcall : s'.conn.state = .connecting → ∀ t f, s'.callers t ≠ .toStore f) : s'.Inv := by
  rcases hst with hst | ⟨hn, hd, hst⟩
  · refine ⟨fun hc => ⟨?_, hcall hc⟩, fun hc => ?_, ?_, fun ha => ?_, fun hd => ?_⟩
    · rw [hcont]; exact (h.opening (hst ▸ hc)).1
    · rw [hcont]; exact h.opened (hst ▸ hc)
    · rw [hcont, hcb]; exact h.up
    · rw [hcont, hcb]; exact h.alive (hst ▸ ha)
    · rw [hcont, hcb]; exact h.dead (hst ▸ hd)
  · refine ⟨fun hc => ?_, fun _ => ?_, ?_, fun _ => ?_, fun hc => ?_⟩
    · rw [hst] at hc; cases hc
    · rw [hcont]; exact h.opened hn
    · rw [hcont, hcb]; exact h.up
    · rw [hcont, hcb]; exact h.alive hd
    · rw [hst] at hc; cases hc

theorem test_inv {s s' : Sys} {t : Nat} {pass : Prop} [Decidable pass] {f : ConnFunctor} (h : s.Inv)
    (hpass : pass → s.conn.state ≠ .connecting) (hs : s.test t pass f = some s') : s'.Inv := by
  simp only [test] at hs
  split at hs
  · simp only [Option.some.injEq] at hs; subst hs
    split
    · rename_i hp
      exact h.frame rfl rfl (.inl rfl) fun hc => absurd hc (hpass hp)
    · exact h
  · cases hs

theorem step_inv {s s' : Sys} {a : Act} (h : s.Inv) (ho : s.Orderly a) (hs : s.step a = some s') : s'.Inv := by
  cases a with
  | event revents r w =>
    simp only [step] at hs
    split at hs
    · rename_i hcont
      simp only [Option.some.injEq] at hs; subst hs
      obtain ⟨t1, t2, t3, t4, t5, t6, t7⟩ := eventProg_total revents r w
      obtain ⟨ho1, ho2⟩ := ho
      have hle : (hupCloses revents).toNat + (eofCloses revents r).toNat ≤ 1 := by
        revert ho1
        cases hupCloses revents <;> cases eofCloses revents r <;> simp
      refine h.start hcont rfl rfl ⟨t5, t6, t7⟩ ?_ fun hd => ?_
      · rw [t1, t2, t3, t4]; exact ⟨hle, hle, hle⟩
      · have hz : (hupCloses revents).toNat + (eofCloses revents r).toNat = 0 := by
          have hno : ¬ (hupCloses revents = true ∨ eofCloses revents r = true) := fun hc => ho2 hc hd
          revert hno
          cases hupCloses revents <;> cases eofCloses revents r <;> simp
        rw [t1, t2, t3]; exact ⟨hz, hz, hz⟩
    · cases hs
  | functor w =>
    simp only [step] at hs
    split at hs
    · rename_i f fs hcont hq
      simp only [Option.some.injEq] at hs; subst hs
      have hp : total opens (functorProg w f) = 0 ∧ total ups (functorProg w f) = 0 ∧ bare (functorProg w f) = 0 ∧
          total stores (functorProg w f) = 0 ∧ total closes (functorProg w f) = 0 ∧
          total downs (functorProg w f) = 0 ∧ total tests (functorProg w f) ≤ 1 := by
        cases f with
        | forceCloseInloop => exact ⟨rfl, rfl, rfl, rfl, rfl, rfl, Nat.le_refl 1⟩
        | writeComplete | highWatermark | sendInloop | shutdownInloop =>
          exact ⟨rfl, rfl, rfl, rfl, rfl, rfl, Nat.zero_le 1⟩
      obtain ⟨p1, p2, p3, p4, p5, p6, p7⟩ := hp
      exact h.start hcont rfl rfl ⟨p1, p2, p3⟩ ⟨by omega, by omega, by omega⟩ fun _ => ⟨p4, p5, p6⟩
    · cases hs
  | destroyed =>
    simp only [step] at hs
    split at hs
    · rename_i hcont
      simp only [Option.some.injEq] at hs; subst hs
      exact h.start hcont rfl rfl ⟨rfl, rfl, rfl⟩ ⟨Nat.le_refl 1, Nat.le_refl 1, Nat.le_refl 1⟩
        fun _ => ⟨rfl, rfl, rfl⟩
    · cases hs
  | micro =>
    simp only [step] at hs
    split at hs
    · cases hs
    · rename_i m rest hcont
      simp only [Option.some.injEq] at hs; subst hs
      exact micro_inv h hcont
  | shutdown t => exact test_inv h (fun hp => by simp [hp]) hs
  | forceClose t => exact test_inv h (fun hp => by rcases hp with hp | hp <;> simp [hp]) hs
  | store t =>
    simp only [step] at hs
    split at hs
    · rename_i f hcall
      simp only [Option.some.injEq] at hs; subst hs
      -- Somebody's test has passed, so the connection has been established.
      have hne : s.conn.state ≠ .connecting := fun hc => (h.opening hc).2 t f hcall
      exact h.frame rfl rfl (.inr ⟨hne, ho, rfl⟩) fun hc => by cases hc
    · cases hs
  | queue t =>
    simp only [step] at hs
    split at hs
    · rename_i f hcall
      simp only [Option.some.injEq] at hs; subst hs
      refine h.frame rfl rfl (.inl rfl) fun hc u g => ?_
      simp only [setCaller]
      split
      · simp
      · exact (h.opening hc).2 u g
    · cases hs

/-- DISCONNECTED is final: no orderly step leaves it. -/
theorem step_final {s s' : Sys} {a : Act} (h : s.Inv) (ho : s.Orderly a) (hs : s.step a = some s')
    (hd : s.conn.state = .disconnected) : s'.conn.state = .disconnected := by
  cases a with
  | event revents r w =>
    simp only [step] at hs
    split at hs
    · simp only [Option.some.injEq] at hs; subst hs; exact hd
    · cases hs
  | functor w =>
    simp only [step] at hs
    split at hs
    · simp only [Option.some.injEq] at hs; subst hs; exact hd
    · cases hs
  | destroyed =>
    simp only [step] at hs
    split at hs
    · simp only [Option.some.injEq] at hs; subst hs; exact hd
    · cases hs
  | micro =>
    simp only [step] at hs
    split at hs
    · cases hs
    · rename_i m rest hcont
      simp only [Option.some.injEq] at hs; subst hs
      have hopens := h.opened (by simp [hd])
      rw [hcont, total_cons] at hopens
      cases m with
      | setState st =>
        cases st with
        | disconnected => rfl
        | connected | connecting | disconnecting => simp [opens] at hopens
      | write w => exact (handleWrite_state s.conn w).1.trans hd
      | send data valid w => exact (sendBound_state s.conn data valid w).1.trans hd
      | shutdownInloop =>
        obtain ⟨sw, he⟩ := shutdownInloop_eq s.conn
        simpa [Micro.exec, he] using hd
      | enableReading | disableAll | remove | callback | testForceClose | testDestroyed | read => exact hd
  | shutdown t | forceClose t =>
    simp only [step, test] at hs
    split at hs
    · simp only [Option.some.injEq] at hs; subst hs
      split <;> exact hd
    · cases hs
  | store t => exact absurd hd ho
  | queue t =>
    simp only [step] at hs
    split at hs
    · simp only [Option.some.injEq] at hs; subst hs; exact hd
    · cases hs

/-- **Lifecycle.** In every run whose steps are all orderly, whatever the
interleaving: once `state_` is DISCONNECTED it stays so, and `close_cb_`,
`conn_cb_` for up and `conn_cb_` for down each run at most once. -/
theorem lifecycle {wc hw : Bool} {hm : Nat} {acts : List Act} {s : Sys}
    (ho : Run.Along step Orderly (init wc hw hm) acts) (h : Run.run step (init wc hw hm) acts = some s) :
    (∀ pre post s₁, acts = pre ++ post → Run.run step (init wc hw hm) pre = some s₁ →
      s₁.conn.state = .disconnected → s.conn.state = .disconnected) ∧
    s.conn.cbs.count .close ≤ 1 ∧ s.conn.cbs.count .connUp ≤ 1 ∧ s.conn.cbs.count .connDown ≤ 1 := by
  have hinv : s.Inv := Run.run_along_invariant Inv (fun _ _ _ => step_inv) (init_inv wc hw hm) ho h
  refine ⟨fun pre post s₁ he hpre hd => ?_, ?_, ?_, ?_⟩
  · subst he
    obtain ⟨t, ht, hpost⟩ := Run.run_append.1 h
    rw [hpre] at ht
    cases ht
    obtain ⟨hopre, hopost⟩ := Run.along_append.1 ho
    have hs₁ : s₁.Inv := Run.run_along_invariant Inv (fun _ _ _ => step_inv) (init_inv wc hw hm) hopre hpre
    exact (Run.run_along_invariant (fun s => s.Inv ∧ s.conn.state = .disconnected)
      (fun _ _ _ hi hc hs => ⟨step_inv hi.1 hc hs, step_final hi.1 hc hs hi.2⟩) ⟨hs₁, hd⟩ (hopost s₁ hpre) hpost).2
  · by_cases hd : s.conn.state = .disconnected
    · have := (hinv.dead hd).2.1
      omega
    · have := (hinv.alive hd).2.2.2.2.1
      omega
  · have := hinv.up
    omega
  · by_cases hd : s.conn.state = .disconnected
    · have := (hinv.dead hd).2.2
      omega
    · have := (hinv.alive hd).2.2.2.2.2
      omega

/-- The loop's thread runs `n` steps of its program. -/
def micros (n : Nat) : List Act := List.replicate n .micro

instance (s : Sys) : ∀ a, Decidable (s.Orderly a)
  | .store _ => inferInstanceAs (Decidable (s.conn.state ≠ .disconnected))
  | .event revents r _ => inferInstanceAs (Decidable (¬ (hupCloses revents = true ∧ eofCloses revents r = true) ∧
      (hupCloses revents = true ∨ eofCloses revents r = true → s.conn.state ≠ .disconnected)))
  | .functor _ | .destroyed | .micro | .shutdown _ | .forceClose _ | .queue _ => .isTrue trivial

/-- Established, then hung up while another thread is in `shutdown`, past its store; a third
one calls `force_close` when it is too late. -/
def hangUp : List Act :=
  micros 3 ++ [.shutdown 0, .store 0, .event EPOLLHUP (.err 0) (.ok 0)] ++ micros 2 ++ [.queue 0] ++ micros 2 ++
    [.forceClose 1, .functor (.ok 0)] ++ micros 1

theorem lifecycle_hangUp :
    ∃ s, Run.run step (init false false 64) hangUp = some s ∧ s.conn.state = .disconnected ∧
      s.conn.cbs.count .close ≤ 1 := by
  have hsome : ((Run.run step (init false false 64) hangUp).map fun s => s.conn.state) = some .disconnected := by
    decide +kernel
  obtain ⟨s, hs, hst⟩ := Option.map_eq_some_iff.1 hsome
  exact ⟨s, hs, hst, (lifecycle (by decide +kernel) hs).2.1⟩

/-- Another thread's `force_close` passes its test; the peer hangs up and the
connection is closed; then the store takes it back to DISCONNECTING, and the
queued functor closes it again. -/
def forceCloseRace : List Act :=
  micros 3 ++ [.forceClose 0, .event EPOLLHUP (.err 0) (.ok 0)] ++ micros 4 ++
    [.store 0, .queue 0, .functor (.ok 0)] ++ micros 5

theorem force_close_race :
    (Run.run step (init false false 64) (forceCloseRace.take 9)).map (·.conn.state) = some .disconnected ∧
    (Run.run step (init false false 64) (forceCloseRace.take 10)).map (·.conn.state) = some .disconnecting ∧
    (Run.run step (init false false 64) forceCloseRace).map
      (fun s => (s.conn.cbs.count .close, s.conn.cbs.count .connDown)) = some (2, 2) := by
  decide +kernel

end Sys

end Conn

end Learncc
