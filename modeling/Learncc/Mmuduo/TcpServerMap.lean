/-
The connections of a `tcp_server`. Whatever the order in which the loops and the
other threads take their steps, a connection is established before anything else
happens to it, the map holds the connections that have not been removed, and
`connect_destroyed` runs once for each close (`connections_kept`). If no thread
stores DISCONNECTING over DISCONNECTED, a connection calls nobody once
`connect_destroyed` has run for it (`silent_after_destroyed`).

`Owes` is the invariant, with what one connection still owes while a step of its
loop is half done.
-/
import Learncc.Mmuduo.TcpServerLoops

namespace Learncc

/-- It runs a callback of the user's. -/
def ConnFunctor.calls : ConnFunctor → Bool
  | .writeComplete | .highWatermark _ => true
  | .sendInloop .. | .shutdownInloop | .forceCloseInloop => false

@[simp] theorem ConnFunctor.calls_stringEnds (f : ConnFunctor) : f.stringEnds.calls = f.calls := by cases f <;> rfl

namespace Conn

variable {c c' c'' : Conn}

/-- Which of the functors in the queue run a callback of the user's. -/
def calling (c : Conn) : List Bool := c.queued.map ConnFunctor.calls

@[simp] theorem length_calling (c : Conn) : c.calling.length = c.queued.length := List.length_map ..

theorem calling_stringEnds (c : Conn) (k : ℕ) : (c.stringEnds k).calling = c.calling := by
  refine List.ext_getElem (by simp [calling, stringEnds]) fun n _ _ => ?_
  simp only [calling, stringEnds, List.getElem_map, List.getElem_modify]
  split
  · exact ConnFunctor.calls_stringEnds _
  · rfl

/-- What a member function does to what the server sees of a connection. -/
structure Grows (c c' : Conn) : Prop where
  queued : c.calling <+: c'.calling
  cbs : c.cbs <+: c'.cbs
  ups : c'.cbs.count .connUp = c.cbs.count .connUp
  state : c.state ≠ .connecting → c'.state ≠ .connecting

theorem Grows.refl (c : Conn) : Grows c c := ⟨List.prefix_refl _, List.prefix_refl _, rfl, id⟩

theorem Grows.trans (h : Grows c c') (h' : Grows c' c'') : Grows c c'' :=
  ⟨h.queued.trans h'.queued, h.cbs.trans h'.cbs, h'.ups.trans h.ups, fun hc => h'.state (h.state hc)⟩

theorem Grows.length_le (h : Grows c c') : c.queued.length ≤ c'.queued.length := by
  have hle := h.queued.length_le
  rwa [length_calling, length_calling] at hle

/-- Neither the queue shrinks nor a callback runs. -/
theorem Grows.quiet (hqueued : c.calling <+: c'.calling) (hcbs : c'.cbs = c.cbs)
    (hstate : c'.state = c.state ∨ c'.state ≠ .connecting) : Grows c c' := by
  refine ⟨hqueued, hcbs ▸ List.prefix_refl _, by rw [hcbs], fun hc => ?_⟩
  rcases hstate with he | hne
  · rwa [he]
  · exact hne

theorem Grows.callback (c : Conn) {cb : CbCall} (hcb : cb ≠ .connUp) : Grows c (c.callback cb) := by
  refine ⟨List.prefix_refl _, List.prefix_append _ _, ?_, id⟩
  rw [Conn.callback, List.count_append, List.count_singleton, if_neg (by simpa using hcb), Nat.add_zero]

theorem Grows.queueInLoop (c : Conn) (f : ConnFunctor) : Grows c (c.queueInLoop f) := by
  refine .quiet ?_ rfl (.inl rfl)
  rw [calling, calling, Conn.queueInLoop, List.map_append]
  exact List.prefix_append _ _

theorem Grows.handleClose (c : Conn) : Grows c c.handleClose := by
  have hquiet : Grows c { c.setState .disconnected with chan := c.chan.disableAll } :=
    .quiet (List.prefix_refl _) rfl (.inr (by simp [setState]))
  exact (hquiet.trans (.callback _ (by simp))).trans (.callback _ (by simp))

theorem Grows.shutdownInloop (c : Conn) : Grows c c.shutdownInloop := by
  obtain ⟨sw, he⟩ := shutdownInloop_eq c
  rw [he]
  exact .quiet (List.prefix_refl _) rfl (.inl rfl)

theorem Grows.handleRead (c : Conn) (r : ReadvResult) : Grows c (c.handleRead r) := by
  unfold Conn.handleRead
  dsimp only
  have hquiet : Grows c { c with ibuf := (c.ibuf.readFd r).2 } := .quiet (List.prefix_refl _) rfl (.inl rfl)
  split
  · exact hquiet.trans (.callback _ (by simp))
  · split
    · exact hquiet.trans (.handleClose _)
    · exact hquiet

theorem Grows.writeDone (c : Conn) : Grows c c.writeDone := by
  unfold Conn.writeDone
  dsimp only
  have hquiet : Grows c { c with chan := c.chan.disableWriting } := .quiet (List.prefix_refl _) rfl (.inl rfl)
  split
  · have hqueued := hquiet.trans (.queueInLoop _ .writeComplete)
    split
    · exact hqueued.trans (.shutdownInloop _)
    · exact hqueued
  · split
    · exact hquiet.trans (.shutdownInloop _)
    · exact hquiet

theorem Grows.handleWrite (c : Conn) (w : WriteResult) : Grows c (c.handleWrite w) := by
  unfold Conn.handleWrite
  split
  · cases w with
    | err e => exact .refl c
    | ok n =>
      dsimp only
      split
      · have hquiet : Grows c
            { c with wire := c.wire ++ c.obuf.readable.take n, obuf := c.obuf.retrieve n } :=
          .quiet (List.prefix_refl _) rfl (.inl rfl)
        split
        · exact hquiet.trans (.writeDone _)
        · exact hquiet
      · exact .quiet (List.prefix_refl _) rfl (.inl rfl)
  · exact .refl c

theorem Grows.runCallback (c : Conn) (r : ReadvResult) (w : WriteResult) (cb : Channel.Callback) :
    Grows c (Conn.runCallback r w c cb) := by
  cases cb with
  | close => exact .handleClose c
  | error => exact .refl c
  | read => exact .handleRead c r
  | write => exact .handleWrite c w

theorem Grows.tryWrite (c : Conn) (data : Bytes) (w : WriteResult) : Grows c (c.tryWrite data w).1 := by
  unfold Conn.tryWrite
  split
  · cases w with
    | err e => exact .refl c
    | ok n =>
      have hquiet : Grows c { c with wire := c.wire ++ data.take n } := .quiet (List.prefix_refl _) rfl (.inl rfl)
      dsimp only
      split
      · exact hquiet.trans (.queueInLoop _ _)
      · exact hquiet
  · exact .refl c

theorem Grows.keepRest (c : Conn) (rest : Bytes) : Grows c (c.keepRest rest) := by
  unfold Conn.keepRest
  dsimp only
  generalize hc' : (if c.obuf.readableBytes + rest.length ≥ c.highWatermark && c.obuf.readableBytes < c.highWatermark &&
    c.highWatermarkCb then c.queueInLoop (.highWatermark (c.obuf.readableBytes + rest.length)) else c) = c'
  have hqueued : Grows c c' := by
    rw [← hc']
    split
    · exact .queueInLoop c _
    · exact .refl c
  split
  · exact hqueued.trans (.quiet (List.prefix_refl _) rfl (.inl rfl))
  · exact hqueued.trans (.quiet (List.prefix_refl _) rfl (.inl rfl))

theorem Grows.sendInloop (c : Conn) (data : Bytes) (w : WriteResult) : Grows c (c.sendInloop data w) := by
  unfold Conn.sendInloop
  split
  · exact .quiet (List.prefix_refl _) rfl (.inl rfl)
  · have hquiet : Grows c { c with sent := c.sent ++ data } := .quiet (List.prefix_refl _) rfl (.inl rfl)
    have hwritten := hquiet.trans (.tryWrite _ data w)
    dsimp only
    split
    · exact hwritten.trans (.keepRest _ _)
    · exact hwritten

theorem Grows.sendBound (c : Conn) (data : Bytes) (valid : Bool) (w : WriteResult) :
    Grows c (c.sendBound data valid w) := by
  unfold Conn.sendBound
  split
  · exact .sendInloop c data w
  · exact .quiet (List.prefix_refl _) rfl (.inl rfl)

theorem Grows.runFunctor (c : Conn) (w : WriteResult) (f : ConnFunctor) : Grows c (c.runFunctor w f) := by
  cases f with
  | writeComplete | highWatermark => exact .callback c (by simp)
  | sendInloop data valid => exact .sendBound c data valid w
  | shutdownInloop => exact .shutdownInloop c
  | forceCloseInloop =>
    unfold Conn.runFunctor Conn.forceCloseInloop
    dsimp only
    split
    · exact .handleClose c
    · exact .refl c

theorem Grows.connectDestroyed (c : Conn) : Grows c c.connectDestroyed := by
  unfold Conn.connectDestroyed
  split
  · have hquiet : Grows c { c.setState .disconnected with chan := c.chan.disableAll } :=
      .quiet (List.prefix_refl _) rfl (.inr (by simp [setState]))
    exact (hquiet.trans (.callback _ (by simp))).trans (.quiet (List.prefix_refl _) rfl (.inl rfl))
  · exact .quiet (List.prefix_refl _) rfl (.inl rfl)

theorem Grows.send (c : Conn) (data : Bytes) (w : WriteResult) : Grows c (c.send true data w) := by
  unfold Conn.send
  split
  · exact .sendInloop c data w
  · exact .refl c

theorem Grows.shutdown (c : Conn) : Grows c (c.shutdown true) := by
  unfold Conn.shutdown
  split
  · have hquiet : Grows c (c.setState .disconnecting) := .quiet (List.prefix_refl _) rfl (.inr (by simp [setState]))
    exact hquiet.trans (.shutdownInloop _)
  · exact .refl c

theorem Grows.forceClose (c : Conn) : Grows c c.forceClose := by
  unfold Conn.forceClose
  split
  · have hquiet : Grows c (c.setState .disconnecting) := .quiet (List.prefix_refl _) rfl (.inr (by simp [setState]))
    exact hquiet.trans (.queueInLoop _ _)
  · exact .refl c

theorem Grows.stringEnds (c : Conn) (k : ℕ) : Grows c (c.stringEnds k) :=
  .quiet (by rw [calling_stringEnds]) rfl (.inl rfl)

end Conn

/-- The connection a functor is for. -/
def ServerFunctor.conn : ServerFunctor → ℕ
  | .established i | .own i | .removeInLoop i | .destroyed i => i

/-- The loop that is handed the functor. -/
def ServerFunctor.home (o : ServerConn) : ServerFunctor → ℕ
  | .removeInLoop _ => 0
  | _ => o.loop

def ConnCaller.conn : ConnCaller → Option ℕ
  | .idle => none
  | .toStore i _ | .toQueue i _ => some i

namespace TcpServer

namespace System

/-- What a connection still owes: functors of its own to the queue, closes to the
server, and the run of a functor that has left the queue. -/
structure Due where
  own : ℕ
  closes : ℕ
  ups : ℕ
  destroyed : ℕ

def Due.none : Due := ⟨0, 0, 0, 0⟩

/-- What is due once the functor has left the queue. -/
def Due.of : ServerFunctor → Due
  | .established _ => ⟨0, 0, 1, 0⟩
  | .own _ => ⟨1, 0, 0, 0⟩
  | .removeInLoop _ => ⟨0, 1, 0, 0⟩
  | .destroyed _ => ⟨0, 0, 0, 1⟩

/-- A connection and the functors that wait for it. It is established first; each
close is one run of `remove_connection_inloop`, and each of these one of
`connect_destroyed`. -/
structure Kept (s : System) (i : ℕ) (o : ServerConn) (d : Due) : Prop where
  placed : ∀ l f, f.conn = i → f ∈ s.queue l → l = f.home o
  up : (s.queue o.loop).count (.established i) + o.conn.cbs.count .connUp + d.ups = 1
  first : o.conn.cbs.head? = some .connUp ∨ o.conn.cbs = []
  opening : o.conn.state = .connecting → o.conn.cbs = [] ∧ o.conn.queued = [] ∧ o.conn.chan.idx = .new
  opened : o.conn.state ≠ .connecting → o.conn.cbs ≠ []
  own : (s.queue o.loop).count (.own i) + d.own = o.conn.queued.length
  closed : o.removed + (s.queue 0).count (.removeInLoop i) + d.closes = o.conn.cbs.count .close
  removed : o.destroyed + (s.queue o.loop).count (.destroyed i) + d.destroyed = o.removed

/-- Connection `i` owes `d`, no other owes anything. -/
structure Owes (s : System) (i : ℕ) (d : Due) : Prop where
  kept : ∀ j o, s.conns[j]? = some o → Kept s j o (if j = i then d else Due.none)
  mapped : ∀ name j, s.server.connections name = some j ↔
    ∃ o, s.conns[j]? = some o ∧ o.name = name ∧ o.removed = 0
  known : ∀ l f, f ∈ s.queue l → f.conn < s.conns.length
  callers : ∀ t j, (s.callers t).conn = some j → ∃ o, s.conns[j]? = some o ∧ o.conn.state ≠ .connecting

variable {s s' : System} {i j l n : ℕ} {o o' : ServerConn} {c c' : Conn} {d d' : Due} {f : ServerFunctor}
  {fs : List ServerFunctor}

theorem Kept.congr (h : Kept s i o d) (hq : ∀ l f, f.conn = i → (s'.queue l).count f = (s.queue l).count f) :
    Kept s' i o d := by
  refine ⟨fun l f hf hmem => h.placed l f hf ?_, ?_, h.first, h.opening, h.opened, ?_, ?_, ?_⟩
  · rw [← List.count_pos_iff, ← hq l f hf]
    exact List.count_pos_iff.2 hmem
  · rw [hq _ (.established i) rfl]
    exact h.up
  · rw [hq _ (.own i) rfl]
    exact h.own
  · rw [hq _ (.removeInLoop i) rfl]
    exact h.closed
  · rw [hq _ (.destroyed i) rfl]
    exact h.removed

theorem Owes.self (h : Owes s i d) (ho : s.conns[i]? = some o) : Kept s i o d := by
  have hk := h.kept i o ho
  rwa [if_pos rfl] at hk

/-- Where nothing is due, any connection is the one that owes nothing. -/
theorem Owes.at (h : Owes s i Due.none) (j : ℕ) : Owes s j Due.none := by
  refine ⟨fun k o ho => ?_, h.mapped, h.known, h.callers⟩
  have hk := h.kept k o ho
  rw [ite_self] at hk ⊢
  exact hk

/-- One connection changes, and what waits for it. -/
theorem Owes.change (h : Owes s i d) (ho : s.conns[i]? = some o) (hconns : s'.conns = s.conns.set i o')
    (hcallers : s'.callers = s.callers)
    (hqueue : ∀ l f, f.conn ≠ i → (s'.queue l).count f = (s.queue l).count f)
    (hstate : o.conn.state ≠ .connecting → o'.conn.state ≠ .connecting)
    (hmapped : ∀ name j, s'.server.connections name = some j ↔
      ∃ o, s'.conns[j]? = some o ∧ o.name = name ∧ o.removed = 0)
    (hkept : Kept s' i o' d') : Owes s' i d' := by
  obtain ⟨hlt, -⟩ := List.getElem?_eq_some_iff.1 ho
  have hself : s'.conns[i]? = some o' := by rw [hconns, List.getElem?_set_self hlt]
  have hother : ∀ j, j ≠ i → s'.conns[j]? = s.conns[j]? := fun j hj => by rw [hconns, List.getElem?_set_ne hj.symm]
  refine ⟨fun j p hp => ?_, hmapped, fun l f hf => ?_, fun t j hj => ?_⟩
  · by_cases hji : j = i
    · subst hji
      rw [hself] at hp
      cases hp
      rw [if_pos rfl]
      exact hkept
    · rw [hother j hji] at hp
      have hk := h.kept j p hp
      rw [if_neg hji] at hk ⊢
      exact hk.congr fun l f hf => hqueue l f (hf.trans_ne hji)
  · rw [hconns, List.length_set]
    by_cases hf' : f.conn = i
    · rwa [hf']
    · refine h.known l f ?_
      rw [← List.count_pos_iff, ← hqueue l f hf']
      exact List.count_pos_iff.2 hf
  · rw [hcallers] at hj
    obtain ⟨p, hp, hne⟩ := h.callers t j hj
    by_cases hji : j = i
    · subst hji
      rw [ho] at hp
      cases hp
      exact ⟨o', hself, hstate hne⟩
    · exact ⟨p, (hother j hji).trans hp, hne⟩

/-- The map stays as it is when nothing is removed. -/
theorem Owes.mapped_same (h : Owes s i d) (ho : s.conns[i]? = some o) (hconns : s'.conns = s.conns.set i o')
    (hmap : s'.server.connections = s.server.connections) (hname : o'.name = o.name) (hremoved : o'.removed = o.removed)
    (name : String) (j : ℕ) :
    s'.server.connections name = some j ↔ ∃ o, s'.conns[j]? = some o ∧ o.name = name ∧ o.removed = 0 := by
  obtain ⟨hlt, -⟩ := List.getElem?_eq_some_iff.1 ho
  rw [hmap, h.mapped name j, hconns]
  by_cases hji : j = i
  · subst hji
    rw [ho, List.getElem?_set_self hlt]
    simp only [Option.some.injEq, exists_eq_left', hname, hremoved]
  · rw [List.getElem?_set_ne (Ne.symm hji)]

/-! ## The steps of a loop -/

theorem count_push (s : System) (l : ℕ) (fs : List ServerFunctor) (k : ℕ) (f : ServerFunctor) :
    ((s.push l fs).queue k).count f = (s.queue k).count f + if k = l then fs.count f else 0 := by
  unfold push
  dsimp only
  by_cases hk : k = l
  · subst hk
    rw [Function.update_self, List.count_append, if_pos rfl]
  · rw [Function.update_of_ne hk, if_neg hk, Nat.add_zero]

theorem count_push_of_not_mem (hf : f ∉ fs) (k : ℕ) : ((s.push l fs).queue k).count f = (s.queue k).count f := by
  rw [count_push, List.count_eq_zero.2 hf, ite_self, Nat.add_zero]

theorem mem_push {k : ℕ} (h : f ∈ (s.push l fs).queue k) : f ∈ s.queue k ∨ k = l ∧ f ∈ fs := by
  unfold push at h
  dsimp only at h
  by_cases hk : k = l
  · subst hk
    rw [Function.update_self, List.mem_append] at h
    exact h.imp_right fun hf => ⟨rfl, hf⟩
  · rw [Function.update_of_ne hk] at h
    exact .inl h

/-- Functors are handed to their loop, and `d` is what is due then. -/
theorem Owes.push (h : Owes s i d) (ho : s.conns[i]? = some o) (hfs : ∀ f ∈ fs, f.conn = i ∧ l = f.home o)
    (hkept : Kept (s.push l fs) i o d') : Owes (s.push l fs) i d' := by
  have hset : s.conns.set i o = s.conns := by
    obtain ⟨hlt, he⟩ := List.getElem?_eq_some_iff.1 ho
    rw [← he, List.set_getElem_self]
  have hconns : (s.push l fs).conns = s.conns.set i o := by
    rw [hset]
    rfl
  refine h.change ho hconns rfl (fun k f hf => ?_) id
    (h.mapped_same ho (by rw [hset]; rfl) rfl rfl rfl) hkept
  exact count_push_of_not_mem (fun hmem => hf (hfs f hmem).1) k

/-- A member function runs: what it has queued and closed is due. -/
theorem Owes.setConn (h : Owes s i d) (ho : s.conns[i]? = some o)
    (hups : c.cbs.count .connUp + d'.ups = o.conn.cbs.count .connUp + d.ups)
    (hfirst : c.cbs.head? = some .connUp ∨ c.cbs = [])
    (hopening : c.state = .connecting → c.cbs = [] ∧ c.queued = [] ∧ c.chan.idx = .new)
    (hopened : c.state ≠ .connecting → c.cbs ≠ [])
    (hstate : o.conn.state ≠ .connecting → c.state ≠ .connecting)
    (hown : c.queued.length + d.own = o.conn.queued.length + d'.own)
    (hclosed : c.cbs.count .close + d.closes = o.conn.cbs.count .close + d'.closes)
    (hdestroyed : o'.destroyed + d'.destroyed = o.destroyed + d.destroyed)
    (ho' : o' = { o with conn := c, destroyed := o'.destroyed }) : Owes (s.setConn i o') i d' := by
  have hk := h.self ho
  have hup := hk.up
  have howned := hk.own
  have hclose := hk.closed
  have hremove := hk.removed
  rw [ho'] at hdestroyed ⊢
  dsimp only at hdestroyed
  refine h.change ho rfl rfl (fun _ _ _ => rfl) hstate (h.mapped_same ho rfl rfl rfl rfl) ?_
  refine ⟨?_, ?_, hfirst, hopening, hopened, ?_, ?_, ?_⟩
  · intro l f hf hmem
    rw [hk.placed l f hf hmem]
    cases f <;> rfl
  · show (s.queue o.loop).count (.established i) + c.cbs.count .connUp + d'.ups = 1
    omega
  · show (s.queue o.loop).count (.own i) + d'.own = c.queued.length
    omega
  · show o.removed + (s.queue 0).count (.removeInLoop i) + d'.closes = c.cbs.count .close
    omega
  · show o'.destroyed + (s.queue o.loop).count (.destroyed i) + d'.destroyed = o.removed
    omega

theorem Owes.pushOwn {m k : ℕ} (h : Owes s i ⟨m, k, 0, 0⟩) (ho : s.conns[i]? = some o) :
    Owes (s.push o.loop (List.replicate m (.own i))) i ⟨0, k, 0, 0⟩ := by
  have hk := h.self ho
  have hown := hk.own
  have hcount : ∀ (l : ℕ) (f : ServerFunctor), f ≠ .own i →
      ((s.push o.loop (List.replicate m (.own i))).queue l).count f = (s.queue l).count f :=
    fun l f hf => count_push_of_not_mem (fun hmem => hf (List.eq_of_mem_replicate hmem)) l
  refine h.push ho (fun f hf => ?_) ⟨fun l f hf hmem => ?_, ?_, hk.first, hk.opening, hk.opened, ?_, ?_, ?_⟩
  · obtain rfl := List.eq_of_mem_replicate hf
    exact ⟨rfl, rfl⟩
  · rcases mem_push hmem with hold | ⟨rfl, hnew⟩
    · exact hk.placed l f hf hold
    · obtain rfl := List.eq_of_mem_replicate hnew
      rfl
  · rw [hcount _ _ (by simp)]
    exact hk.up
  · rw [count_push, List.count_replicate_self, if_pos rfl]
    dsimp only at hown ⊢
    omega
  · rw [hcount _ _ (by simp)]
    exact hk.closed
  · rw [hcount _ _ (by simp)]
    exact hk.removed

/-- `remove_connection_inloop` takes the connection out of the map, where no other
has its name. -/
theorem Owes.removeConnectionInloop {k : ℕ} (hl : Laid s) (h : Owes s i ⟨0, k + 1, 0, 0⟩) (ho : s.conns[i]? = some o) :
    Owes (s.removeConnectionInloop i) i ⟨0, k, 0, 0⟩ := by
  have hk := h.self ho
  have hclose := hk.closed
  have hremove := hk.removed
  obtain ⟨hlt, -⟩ := List.getElem?_eq_some_iff.1 ho
  have he : s.removeConnectionInloop i =
      ({ s with server := { s.server with connections := Function.update s.server.connections o.name none } }.setConn i
        { o with removed := o.removed + 1 }).push o.loop [.destroyed i] := by
    simp only [System.removeConnectionInloop, ho]
  rw [he]
  have hcount : ∀ (l : ℕ) (f : ServerFunctor), f ≠ .destroyed i →
      (((System.setConn { s with server := { s.server with
        connections := Function.update s.server.connections o.name none } } i
        { o with removed := o.removed + 1 }).push o.loop [.destroyed i]).queue l).count f = (s.queue l).count f := by
    exact fun l f hf => count_push_of_not_mem (fun hmem => hf (List.mem_singleton.1 hmem)) l
  refine h.change ho rfl rfl (fun l f hf => ?_) id (fun name j => ?_) ⟨fun l f hf hmem => ?_, ?_, hk.first, hk.opening,
    hk.opened, ?_, ?_, ?_⟩
  · exact hcount l f fun he => hf (by rw [he]; rfl)
  · show Function.update s.server.connections o.name none name = some j ↔
      ∃ p, (s.conns.set i { o with removed := o.removed + 1 })[j]? = some p ∧ p.name = name ∧ p.removed = 0
    by_cases hname : name = o.name
    · subst hname
      rw [Function.update_self]
      refine iff_of_false (by simp) ?_
      rintro ⟨p, hp, hname, hzero⟩
      by_cases hji : j = i
      · subst hji
        rw [List.getElem?_set_self hlt] at hp
        cases hp
        exact absurd hzero (Nat.succ_ne_zero _)
      · rw [List.getElem?_set_ne (Ne.symm hji)] at hp
        exact hji (hl.name_inj hp ho hname)
    · rw [Function.update_of_ne hname, h.mapped name j]
      by_cases hji : j = i
      · subst hji
        rw [ho, List.getElem?_set_self hlt]
        simp only [Option.some.injEq, exists_eq_left', Ne.symm hname, false_and]
      · rw [List.getElem?_set_ne (Ne.symm hji)]
  · rcases mem_push hmem with hold | ⟨rfl, hnew⟩
    · rw [hk.placed l f hf hold]
      cases f <;> rfl
    · rw [List.mem_singleton.1 hnew]
      rfl
  · rw [hcount _ _ (by simp)]
    exact hk.up
  · rw [hcount _ _ (by simp)]
    exact hk.own
  · rw [hcount _ _ (by simp)]
    dsimp only at hclose ⊢
    omega
  · rw [count_push, if_pos rfl, List.count_singleton_self]
    dsimp only at hremove ⊢
    show o.destroyed + ((s.queue o.loop).count (.destroyed i) + 1) + 0 = o.removed + 1
    omega

theorem Owes.removeConnection {k thread : ℕ} (hl : Laid s) (h : Owes s i ⟨0, k + 1, 0, 0⟩)
    (ho : s.conns[i]? = some o) : Owes (s.removeConnection thread i) i ⟨0, k, 0, 0⟩ := by
  unfold System.removeConnection
  split
  · exact h.removeConnectionInloop hl ho
  · have hk := h.self ho
    have hclose := hk.closed
    have hcount : ∀ (l : ℕ) (f : ServerFunctor), f ≠ .removeInLoop i →
        ((s.push 0 [.removeInLoop i]).queue l).count f = (s.queue l).count f :=
      fun l f hf => count_push_of_not_mem (fun hmem => hf (List.mem_singleton.1 hmem)) l
    refine h.push ho (fun f hf => ?_) ⟨fun l f hf hmem => ?_, ?_, hk.first, hk.opening, hk.opened, ?_, ?_, ?_⟩
    · rw [List.mem_singleton.1 hf]
      exact ⟨rfl, rfl⟩
    · rcases mem_push hmem with hold | ⟨rfl, hnew⟩
      · exact hk.placed l f hf hold
      · rw [List.mem_singleton.1 hnew]
        rfl
    · rw [hcount _ _ (by simp)]
      exact hk.up
    · rw [hcount _ _ (by simp)]
      exact hk.own
    · rw [count_push, if_pos rfl, List.count_singleton_self]
      dsimp only at hclose ⊢
      omega
    · rw [hcount _ _ (by simp)]
      exact hk.removed

theorem conns_removeConnection (thread : ℕ) (ho : s.conns[i]? = some o) :
    ∃ o', (s.removeConnection thread i).conns[i]? = some o' := by
  obtain ⟨hlt, -⟩ := List.getElem?_eq_some_iff.1 ho
  unfold System.removeConnection
  split
  · simp only [System.removeConnectionInloop, ho]
    exact ⟨_, List.getElem?_set_self hlt⟩
  · exact ⟨o, ho⟩

theorem Owes.removeConnections {thread k : ℕ} (hl : Laid s) (h : Owes s i ⟨0, k, 0, 0⟩) (ho : s.conns[i]? = some o) :
    Owes (s.removeConnections thread i k) i Due.none := by
  induction k generalizing s o with
  | zero => exact h
  | succ k ih =>
    obtain ⟨o', ho'⟩ := conns_removeConnection thread ho
    exact ih (hl.congr (shape_removeConnections s thread i 1)) (h.removeConnection hl ho) ho'

theorem Owes.settle {u : ℕ} (hl : Laid s) (h : Owes s i ⟨0, 0, u, 0⟩) (ho : s.conns[i]? = some o)
    (hups : c.cbs.count .connUp = o.conn.cbs.count .connUp + u)
    (hfirst : c.cbs.head? = some .connUp ∨ c.cbs = [])
    (hopening : c.state = .connecting → c.cbs = [] ∧ c.queued = [] ∧ c.chan.idx = .new)
    (hopened : c.state ≠ .connecting → c.cbs ≠ [])
    (hstate : o.conn.state ≠ .connecting → c.state ≠ .connecting)
    (hqueued : o.conn.queued.length ≤ c.queued.length) (hcloses : o.conn.cbs.count .close ≤ c.cbs.count .close) :
    Owes (s.settle i c) i Due.none := by
  obtain ⟨hlt, -⟩ := List.getElem?_eq_some_iff.1 ho
  have hset : Owes (s.setConn i { o with conn := c }) i
      ⟨c.queued.length - o.conn.queued.length, c.cbs.count .close - o.conn.cbs.count .close, 0, 0⟩ := by
    refine h.setConn ho ?_ hfirst hopening hopened hstate ?_ ?_ rfl rfl
    · exact hups
    · dsimp only
      omega
    · dsimp only
      omega
  have hself : (s.setConn i { o with conn := c }).conns[i]? = some { o with conn := c } := List.getElem?_set_self hlt
  have hpushed := hset.pushOwn hself
  have hl' : Laid ((s.setConn i { o with conn := c }).push o.loop
      (List.replicate (c.queued.length - o.conn.queued.length) (.own i))) :=
    hl.congr (shape_setConn ho rfl rfl)
  simp only [System.settle, ho]
  exact hpushed.removeConnections hl' hself

/-- A member function other than `connect_established` runs. -/
theorem Owes.call {g : Conn → Conn} (hl : Laid s) (h : Owes s i Due.none)
    (hgrows : ∀ o, s.conns[i]? = some o →
      Conn.Grows o.conn (g o.conn) ∧ (o.conn.state = .connecting → g o.conn = o.conn)) :
    Owes (s.call i g) i Due.none := by
  unfold System.call
  split
  · exact h
  · rename_i o ho
    have hk := h.self ho
    obtain ⟨hg, hsame⟩ := hgrows o ho
    by_cases hc : o.conn.state = .connecting
    · rw [hsame hc]
      exact h.settle hl ho rfl hk.first hk.opening hk.opened id (Nat.le_refl _) (Nat.le_refl _)
    · have hne := hk.opened hc
      have hhead : (g o.conn).cbs.head? = some .connUp := by
        rcases hk.first with hhead | hnil
        · obtain ⟨m, hm⟩ := hg.cbs
          rw [← hm, List.head?_append, hhead]
          rfl
        · exact absurd hnil hne
      refine h.settle hl ho hg.ups (.inl hhead) (fun he => absurd he (hg.state hc)) (fun _ hnil => ?_) hg.state
        hg.length_le (hg.cbs.sublist.count_le _)
      rw [hnil] at hhead
      cases hhead

/-- `connect_established` runs, for the first time. -/
theorem Owes.connectEstablished (hl : Laid s) (h : Owes s i ⟨0, 0, 1, 0⟩) (ho : s.conns[i]? = some o) :
    Owes (s.connectEstablished i) i Due.none := by
  have hk := h.self ho
  have hup := hk.up
  have hnil : o.conn.cbs = [] := by
    rcases hk.first with hhead | hnil
    · obtain ⟨m, hm⟩ := List.head?_eq_some_iff.1 hhead
      rw [hm, List.count_cons_self] at hup
      dsimp only at hup
      omega
    · exact hnil
  have hc : o.conn.state = .connecting := by
    by_contra hne
    exact hk.opened hne hnil
  obtain ⟨-, hqueued, -⟩ := hk.opening hc
  have hcbs : o.conn.connectEstablished.cbs = [.connUp] := by
    show o.conn.cbs ++ [.connUp] = _
    rw [hnil, List.nil_append]
  unfold System.connectEstablished System.call
  rw [ho]
  dsimp only
  refine h.settle hl ho ?_ (.inl ?_) (fun he => (by cases he)) (fun _ => ?_) (fun _ he => (by cases he)) ?_ ?_
  · rw [hcbs, hnil]
    rfl
  · rw [hcbs]
    rfl
  · rw [hcbs]
    simp
  · rw [hqueued]
    exact Nat.zero_le _
  · rw [hnil]
    exact Nat.zero_le _

/-- A functor leaves the queue. -/
theorem Owes.pop (h : Owes s i Due.none) (hq : s.queue l = f :: fs) :
    Owes { s with queue := Function.update s.queue l fs } f.conn (Due.of f) ∧ ∃ o, s.conns[f.conn]? = some o := by
  have hmem : f ∈ s.queue l := by
    rw [hq]
    exact List.mem_cons_self
  have hlt := h.known l f hmem
  have ho := List.getElem?_eq_getElem hlt
  refine ⟨?_, _, ho⟩
  have hk := (h.at f.conn).self ho
  have hhome := hk.placed l f rfl hmem
  have hcount : ∀ (k : ℕ) (g : ServerFunctor), (s.queue k).count g =
      ((Function.update s.queue l fs) k).count g + if k = l ∧ g = f then 1 else 0 := by
    intro k g
    by_cases hkl : k = l
    · subst hkl
      rw [Function.update_self, hq]
      by_cases hgf : g = f
      · subst hgf
        rw [List.count_cons_self, if_pos ⟨rfl, rfl⟩]
      · rw [List.count_cons_of_ne (Ne.symm hgf), if_neg fun he => hgf he.2]
        rfl
    · rw [Function.update_of_ne hkl, if_neg fun he => hkl he.1]
      rfl
  have hset : s.conns.set f.conn s.conns[f.conn] = s.conns := List.set_getElem_self hlt
  refine (h.at f.conn).change ho hset.symm rfl (fun k g hg => ?_) id
    ((h.at f.conn).mapped_same ho hset.symm rfl rfl rfl) ?_
  · have hne : ¬ (k = l ∧ g = f) := fun he => hg (by rw [he.2])
    rw [hcount k g, if_neg hne]
    rfl
  · have hup := hk.up
    have hown := hk.own
    have hclosed := hk.closed
    have hremoved := hk.removed
    rw [hcount] at hup hown hclosed hremoved
    refine ⟨fun k g hg hm => hk.placed k g hg ?_, ?_, hk.first, hk.opening, hk.opened, ?_, ?_, ?_⟩
    · rw [← List.count_pos_iff, hcount k g]
      exact Nat.add_pos_left (List.count_pos_iff.2 hm) _
    all_goals
      cases f with
      | established i | own i | removeInLoop i | destroyed i =>
        dsimp only [ServerFunctor.conn, Due.none, Due.of, ServerFunctor.home] at hhome hup hown hclosed hremoved ⊢
        simp only [hhome, reduceCtorEq, and_false, and_true, if_true, if_false] at hup hown hclosed hremoved ⊢
        omega

theorem Owes.functor {w : WriteResult} (hl : Laid s) (h : Owes s i Due.none) (hq : s.queue l = f :: fs) :
    Owes (runFunctor { s with queue := Function.update s.queue l fs } w f) f.conn Due.none := by
  obtain ⟨hpop, o, ho⟩ := h.pop hq
  have hl' : Laid { s with queue := Function.update s.queue l fs } := hl.congr rfl
  obtain ⟨hlt, -⟩ := List.getElem?_eq_some_iff.1 ho
  have hk := hpop.self ho
  cases f with
  | established i => exact hpop.connectEstablished hl' ho
  | own i =>
    have hown : _ + 1 = o.conn.queued.length := hk.own
    simp only [runFunctor, ServerFunctor.conn] at ho hk ⊢
    rw [ho]
    dsimp only
    cases hqueued : o.conn.queued with
    | nil =>
      rw [hqueued] at hown
      cases hown
    | cons g gs =>
      dsimp only
      -- It has functors of its own, so it is established.
      have hne : o.conn.state ≠ .connecting := by
        intro hc
        rw [(hk.opening hc).2.1] at hqueued
        cases hqueued
      have hset : Owes (System.setConn { s with queue := Function.update s.queue l fs } i
          { o with conn := { o.conn with queued := gs } }) i Due.none := by
        refine hpop.setConn (c := { o.conn with queued := gs }) ho rfl hk.first (fun hc => absurd hc hne) hk.opened id
          ?_ rfl rfl rfl
        rw [hqueued]
        rfl
      have hself : (System.setConn { s with queue := Function.update s.queue l fs } i
          { o with conn := { o.conn with queued := gs } }).conns[i]? =
            some { o with conn := { o.conn with queued := gs } } := List.getElem?_set_self hlt
      refine hset.call (hl'.congr (shape_setConn ho rfl rfl)) fun p hp => ?_
      rw [hself] at hp
      cases hp
      exact ⟨.runFunctor _ w g, fun hc => absurd hc hne⟩
  | removeInLoop i => exact hpop.removeConnectionInloop hl' ho
  | destroyed i =>
    have hremoved : _ + 1 = o.removed := hk.removed
    have hclosed : o.removed + _ + 0 = o.conn.cbs.count .close := hk.closed
    simp only [runFunctor, ServerFunctor.conn] at ho hk ⊢
    rw [ho]
    dsimp only
    -- It has been closed, so it is established.
    have hne : o.conn.state ≠ .connecting := by
      intro hc
      rw [(hk.opening hc).1, List.count_nil] at hclosed
      omega
    have hset : Owes (System.setConn { s with queue := Function.update s.queue l fs } i
        { o with destroyed := o.destroyed + 1 }) i Due.none :=
      hpop.setConn (c := o.conn) ho rfl hk.first hk.opening hk.opened id rfl rfl rfl rfl
    have hself : (System.setConn { s with queue := Function.update s.queue l fs } i
        { o with destroyed := o.destroyed + 1 }).conns[i]? = some { o with destroyed := o.destroyed + 1 } :=
      List.getElem?_set_self hlt
    refine hset.call (hl'.congr (shape_setConn ho rfl rfl)) fun p hp => ?_
    rw [hself] at hp
    cases hp
    exact ⟨.connectDestroyed _, fun hc => absurd hc hne⟩

/-- A new connection, before it is handed to its loop. -/
def added (s : System) : System :=
  { s with
    server := { s.server with
      threadpool := s.server.threadpool.getNextloop.2, nextConnid := s.server.nextConnid + 1
      connections := Function.update s.server.connections (s.server.connName s.server.nextConnid)
        (some s.conns.length) }
    conns := s.conns ++ [{
      name := s.server.connName s.server.nextConnid, loop := s.server.threadpool.getNextloop.1
      conn := Conn.new s.server.writeCompleteCb false (64 * 1024 * 1024), removed := 0, destroyed := 0 }] }

theorem added_laid (hl : Laid s) (hid : s.server.nextConnid < intMax) : Laid s.added := by
  have h := newConnection_laid hl hid
  refine h.congr ?_
  unfold newConnection
  dsimp only
  split
  · exact (shape_call s.added s.conns.length _).symm
  · rfl

theorem Owes.added (hl : Laid s) (hid : s.server.nextConnid < intMax) (h : Owes s i Due.none) :
    Owes s.added s.conns.length ⟨0, 0, 1, 0⟩ := by
  have hnone : ∀ (l : ℕ) (f : ServerFunctor), f.conn = s.conns.length → f ∉ s.queue l := by
    intro l f hf hmem
    have hlt := h.known l f hmem
    omega
  have hold : ∀ (j : ℕ) (o : ServerConn), s.conns[j]? = some o → s.added.conns[j]? = some o := by
    intro j o ho
    obtain ⟨hlt, -⟩ := List.getElem?_eq_some_iff.1 ho
    exact (List.getElem?_append_left hlt).trans ho
  have hnew : ∀ (j : ℕ) (o : ServerConn), s.added.conns[j]? = some o → s.conns[j]? = some o ∨ j = s.conns.length := by
    intro j o ho
    by_cases hj : j = s.conns.length
    · exact .inr hj
    · obtain ⟨hlt, -⟩ := List.getElem?_eq_some_iff.1 ho
      rw [System.added, List.length_append, List.length_singleton] at hlt
      rw [System.added, List.getElem?_append_left (by omega)] at ho
      exact .inl ho
  have hself : s.added.conns[s.conns.length]? = some {
      name := s.server.connName s.server.nextConnid, loop := s.server.threadpool.getNextloop.1
      conn := Conn.new s.server.writeCompleteCb false (64 * 1024 * 1024), removed := 0, destroyed := 0 } :=
    List.getElem?_concat_length
  refine ⟨fun j o ho => ?_, fun name j => ?_, fun l f hf => ?_, fun t j hj => ?_⟩
  · rcases hnew j o ho with ho' | rfl
    · obtain ⟨hlt, -⟩ := List.getElem?_eq_some_iff.1 ho'
      rw [if_neg (by omega)]
      exact ((h.at j).self ho').congr fun _ _ _ => rfl
    · rw [hself] at ho
      cases ho
      have hzero : ∀ (l : ℕ) (f : ServerFunctor), f.conn = s.conns.length → (s.queue l).count f = 0 :=
        fun l f hf => List.count_eq_zero.2 (hnone l f hf)
      rw [if_pos rfl]
      refine ⟨fun l f hf hmem => absurd hmem (hnone l f hf), ?_, .inr rfl, fun _ => ⟨rfl, rfl, rfl⟩,
        fun hne => absurd rfl hne, ?_, ?_, ?_⟩
      · show (s.queue _).count (.established s.conns.length) + 0 + 1 = 1
        rw [hzero _ _ rfl]
      · show (s.queue _).count (.own s.conns.length) + 0 = 0
        rw [hzero _ _ rfl]
      · show 0 + (s.queue 0).count (.removeInLoop s.conns.length) + 0 = 0
        rw [hzero _ _ rfl]
      · show 0 + (s.queue _).count (.destroyed s.conns.length) + 0 = 0
        rw [hzero _ _ rfl]
  · show Function.update s.server.connections (s.server.connName s.server.nextConnid) (some s.conns.length) name =
      some j ↔ _
    by_cases hname : name = s.server.connName s.server.nextConnid
    · subst hname
      rw [Function.update_self]
      constructor
      · intro hj
        cases hj
        exact ⟨_, hself, rfl, rfl⟩
      · rintro ⟨o, ho, hname, -⟩
        rw [(added_laid hl hid).name_inj ho hself hname]
    · rw [Function.update_of_ne hname, h.mapped name j]
      constructor
      · rintro ⟨o, ho, hon, hzero⟩
        exact ⟨o, hold j o ho, hon, hzero⟩
      · rintro ⟨o, ho, hon, hzero⟩
        rcases hnew j o ho with ho' | rfl
        · exact ⟨o, ho', hon, hzero⟩
        · rw [hself] at ho
          cases ho
          exact absurd hon.symm hname
  · have hlt := h.known l f hf
    rw [System.added, List.length_append]
    omega
  · obtain ⟨o, ho, hne⟩ := h.callers t j hj
    exact ⟨o, hold j o ho, hne⟩

theorem Owes.newConnection (hl : Laid s) (hid : s.server.nextConnid < intMax) (h : Owes s i Due.none) :
    Owes s.newConnection s.conns.length Due.none := by
  have hadded := h.added hl hid
  have hself : s.added.conns[s.conns.length]? = some _ := List.getElem?_concat_length
  unfold System.newConnection
  dsimp only
  split
  · exact hadded.connectEstablished (added_laid hl hid) hself
  · have hk := hadded.self hself
    have hup : _ + 0 + 1 = 1 := hk.up
    have hcount : ∀ (l : ℕ) (f : ServerFunctor), f ≠ .established s.conns.length →
        ((s.added.push s.server.threadpool.getNextloop.1 [.established s.conns.length]).queue l).count f =
          (s.added.queue l).count f :=
      fun l f hf => count_push_of_not_mem (fun hmem => hf (List.mem_singleton.1 hmem)) l
    refine hadded.push hself (fun f hf => ?_) ⟨fun l f hf hmem => ?_, ?_, hk.first, hk.opening, hk.opened, ?_, ?_, ?_⟩
    · rw [List.mem_singleton.1 hf]
      exact ⟨rfl, rfl⟩
    · rcases mem_push hmem with hold | ⟨rfl, hnew⟩
      · exact hk.placed l f hf hold
      · rw [List.mem_singleton.1 hnew]
        rfl
    · rw [count_push, if_pos rfl, List.count_singleton_self]
      show _ + 1 + 0 + 0 = 1
      omega
    · rw [hcount _ _ (by simp)]
      exact hk.own
    · rw [hcount _ _ (by simp)]
      exact hk.closed
    · rw [hcount _ _ (by simp)]
      exact hk.removed

/-! ## Runs -/

theorem conns_removeConnections (ho : s.conns[i]? = some o) (thread n : ℕ) :
    (∃ o', (s.removeConnections thread i n).conns[i]? = some o' ∧ o'.conn = o.conn ∧ o'.destroyed = o.destroyed) ∧
      ∀ j, j ≠ i → (s.removeConnections thread i n).conns[j]? = s.conns[j]? := by
  induction n generalizing s o with
  | zero => exact ⟨⟨o, ho, rfl, rfl⟩, fun _ _ => rfl⟩
  | succ n ih =>
    obtain ⟨hlt, -⟩ := List.getElem?_eq_some_iff.1 ho
    unfold System.removeConnections System.removeConnection
    split
    · have hself : (s.removeConnectionInloop i).conns[i]? = some { o with removed := o.removed + 1 } := by
        simp only [System.removeConnectionInloop, ho]
        exact List.getElem?_set_self hlt
      have hother : ∀ j, j ≠ i → (s.removeConnectionInloop i).conns[j]? = s.conns[j]? := by
        intro j hj
        simp only [System.removeConnectionInloop, ho]
        exact List.getElem?_set_ne hj.symm
      obtain ⟨hmine, hrest⟩ := ih hself
      exact ⟨hmine, fun j hj => (hrest j hj).trans (hother j hj)⟩
    · exact ih (s := s.push 0 [.removeInLoop i]) ho

/-- A member function changes its own connection only. -/
theorem conns_call (ho : s.conns[i]? = some o) (g : Conn → Conn) :
    (∃ o', (s.call i g).conns[i]? = some o' ∧ o'.conn = g o.conn ∧ o'.destroyed = o.destroyed) ∧
      ∀ j, j ≠ i → (s.call i g).conns[j]? = s.conns[j]? := by
  obtain ⟨hlt, -⟩ := List.getElem?_eq_some_iff.1 ho
  have hself : ((s.setConn i { o with conn := g o.conn }).push o.loop
      (List.replicate ((g o.conn).queued.length - o.conn.queued.length) (.own i))).conns[i]? =
        some { o with conn := g o.conn } := List.getElem?_set_self hlt
  obtain ⟨hmine, hrest⟩ := conns_removeConnections hself o.loop ((g o.conn).cbs.count .close - o.conn.cbs.count .close)
  unfold System.call System.settle
  rw [ho]
  exact ⟨hmine, fun j hj => (hrest j hj).trans (List.getElem?_set_ne hj.symm)⟩

theorem Owes.setCaller {t : ℕ} {k : ConnCaller} (h : Owes s i d)
    (hk : ∀ j, k.conn = some j → ∃ o, s.conns[j]? = some o ∧ o.conn.state ≠ .connecting) :
    Owes (s.setCaller t k) i d := by
  refine ⟨fun j o ho => (h.kept j o ho).congr fun _ _ _ => rfl, h.mapped, h.known, fun u j hj => ?_⟩
  have hj' : (Function.update s.callers t k u).conn = some j := hj
  by_cases hu : u = t
  · subst hu
    rw [Function.update_self] at hj'
    exact hk j hj'
  · rw [Function.update_of_ne hu] at hj'
    exact h.callers u j hj'

theorem test_conn {c : Conn} {call : ConnCall} (h : (test c i call).conn = some j) :
    j = i ∧ c.state ≠ .connecting := by
  cases call with
  | send data | shutdown =>
    simp only [test] at h
    split at h
    · rename_i hc
      cases h
      exact ⟨rfl, by rw [hc]; simp⟩
    · cases h
  | forceClose =>
    simp only [test] at h
    split at h
    · rename_i hc
      cases h
      refine ⟨rfl, ?_⟩
      rcases hc with hc | hc <;> rw [hc] <;> simp
    · cases h

theorem Owes.event {r : ReadvResult} {w : WriteResult} {cbs : List Channel.Callback} (hl : Laid s)
    (h : Owes s i Due.none) (ho : s.conns[i]? = some o) (hne : o.conn.state ≠ .connecting) :
    Owes (cbs.foldl (fun s cb => s.call i (Conn.runCallback r w · cb)) s) i Due.none := by
  induction cbs generalizing s o with
  | nil => exact h
  | cons cb cbs ih =>
    obtain ⟨⟨o', ho', hconn, -⟩, -⟩ := conns_call ho (Conn.runCallback r w · cb)
    have hgrows := Conn.Grows.runCallback o.conn r w cb
    refine ih (hl.congr (shape_call s i _)) (h.call hl fun p hp => ?_) ho' ?_
    · rw [ho] at hp
      cases hp
      exact ⟨hgrows, fun hc => absurd hc hne⟩
    · rw [hconn]
      exact hgrows.state hne

theorem step_owes {a : Act} (hl : Laid s) (h : Owes s 0 Due.none) (hs : s.step a = some s') : Owes s' 0 Due.none := by
  cases a with
  | accept =>
    simp only [step] at hs
    split at hs
    · rename_i hid
      cases hs
      exact (h.newConnection hl hid).at 0
    · cases hs
  | functor l w =>
    simp only [step] at hs
    split at hs
    · cases hs
    · rename_i hq
      cases hs
      exact (h.functor hl hq).at 0
  | event i revents r w =>
    simp only [step] at hs
    split at hs
    · cases hs
    · rename_i o ho
      split at hs
      · rename_i hadded
        cases hs
        refine (Owes.event hl (h.at i) ho fun hc => ?_).at 0
        rw [(((h.at i).self ho).opening hc).2.2] at hadded
        cases hadded
      · cases hs
  | send i data w =>
    cases hs
    refine ((h.at i).call hl fun o _ => ⟨.send _ data w, fun hc => ?_⟩).at 0
    rw [Conn.send, hc]
    rfl
  | shutdown i =>
    cases hs
    refine ((h.at i).call hl fun o _ => ⟨.shutdown _, fun hc => ?_⟩).at 0
    rw [Conn.shutdown, hc]
    rfl
  | forceClose i =>
    cases hs
    refine ((h.at i).call hl fun o _ => ⟨.forceClose _, fun hc => ?_⟩).at 0
    rw [Conn.forceClose, hc]
    rfl
  | test t i call =>
    simp only [step] at hs
    split at hs
    · rename_i o _ ho
      cases hs
      refine h.setCaller fun j hj => ?_
      obtain ⟨rfl, hne⟩ := test_conn hj
      exact ⟨o, ho, hne⟩
    · cases hs
  | store t =>
    simp only [step] at hs
    split at hs
    · rename_i i f hcall
      split at hs
      · cases hs
      · rename_i o ho
        cases hs
        obtain ⟨p, hp, hne⟩ := h.callers t i (by rw [hcall]; rfl)
        rw [ho] at hp
        cases hp
        obtain ⟨hlt, -⟩ := List.getElem?_eq_some_iff.1 ho
        have hk := (h.at i).self ho
        have hdisconnecting : (o.conn.setState .disconnecting).state ≠ .connecting := by simp [Conn.setState]
        have hset : Owes (s.setConn i { o with conn := o.conn.setState .disconnecting }) i Due.none :=
          (h.at i).setConn (c := o.conn.setState .disconnecting) ho rfl hk.first (fun hc => absurd hc hdisconnecting)
            (fun _ => hk.opened hne) (fun _ => hdisconnecting) rfl rfl rfl rfl
        refine (hset.setCaller fun j hj => ?_).at 0
        cases hj
        exact ⟨_, List.getElem?_set_self hlt, hdisconnecting⟩
    · cases hs
  | queue t =>
    simp only [step] at hs
    split at hs
    · rename_i i f hcall
      cases hs
      obtain ⟨p, hp, hne⟩ := h.callers t i (by rw [hcall]; rfl)
      refine (((h.at i).call hl fun o ho => ⟨.queueInLoop _ f, fun hc => ?_⟩).setCaller fun j hj => (by cases hj)).at 0
      rw [ho] at hp
      cases hp
      exact absurd hc hne
    · cases hs
  | stringEnds i k =>
    cases hs
    refine Owes.at (i := i) ?_ 0
    refine (h.at i).call hl fun o ho => ⟨.stringEnds _ k, fun hc => ?_⟩
    have hnil := (((h.at i).self ho).opening hc).2.1
    have hsame : o.conn.queued.modify k ConnFunctor.stringEnds = o.conn.queued := by rw [hnil, List.modify_nil]
    rw [Conn.stringEnds, hsame]

theorem init_owes (listenAddr : InetAddress) (name : String) (numThreads : ℕ) (wc : Bool) :
    Owes (init listenAddr name numThreads wc) 0 Due.none := by
  refine ⟨fun j o ho => (by cases ho), fun name j => ⟨fun h => (by cases h), ?_⟩, fun l f hf => (by cases hf),
    fun t j hj => (by cases hj)⟩
  rintro ⟨o, ho, -⟩
  cases ho

theorem run_owes {listenAddr : InetAddress} {name : String} {numThreads : ℕ} {wc : Bool} {acts : List Act} {t : System}
    (h : Run.run step (init listenAddr name numThreads wc) acts = some t) : Laid t ∧ Owes t 0 Due.none := by
  refine Run.run_history (fun acts s => Laid s ∧ Owes s 0 Due.none)
    ⟨init_laid listenAddr name numThreads wc, init_owes listenAddr name numThreads wc⟩
    (fun acts s a t hs ih ht => ⟨run_laid (Run.run_concat.2 ⟨s, hs, ht⟩), step_owes ih.1 ih.2 ht⟩) h

/-- **The connections of a server.** No two have the same name, and the map holds
those that have not been removed. The first callback of a connection is `conn_cb_`
on the way up, once; `connect_destroyed` runs only after a close has been through
`remove_connection_inloop`, and when no loop has anything left to run, once for each
close. -/
theorem connections_kept {listenAddr : InetAddress} {name : String} {numThreads : ℕ} {wc : Bool} {acts : List Act}
    {t : System} (h : Run.run step (init listenAddr name numThreads wc) acts = some t) :
    (t.conns.map ServerConn.name).Nodup ∧
    (∀ name i, t.server.connections name = some i ↔ ∃ o, t.conns[i]? = some o ∧ o.name = name ∧ o.removed = 0) ∧
    ∀ (i : ℕ) (o : ServerConn), t.conns[i]? = some o →
      (o.conn.cbs = [] ∨ o.conn.cbs.head? = some .connUp ∧ o.conn.cbs.count .connUp = 1) ∧
      o.destroyed ≤ o.removed ∧ o.removed ≤ o.conn.cbs.count .close ∧
      ((∀ l, t.queue l = []) → o.conn.cbs.count .connUp = 1 ∧ o.removed = o.conn.cbs.count .close ∧
        o.destroyed = o.conn.cbs.count .close) := by
  obtain ⟨hlaid, howes⟩ := run_owes h
  refine ⟨?_, howes.mapped, fun i o ho => ?_⟩
  · refine List.pairwise_iff_getElem.2 fun i j hi hj hij he => ?_
    rw [List.getElem_map, List.getElem_map] at he
    rw [List.length_map] at hi hj
    have heq := hlaid.name_inj (List.getElem?_eq_getElem hi) (List.getElem?_eq_getElem hj) he
    omega
  · have hk := (howes.at i).self ho
    have hup : _ + o.conn.cbs.count .connUp + 0 = 1 := hk.up
    have hclosed : o.removed + _ + 0 = o.conn.cbs.count .close := hk.closed
    have hremoved : o.destroyed + _ + 0 = o.removed := hk.removed
    refine ⟨?_, by omega, by omega, fun hidle => ?_⟩
    · rcases hk.first with hhead | hnil
      · refine .inr ⟨hhead, ?_⟩
        obtain ⟨m, hm⟩ := List.head?_eq_some_iff.1 hhead
        have hpos : 0 < o.conn.cbs.count .connUp := by
          rw [hm, List.count_cons_self]
          exact Nat.succ_pos _
        omega
      · exact .inl hnil
    · rw [hidle, List.count_nil] at hup hclosed hremoved
      omega

/-- Three connections in two threads, of which the first is hung up. -/
def hangUp : List Act :=
  [.accept, .accept, .accept, .functor 1 (.ok 0), .functor 1 (.ok 0), .event 0 EPOLLHUP (.err 0) (.ok 0),
    .functor 0 (.ok 0), .functor 1 (.ok 0)]

theorem connections_kept_hangUp :
    ∃ t, Run.run step (init localhost "echo" 2 false) hangUp = some t ∧
      t.conns.map (fun o => (o.loop, o.destroyed)) = [(1, 1), (2, 0), (1, 0)] ∧
      (t.conns.map ServerConn.name).Nodup := by
  have heval : (Run.run step (init localhost "echo" 2 false) hangUp).map
      (fun s => s.conns.map fun o => (o.loop, o.destroyed)) = some [(1, 1), (2, 0), (1, 0)] := by decide +kernel
  obtain ⟨t, ht, hconns⟩ := Option.map_eq_some_iff.1 heval
  exact ⟨t, ht, hconns, (connections_kept ht).1⟩

end System

end TcpServer

end Learncc
