/-
A connection after its close: it stays DISCONNECTED, watches for nothing, and
nothing that it then does hands the loop a run of one of the user's callbacks.
-/
import Learncc.Mmuduo.TcpServerMap

namespace Learncc

namespace Conn

variable {c c' : Conn}

/-- DISCONNECTED, and watched for nothing. -/
def Shut (c : Conn) : Prop := c.state = .disconnected ∧ c.chan.events = Channel.knoneEvent

/-- What has been added to the queue runs none of the user's callbacks. -/
def Hushed (c c' : Conn) : Prop := ∃ k, c'.calling = c.calling ++ List.replicate k false

theorem Hushed.of_queued (h : c'.queued = c.queued) : c.Hushed c' :=
  ⟨0, by rw [calling, h, List.replicate_zero, List.append_nil, calling]⟩

theorem Hushed.refl (c : Conn) : c.Hushed c := .of_queued rfl

theorem Hushed.queueInLoop {f : ConnFunctor} (hf : f.calls = false) : c.Hushed (c.queueInLoop f) :=
  ⟨1, by rw [calling, Conn.queueInLoop, List.map_append, List.map_singleton, hf]; rfl⟩

theorem Hushed.quiet (h : c.Hushed c') (hq : ∀ b ∈ c.calling, b = false) : ∀ b ∈ c'.calling, b = false := by
  obtain ⟨k, hk⟩ := h
  intro b hb
  rw [hk, List.mem_append] at hb
  rcases hb with hb | hb
  · exact hq b hb
  · exact List.eq_of_mem_replicate hb

/-- What of a connection its end is about. -/
structure Still (c c' : Conn) : Prop where
  state : c'.state = c.state
  chan : c'.chan = c.chan
  cbs : c'.cbs = c.cbs
  hushed : c.Hushed c'

theorem Still.refl (c : Conn) : c.Still c := ⟨rfl, rfl, rfl, .refl c⟩

theorem Shut.of_still (h : c.Shut) (hs : c.Still c') : c'.Shut :=
  ⟨hs.state.trans h.1, by rw [hs.chan]; exact h.2⟩

theorem shut_handleClose (c : Conn) : c.handleClose.Shut := ⟨rfl, c.chan.disableAll_events⟩

theorem Shut.sendInloop (h : c.Shut) (data : Bytes) (w : WriteResult) : c.Still (c.sendInloop data w) := by
  unfold Conn.sendInloop
  rw [if_pos h.1]
  exact ⟨rfl, rfl, rfl, .of_queued rfl⟩

theorem Shut.sendBound (h : c.Shut) (data : Bytes) (valid : Bool) (w : WriteResult) :
    c.Still (c.sendBound data valid w) := by
  unfold Conn.sendBound
  split
  · exact h.sendInloop data w
  · exact ⟨rfl, rfl, rfl, .of_queued rfl⟩

theorem still_shutdownInloop (c : Conn) : c.Still c.shutdownInloop := by
  obtain ⟨sw, he⟩ := shutdownInloop_eq c
  rw [he]
  exact ⟨rfl, rfl, rfl, .of_queued rfl⟩

theorem Shut.handleWrite (h : c.Shut) (w : WriteResult) : c.Still (c.handleWrite w) := by
  have hwriting : c.chan.isWriting = false := by
    rw [Channel.isWriting, h.2]
    rfl
  unfold Conn.handleWrite
  rw [hwriting]
  exact .refl c

theorem Shut.not_open (h : c.Shut) : c.state ≠ .connected ∧ ¬ (c.state = .connected ∨ c.state = .disconnecting) := by
  rw [h.1]
  simp

theorem Shut.forceCloseInloop (h : c.Shut) : c.Still c.forceCloseInloop := by
  unfold Conn.forceCloseInloop
  rw [if_neg h.not_open.2]
  exact .refl c

theorem Shut.runFunctor (h : c.Shut) (w : WriteResult) {f : ConnFunctor} (hf : f.calls = false) :
    c.Still (c.runFunctor w f) := by
  cases f with
  | writeComplete | highWatermark => cases hf
  | sendInloop data valid => exact h.sendBound data valid w
  | shutdownInloop => exact still_shutdownInloop c
  | forceCloseInloop => exact h.forceCloseInloop

theorem Shut.hushed_runFunctor (h : c.Shut) (w : WriteResult) (f : ConnFunctor) : c.Hushed (c.runFunctor w f) := by
  cases f with
  | writeComplete | highWatermark => exact .of_queued rfl
  | sendInloop data valid => exact (h.sendBound data valid w).hushed
  | shutdownInloop => exact (still_shutdownInloop c).hushed
  | forceCloseInloop => exact h.forceCloseInloop.hushed

theorem Shut.hushed_runCallback (h : c.Shut) (r : ReadvResult) (w : WriteResult) (cb : Channel.Callback) :
    c.Hushed (Conn.runCallback r w c cb) := by
  cases cb with
  | close => exact .of_queued rfl
  | error => exact .refl c
  | read =>
    refine .of_queued ?_
    unfold Conn.runCallback Conn.handleRead
    dsimp only
    split
    · rfl
    · split <;> rfl
  | write => exact (h.handleWrite w).hushed

theorem Shut.send (h : c.Shut) (data : Bytes) (w : WriteResult) : c.Still (c.send true data w) := by
  unfold Conn.send
  rw [if_neg h.not_open.1]
  exact .refl c

theorem Shut.shutdown (h : c.Shut) : c.Still (c.shutdown true) := by
  unfold Conn.shutdown
  rw [if_neg h.not_open.1]
  exact .refl c

theorem Shut.forceClose (h : c.Shut) : c.Still c.forceClose := by
  unfold Conn.forceClose
  rw [if_neg h.not_open.2]
  exact .refl c

theorem still_stringEnds (c : Conn) (k : ℕ) : c.Still (c.stringEnds k) :=
  ⟨rfl, rfl, rfl, 0, by rw [calling_stringEnds, List.replicate_zero, List.append_nil]⟩

theorem Shut.connectDestroyed (h : c.Shut) :
    c.connectDestroyed.Shut ∧ c.connectDestroyed.cbs = c.cbs ∧ c.connectDestroyed.chan.idx = .new ∧
      c.connectDestroyed.queued = c.queued := by
  unfold Conn.connectDestroyed
  rw [if_neg h.not_open.1]
  exact ⟨h, rfl, rfl, rfl⟩

/-- A connection whose close callback has run is shut. -/
def Ended (c : Conn) : Prop := 0 < c.cbs.count .close → c.Shut

/-- Where no close callback runs. -/
theorem Ended.of_count (h : c.Ended) (hcount : c'.cbs.count .close = c.cbs.count .close)
    (hshut : c.Shut → c'.Shut) : c'.Ended := by
  intro hpos
  rw [hcount] at hpos
  exact hshut (h hpos)

theorem Ended.of_cbs (h : c.Ended) (hcbs : c'.cbs = c.cbs) (hstill : c.Shut → c.Still c') : c'.Ended :=
  h.of_count (by rw [hcbs]) fun hs => hs.of_still (hstill hs)

theorem Ended.callback (h : c.Ended) {cb : CbCall} (hcb : cb ≠ .close) : (c.callback cb).Ended := by
  refine h.of_count ?_ id
  rw [Conn.callback, List.count_append, List.count_singleton, if_neg (by simpa using hcb), Nat.add_zero]

theorem Ended.runCallback (h : c.Ended) (r : ReadvResult) (w : WriteResult) (cb : Channel.Callback) :
    (Conn.runCallback r w c cb).Ended := by
  cases cb with
  | close => exact fun _ => shut_handleClose c
  | error => exact h
  | read =>
    unfold Conn.runCallback Conn.handleRead
    dsimp only
    split
    · exact Ended.callback (c := { c with ibuf := (c.ibuf.readFd r).2 }) h (by simp)
    · split
      · exact fun _ => shut_handleClose _
      · exact h
  | write => exact h.of_cbs (Sys.handleWrite_state c w).2 fun hs => hs.handleWrite w

theorem Ended.runFunctor (h : c.Ended) (w : WriteResult) (f : ConnFunctor) : (c.runFunctor w f).Ended := by
  cases f with
  | writeComplete | highWatermark => exact h.callback (by simp)
  | sendInloop data valid =>
    exact h.of_cbs (Sys.sendBound_state c data valid w).2 fun hs => hs.sendBound data valid w
  | shutdownInloop => exact h.of_cbs (still_shutdownInloop c).cbs fun _ => still_shutdownInloop c
  | forceCloseInloop =>
    unfold Conn.runFunctor Conn.forceCloseInloop
    dsimp only
    split
    · exact fun _ => shut_handleClose c
    · exact h

theorem Ended.send (h : c.Ended) (data : Bytes) (w : WriteResult) : (c.send true data w).Ended := by
  refine h.of_cbs ?_ fun hs => hs.send data w
  unfold Conn.send
  split
  · exact (Sys.sendInloop_state c data w).2
  · rfl

theorem Ended.shutdown (h : c.Ended) : (c.shutdown true).Ended := by
  refine h.of_cbs ?_ fun hs => hs.shutdown
  unfold Conn.shutdown
  split
  · exact (still_shutdownInloop _).cbs
  · rfl

theorem Ended.forceClose (h : c.Ended) : c.forceClose.Ended := by
  refine h.of_cbs ?_ fun hs => hs.forceClose
  unfold Conn.forceClose
  split <;> rfl

end Conn

/-! ## The queue of the loop -/

namespace TcpServer

namespace System

/-- Behind a `destroyed` of connection `i`, no functor of the connection's own runs
one of the user's callbacks. The list says which of the connection's do. -/
def Silenced (i : ℕ) (q : List ServerFunctor) (calling : List Bool) : Prop :=
  ∀ pre post, q = pre ++ .destroyed i :: post → ∀ b ∈ calling.drop (pre.count (.own i)), b = false

variable {i : ℕ} {f : ServerFunctor} {q fs gs : List ServerFunctor} {b : Bool} {calling calling' : List Bool}

theorem silenced_of_not_mem (h : .destroyed i ∉ q) : Silenced i q calling := by
  intro pre post he
  exact absurd (he ▸ List.mem_append_right pre List.mem_cons_self) h

theorem Silenced.pop_own (h : Silenced i (.own i :: q) (b :: calling)) : Silenced i q calling := by
  intro pre post he
  have hdrop := h (.own i :: pre) post (by rw [he, List.cons_append])
  rwa [List.count_cons_self, List.drop_succ_cons] at hdrop

theorem Silenced.pop (h : Silenced i (f :: q) calling) (hf : f ≠ .own i) : Silenced i q calling := by
  intro pre post he
  have hdrop := h (f :: pre) post (by rw [he, List.cons_append])
  rwa [List.count_cons_of_ne hf] at hdrop

theorem Silenced.pop_destroyed (h : Silenced i (.destroyed i :: q) calling) : ∀ b ∈ calling, b = false :=
  h [] q rfl

/-- The connection hands its loop `fs`, and is then closed once for each functor of
`gs`. Nothing has been closed before if the queue has a functor that runs a callback
to come. -/
theorem Silenced.push (h : Silenced i q calling)
    (hushed : .destroyed i ∈ q → ∃ k, calling' = calling ++ List.replicate k false)
    (hlength : calling'.length ≤ (q ++ fs).count (.own i)) (hfs : .destroyed i ∉ fs) :
    Silenced i (q ++ fs ++ gs) calling' := by
  intro pre post he
  have hlate : ∀ rest, pre = q ++ fs ++ rest → ∀ b ∈ calling'.drop (pre.count (.own i)), b = false := by
    intro rest hpre b hb
    rw [List.drop_of_length_le] at hb
    · cases hb
    · rw [hpre, List.count_append]
      omega
  have hearly : ∀ rest, q = pre ++ .destroyed i :: rest → ∀ b ∈ calling'.drop (pre.count (.own i)), b = false := by
    intro rest hq b hb
    obtain ⟨k, hk⟩ := hushed (hq ▸ List.mem_append_right pre List.mem_cons_self)
    rw [hk, List.drop_append, List.mem_append] at hb
    rcases hb with hb | hb
    · exact h pre rest hq b hb
    · exact List.eq_of_mem_replicate (List.mem_of_mem_drop hb)
  rcases List.append_eq_append_iff.1 he with ⟨rest, hpre, -⟩ | ⟨rest, hold, hrest⟩
  · exact hlate rest hpre
  · cases rest with
    | nil => exact hlate [] (by rw [hold, List.append_nil, List.append_nil])
    | cons g rest =>
      obtain ⟨rfl, -⟩ := List.cons.inj hrest
      rcases List.append_eq_append_iff.1 hold with ⟨mid, -, hmem⟩ | ⟨mid, hq, hmem⟩
      · exact absurd (hmem ▸ List.mem_append_right mid List.mem_cons_self) hfs
      · cases mid with
        | nil => exact absurd (List.nil_append fs ▸ hmem ▸ List.mem_cons_self) hfs
        | cons g' mid =>
          obtain ⟨rfl, -⟩ := List.cons.inj hmem
          exact hearly mid hq

/-- Functors of other connections. -/
theorem Silenced.push_other (h : Silenced i q calling) (hgs : .destroyed i ∉ gs) : Silenced i (q ++ gs) calling := by
  intro pre post he
  rcases List.append_eq_append_iff.1 he with ⟨rest, -, hmem⟩ | ⟨rest, hq, hmem⟩
  · exact absurd (hmem ▸ List.mem_append_right rest List.mem_cons_self) hgs
  · cases rest with
    | nil => exact absurd (List.nil_append gs ▸ hmem ▸ List.mem_cons_self) hgs
    | cons g rest =>
      obtain ⟨rfl, -⟩ := List.cons.inj hmem
      exact h pre rest hq

end System

end TcpServer

end Learncc
