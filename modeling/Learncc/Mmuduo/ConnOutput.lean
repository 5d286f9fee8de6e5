/-
The output of a `tcp_connection`.

`output_stream`: `send_inloop`, `handle_write` and `shutdown` neither lose,
duplicate nor reorder a byte: what `write(2)` accepted, followed by what waits
in `obuf_`, is what was sent.
-/
import Learncc.Mmuduo.TcpConnection

namespace Learncc

/-- How many bytes a `write(2)` took. -/
def WriteResult.accepted : WriteResult → Nat
  | .ok n => n
  | .err _ => 0

/-- The errors on which a connection is given up. -/
def WriteResult.fault : WriteResult → Bool
  | .ok _ => false
  | .err e => e == EPIPE || e == ECONNRESET

namespace Conn

/-! ## What `send_inloop` does -/

/-- How much of the data `send_inloop` writes at once. -/
def writes (c : Conn) (w : WriteResult) : Nat := if c.direct then w.accepted else 0

/-- The bytes `send_inloop` puts behind the output buffer. -/
def rest (c : Conn) (data : Bytes) (w : WriteResult) : Bytes :=
  if c.direct && w.fault then [] else data.drop (c.writes w)

theorem faultError_eq (e : Errno) : faultError e = WriteResult.fault (.err e) := by
  have h1 : EPIPE ≠ EWOULDBLOCK := by decide
  have h2 : ECONNRESET ≠ EWOULDBLOCK := by decide
  by_cases hp : e = EPIPE
  · subst hp; simp [faultError, WriteResult.fault, h1]
  · by_cases hr : e = ECONNRESET
    · subst hr; simp [faultError, WriteResult.fault, h2]
    · simp [faultError, WriteResult.fault, hp, hr]

theorem tryWrite_eq (c : Conn) (data : Bytes) (w : WriteResult) :
    ∃ q, c.tryWrite data w =
      ({ c with wire := c.wire ++ data.take (c.writes w), queued := q }, c.writes w, c.direct && w.fault) := by
  unfold tryWrite writes
  cases hd : c.direct with
  | false => exact ⟨c.queued, by simp⟩
  | true =>
    cases w with
    | ok n =>
      simp only [if_true, WriteResult.accepted, WriteResult.fault, Bool.and_false]
      split
      · exact ⟨c.queued ++ [.writeComplete], rfl⟩
      · exact ⟨c.queued, rfl⟩
    | err e => exact ⟨c.queued, by simp [WriteResult.accepted, faultError_eq]⟩

theorem keepRest_eq (c : Conn) (r : Bytes) :
    ∃ q ch, c.keepRest r = { c with obuf := c.obuf.append r, queued := q, chan := ch } ∧
      (ch.events = c.chan.events ∨ ch.events = c.chan.events ||| Channel.kwriteEvent) := by
  simp only [keepRest, queueInLoop]
  split
  · cases hw : c.chan.isWriting with
    | false => exact ⟨_, c.chan.enableWriting, rfl, .inr (by simp)⟩
    | true => exact ⟨_, c.chan, rfl, .inl rfl⟩
  · cases hw : c.chan.isWriting with
    | false => exact ⟨c.queued, c.chan.enableWriting, by simp, .inr (by simp)⟩
    | true => exact ⟨c.queued, c.chan, by simp, .inl rfl⟩

/-- `send_inloop` on a connection that is not DISCONNECTED: part of the data
is on the wire, the rest is behind the output buffer. -/
theorem sendInloop_eq {c : Conn} (hs : c.state ≠ .disconnected) (data : Bytes) (w : WriteResult) :
    ∃ q ch, c.sendInloop data w =
        { c with
          sent := c.sent ++ data
          wire := c.wire ++ data.take (c.writes w)
          obuf := if c.rest data w = [] then c.obuf else c.obuf.append (c.rest data w)
          queued := q
          chan := ch } ∧
      (ch.events = c.chan.events ∨ ch.events = c.chan.events ||| Channel.kwriteEvent) := by
  obtain ⟨q, hq⟩ := tryWrite_eq { c with sent := c.sent ++ data } data w
  have hd : direct { c with sent := c.sent ++ data } = c.direct := rfl
  have hw : writes { c with sent := c.sent ++ data } w = c.writes w := rfl
  simp only [hd, hw] at hq
  simp only [sendInloop, hs, if_false, hq, rest]
  by_cases hf : (c.direct && w.fault) = true
  · exact ⟨q, c.chan, by simp [hf], .inl rfl⟩
  · rw [Bool.not_eq_true] at hf
    by_cases hr : data.length - c.writes w > 0
    · obtain ⟨q', ch, hk, hch⟩ := keepRest_eq { c with
        sent := c.sent ++ data, wire := c.wire ++ data.take (c.writes w), queued := q } (data.drop (c.writes w))
      have hne : data.drop (c.writes w) ≠ [] := by
        intro he
        have := congrArg List.length he
        simp at this
        omega
      refine ⟨q', ch, ?_, hch⟩
      simp [hf, hr, hk, hne]
    · have he : data.drop (c.writes w) = [] := List.drop_of_length_le (by omega)
      exact ⟨q, c.chan, by simp [hf, hr, he], .inl rfl⟩

/-- A direct write finds the output buffer empty. -/
theorem direct_readable {c : Conn} (hi : c.obuf.Inv) (hd : c.direct = true) : c.obuf.readable = [] := by
  have h0 : c.obuf.readableBytes = 0 := by
    simp only [direct, Bool.and_eq_true, beq_iff_eq] at hd
    exact hd.2
  rw [← List.length_eq_zero_iff, Buffer.readable_length hi, h0]

/-- `send_inloop` without a fault keeps every byte, in order. -/
theorem sendInloop_stream {c : Conn} (hs : c.state ≠ .disconnected) (hi : c.obuf.Inv) {data : Bytes}
    (hroom : c.obuf.Room data.length) {w : WriteResult} (hw : w.fault = false) :
    (c.sendInloop data w).state = c.state ∧ (c.sendInloop data w).obuf.Inv ∧
      (c.sendInloop data w).wire ++ (c.sendInloop data w).obuf.readable =
        c.wire ++ c.obuf.readable ++ data := by
  obtain ⟨q, ch, he, -⟩ := sendInloop_eq hs data w
  have hr : c.rest data w = data.drop (c.writes w) := by simp [rest, hw]
  simp only [he, hr]
  have hroom' : c.obuf.Room (data.drop (c.writes w)).length := by
    simp only [Buffer.Room, List.length_drop] at hroom ⊢
    omega
  obtain ⟨hai, har⟩ := Buffer.append_spec hi hroom'
  -- Either the buffer was empty, or nothing was written.
  have hsplit : c.obuf.readable = [] ∨ c.writes w = 0 := by
    cases hd : c.direct with
    | true => exact .inl (direct_readable hi hd)
    | false => exact .inr (by simp [writes, hd])
  have hsum : c.wire ++ data.take (c.writes w) ++ (c.obuf.readable ++ data.drop (c.writes w)) =
      c.wire ++ c.obuf.readable ++ data := by
    rcases hsplit with h | h
    · simp [h]
    · simp [h]
  refine ⟨trivial, ?_, ?_⟩
  · split
    · exact hi
    · exact hai
  · split
    · rename_i hnil
      rw [hnil, List.append_nil] at hsum
      exact hsum
    · rw [har]
      exact hsum

/-! ## What `handle_write` and `shutdown` do -/

theorem writeDone_eq (c : Conn) :
    ∃ q ch sw, c.writeDone = { c with queued := q, chan := ch, shutdownWrites := sw } := by
  unfold writeDone shutdownInloop shutdownWrite queueInLoop
  dsimp only
  split <;> split <;> (try split) <;> exact ⟨_, _, _, rfl⟩

theorem handleWrite_stream {c : Conn} (hi : c.obuf.Inv) (w : WriteResult) :
    (c.handleWrite w).state = c.state ∧ (c.handleWrite w).obuf.Inv ∧
      (c.handleWrite w).wire ++ (c.handleWrite w).obuf.readable = c.wire ++ c.obuf.readable := by
  unfold handleWrite
  split
  · cases w with
    | err e => exact ⟨rfl, hi, rfl⟩
    | ok n =>
      have hk : c.wire ++ c.obuf.readable.take n ++ (c.obuf.retrieve n).readable = c.wire ++ c.obuf.readable := by
        rw [Buffer.retrieve_readable hi, List.append_assoc, List.take_append_drop]
      dsimp only
      split
      · split
        · obtain ⟨q, ch, sw, he⟩ := writeDone_eq
            { c with wire := c.wire ++ c.obuf.readable.take n, obuf := c.obuf.retrieve n }
          rw [he]
          exact ⟨rfl, Buffer.retrieve_inv hi n, hk⟩
        · exact ⟨rfl, Buffer.retrieve_inv hi n, hk⟩
      · rename_i hn
        have : n = 0 := by omega
        subst this
        exact ⟨rfl, hi, by simp⟩
  · exact ⟨rfl, hi, rfl⟩

theorem shutdownInloop_eq (c : Conn) : ∃ sw, c.shutdownInloop = { c with shutdownWrites := sw } := by
  unfold shutdownInloop
  split
  · exact ⟨_, rfl⟩
  · exact ⟨c.shutdownWrites, rfl⟩

theorem shutdown_eq (c : Conn) (inLoop : Bool) :
    ∃ st q sw, c.shutdown inLoop = { c with state := st, queued := q, shutdownWrites := sw } ∧
      (st = c.state ∨ c.state = .connected ∧ st = .disconnecting) := by
  unfold shutdown
  split
  · rename_i hc
    split
    · obtain ⟨sw, he⟩ := shutdownInloop_eq (c.setState .disconnecting)
      exact ⟨_, c.queued, sw, he, .inr ⟨hc, rfl⟩⟩
    · exact ⟨_, _, c.shutdownWrites, rfl, .inr ⟨hc, rfl⟩⟩
  · exact ⟨c.state, c.queued, c.shutdownWrites, rfl, .inl rfl⟩

/-! ## The output stream -/

/-- The calls the output goes through. -/
inductive OutAct
  | sendInloop (data : Bytes) (w : WriteResult)
  | handleWrite (w : WriteResult)
  | shutdown (inLoop : Bool)
  | shutdownInloop
deriving Repr, DecidableEq

/-- The message an act passes to `send_inloop`. -/
def OutAct.message : OutAct → Bytes
  | .sendInloop data _ => data
  | _ => []

/-- One act, for a `write(2)` that takes at most what it is offered and does
not fail with EPIPE or ECONNRESET. A message is in memory beside `obuf_`, so a
vector can hold both. -/
def outStep (c : Conn) : OutAct → Option Conn
  | .sendInloop data w =>
    if w.Valid data.length ∧ w.fault = false ∧ c.obuf.Room data.length then some (c.sendInloop data w) else none
  | .handleWrite w => if w.Valid c.obuf.readableBytes ∧ w.fault = false then some (c.handleWrite w) else none
  | .shutdown inLoop => some (c.shutdown inLoop)
  | .shutdownInloop => some c.shutdownInloop

/-- The connection is open, and the wire followed by the output buffer is
`out`. -/
structure Carries (c : Conn) (out : Bytes) : Prop where
  opened : c.state ≠ .disconnected
  obuf : c.obuf.Inv
  stream : c.wire ++ c.obuf.readable = out

theorem outStep_carries {c c' : Conn} {out : Bytes} {a : OutAct} (h : c.Carries out)
    (hs : c.outStep a = some c') : c'.Carries (out ++ a.message) := by
  obtain ⟨ho, hi, rfl⟩ := h
  cases a with
  | sendInloop data w =>
    simp only [outStep] at hs
    split at hs
    · rename_i hw
      simp only [Option.some.injEq] at hs; subst hs
      obtain ⟨h1, h2, h3⟩ := sendInloop_stream ho hi hw.2.2 hw.2.1
      exact ⟨h1 ▸ ho, h2, h3⟩
    · cases hs
  | handleWrite w =>
    simp only [outStep] at hs
    split at hs
    · simp only [Option.some.injEq] at hs; subst hs
      obtain ⟨h1, h2, h3⟩ := handleWrite_stream hi w
      exact ⟨h1 ▸ ho, h2, by simp [OutAct.message, h3]⟩
    · cases hs
  | shutdown inLoop =>
    simp only [outStep, Option.some.injEq] at hs; subst hs
    obtain ⟨st, q, sw, he, hst⟩ := shutdown_eq c inLoop
    rw [he]
    refine ⟨?_, hi, by simp [OutAct.message]⟩
    rcases hst with rfl | ⟨-, rfl⟩
    · exact ho
    · simp
  | shutdownInloop =>
    simp only [outStep, Option.some.injEq] at hs; subst hs
    obtain ⟨sw, he⟩ := shutdownInloop_eq c
    rw [he]
    exact ⟨ho, hi, by simp [OutAct.message]⟩

/-- **No byte is lost, duplicated or reordered.** Starting from a connection
that is not DISCONNECTED and has sent nothing, after any calls and any
answers of `write(2)`: the bytes on the wire followed by those in `obuf_` are
the messages passed to `send_inloop`, in call order. -/
theorem output_stream {c₀ c : Conn} {acts : List OutAct} (hopen : c₀.state ≠ .disconnected)
    (hbuf : c₀.obuf = Buffer.new Buffer.initialSize) (hwire : c₀.wire = [])
    (h : Run.run outStep c₀ acts = some c) :
    c.wire ++ c.obuf.readable = (acts.map OutAct.message).flatten := by
  have h0 : c₀.Carries [] := by
    refine ⟨hopen, ?_, ?_⟩
    · rw [hbuf]; exact Buffer.initial_inv
    · rw [hbuf, hwire, Buffer.new_readable, List.append_nil]
  have hc : c.Carries (acts.map OutAct.message).flatten := by
    refine Run.run_history (fun acts c => c.Carries (acts.map OutAct.message).flatten) h0 ?_ h
    intro acts c a c' _ hc hs
    simpa using outStep_carries hc hs
  exact hc.stream

/-- A message taken in two parts: one byte at once, one from the buffer. -/
theorem output_stream_partial :
    ∃ c, Run.run outStep (new false false 64) [.sendInloop [1, 2] (.ok 1), .handleWrite (.ok 1)] = some c ∧
      c.wire ++ c.obuf.readable = [1, 2] := by
  have hsome : (Run.run outStep (new false false 64)
      [.sendInloop [1, 2] (.ok 1), .handleWrite (.ok 1)]).isSome = true := by decide +kernel
  obtain ⟨c, hc⟩ := Option.isSome_iff_exists.1 hsome
  exact ⟨c, hc, output_stream (by decide) rfl rfl hc⟩

end Conn

end Learncc
