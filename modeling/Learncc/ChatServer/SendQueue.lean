/-
The sending half of `csession` (src/chat_server/csession.cc): `send` in its
two forms, and `handle_write`. A node stays at the front of `send_que_` while
it is written.

Each of the three runs under `send_lock_`, so a run is a list of calls and
completions. `run_ordered`: up to the first failed write, at most one write
is under way, for the front, and the nodes are written in the order of their
acceptance. `delivers_iff`: which messages go out as they came in.
-/
import Learncc.ChatServer.MsgNode

namespace Learncc.Chat

def MAXSENDQUE : ℕ := 1000

/-- A node is known by its place among all the nodes pushed. `writing` holds
those with an `async_write` under way, `written` those whose write is done. -/
structure SendQueue where
  nodes : List SendNode
  sendQue : List ℕ
  writing : List ℕ
  written : List ℕ
  closed : Bool
  dropped : Bool
deriving Repr, DecidableEq

namespace SendQueue

def empty : SendQueue :=
  { nodes := [], sendQue := [], writing := [], written := [], closed := false, dropped := false }

/-- `async_write` of `send_que_.front()`. -/
def asyncWrite (q : SendQueue) : SendQueue := { q with writing := q.writing ++ q.sendQue.head?.toList }

def push (q : SendQueue) (node : SendNode) : SendQueue :=
  { q with nodes := q.nodes ++ [node], sendQue := q.sendQue ++ [q.nodes.length] }

/-- What both forms of `send` do with the node they make. -/
def send (q : SendQueue) (make : Except Fault SendNode) : Except Fault SendQueue :=
  if MAXSENDQUE < q.sendQue.length then .ok q
  else do
    let node ← make
    if 0 < q.sendQue.length then return q.push node
    return (q.push node).asyncWrite

/-- `send(std::string msg, short msgid)`: the length becomes a `short`. -/
def sendString (q : SendQueue) (msg : Bytes) (msgId : ℤ) : Except Fault SendQueue :=
  q.send (sendNode (msg ++ [0]) (toShort msg.length) msgId)

/-- `send(char *msg, short max_length, short msgid)`. -/
def sendChars (q : SendQueue) (msg : Bytes) (maxLength msgId : ℤ) : Except Fault SendQueue :=
  q.send (sendNode msg maxLength msgId)

/-- `handle_write` without an error. -/
def handleWrite (q : SendQueue) : SendQueue :=
  let q := { q with sendQue := q.sendQue.tail }
  if q.sendQue.isEmpty then q else q.asyncWrite

/-- `handle_write` with one: the session is closed and dropped. -/
def handleError (q : SendQueue) : SendQueue := { q with closed := true, dropped := true }

inductive Op
  | sendString (msg : Bytes) (msgId : ℤ)
  | sendChars (msg : Bytes) (maxLength msgId : ℤ)
  | completed (node : ℕ)
  | failed (node : ℕ)
deriving Repr, DecidableEq

/-- A call from some thread: an exception leaves the queue as it was; nothing
is known after a store outside a node. -/
def called (q : SendQueue) : Except Fault SendQueue → Option SendQueue
  | .ok q' => some q'
  | .error .badArrayNewLength => some q
  | .error .outOfBounds => none

def step (q : SendQueue) : Op → Option SendQueue
  | .sendString msg msgId => q.called (q.sendString msg msgId)
  | .sendChars msg maxLength msgId => q.called (q.sendChars msg maxLength msgId)
  | .completed node =>
    if node ∈ q.writing then
      some { q with writing := q.writing.erase node, written := q.written ++ [node] }.handleWrite
    else none
  | .failed node => if node ∈ q.writing then some { q with writing := q.writing.erase node }.handleError else none

def Op.isFailure : Op → Bool
  | .failed _ => true
  | _ => false

/-! ## The order of the writes -/

/-- One write is under way if the queue is not empty, for its front; what has
been written and what waits are the accepted nodes in order. -/
structure Ordered (q : SendQueue) : Prop where
  front : q.writing = q.sendQue.head?.toList
  order : q.written ++ q.sendQue = List.range q.nodes.length
  bound : q.sendQue.length ≤ MAXSENDQUE + 1

theorem empty_ordered : empty.Ordered := ⟨rfl, rfl, Nat.zero_le _⟩

/-- What a call can do. -/
theorem send_cases {q q' : SendQueue} {make : Except Fault SendNode} (h : q.called (q.send make) = some q') :
    q' = q ∧ (MAXSENDQUE < q.sendQue.length ∨ make = .error .badArrayNewLength) ∨
      ∃ node, make = .ok node ∧ q.sendQue.length ≤ MAXSENDQUE ∧
        (0 < q.sendQue.length ∧ q' = q.push node ∨ q.sendQue = [] ∧ q' = (q.push node).asyncWrite) := by
  unfold send at h
  split at h
  · rename_i hfull
    exact .inl ⟨(Option.some.inj h).symm, .inl hfull⟩
  rename_i hroom
  cases make with
  | error e =>
    cases e with
    | badArrayNewLength => exact .inl ⟨(Option.some.inj h).symm, .inr rfl⟩
    | outOfBounds => cases h
  | ok node =>
    refine .inr ⟨node, rfl, Nat.le_of_not_lt hroom, ?_⟩
    have hbind : (Except.ok node : Except Fault SendNode) = pure node := rfl
    rw [hbind, pure_bind] at h
    by_cases hpos : 0 < q.sendQue.length
    · rw [if_pos hpos] at h
      exact .inl ⟨hpos, (Option.some.inj h).symm⟩
    · rw [if_neg hpos] at h
      exact .inr ⟨List.eq_nil_of_length_eq_zero (by omega), (Option.some.inj h).symm⟩

theorem push_order {q : SendQueue} (h : q.Ordered) (node : SendNode) :
    (q.push node).written ++ (q.push node).sendQue = List.range (q.push node).nodes.length := by
  simp only [push, List.length_append, List.length_singleton, List.range_succ]
  rw [← List.append_assoc, h.order]

theorem send_ordered {q q' : SendQueue} {make : Except Fault SendNode} (h : q.Ordered)
    (hs : q.called (q.send make) = some q') : q'.Ordered := by
  obtain ⟨rfl, -⟩ | ⟨node, -, hroom, ⟨hpos, rfl⟩ | ⟨hnil, rfl⟩⟩ := send_cases hs
  · exact h
  · refine ⟨?_, push_order h node, ?_⟩
    · obtain ⟨p, rest, hq⟩ := List.exists_cons_of_length_pos hpos
      have hf := h.front
      simp only [push, hq, List.cons_append, List.head?_cons] at hf ⊢
      exact hf
    · simp only [push, List.length_append, List.length_singleton]
      omega
  · refine ⟨?_, push_order h node, ?_⟩
    · have hf := h.front
      rw [hnil] at hf
      simp only [asyncWrite, push, hf, hnil, List.head?_nil, Option.toList_none, List.nil_append]
    · simp only [asyncWrite, push, hnil, List.nil_append, List.length_singleton]
      omega

/-- The write under way is done: the next one starts. -/
theorem completed_ordered {q : SendQueue} (h : q.Ordered) {node : ℕ} (hm : node ∈ q.writing) :
    Ordered { q with writing := q.writing.erase node, written := q.written ++ [node] }.handleWrite := by
  have hf := h.front
  have ho := h.order
  have hb := h.bound
  cases hq : q.sendQue with
  | nil =>
    rw [hf, hq] at hm
    cases hm
  | cons p rest =>
    rw [hq, List.head?_cons, Option.toList_some] at hf
    have hnode : node = p := by
      rw [hf] at hm
      exact List.mem_singleton.1 hm
    subst hnode
    rw [hq] at ho hb
    have herase : q.writing.erase node = [] := by rw [hf, List.erase_cons_head]
    unfold handleWrite
    simp only [List.tail_cons, herase]
    cases rest with
    | nil => exact ⟨rfl, by simpa using ho, Nat.zero_le _⟩
    | cons r rest =>
      simp only [List.length_cons] at hb
      refine ⟨rfl, ?_, ?_⟩
      · show (q.written ++ [node]) ++ (r :: rest) = _
        rw [List.append_assoc, List.singleton_append]
        exact ho
      · show (r :: rest).length ≤ _
        simp only [List.length_cons]
        omega

theorem step_ordered {q q' : SendQueue} {op : Op} (h : q.Ordered) (hop : op.isFailure = false)
    (hs : q.step op = some q') : q'.Ordered := by
  cases op with
  | sendString msg msgId => exact send_ordered h hs
  | sendChars msg maxLength msgId => exact send_ordered h hs
  | completed node =>
    simp only [step] at hs
    split at hs
    · rename_i hm
      cases hs
      exact completed_ordered h hm
    · cases hs
  | failed node => cases hop

/-- The node of a call that accepts its message. -/
def accepts (q : SendQueue) : Op → Option SendNode
  | .sendString msg msgId =>
    if MAXSENDQUE < q.sendQue.length then none else (sendNode (msg ++ [0]) (toShort msg.length) msgId).toOption
  | .sendChars msg maxLength msgId =>
    if MAXSENDQUE < q.sendQue.length then none else (sendNode msg maxLength msgId).toOption
  | _ => none

/-- The nodes of all the messages a run accepts, in their order. -/
def accepted : SendQueue → List Op → List SendNode
  | _, [] => []
  | q, op :: ops => (q.accepts op).toList ++ ((q.step op).elim [] fun q' => accepted q' ops)

theorem send_nodes {q q' : SendQueue} {make : Except Fault SendNode} (h : q.called (q.send make) = some q') :
    q'.nodes = q.nodes ++ (if MAXSENDQUE < q.sendQue.length then none else make.toOption).toList := by
  obtain ⟨rfl, hfull | rfl⟩ | ⟨node, rfl, hroom, ⟨-, rfl⟩ | ⟨-, rfl⟩⟩ := send_cases h
  · rw [if_pos hfull]
    exact (List.append_nil _).symm
  · simp [Except.toOption]
  · rw [if_neg (Nat.not_lt.2 hroom)]
    rfl
  · rw [if_neg (Nat.not_lt.2 hroom)]
    rfl

theorem step_nodes {q q' : SendQueue} {op : Op} (h : q.step op = some q') :
    q'.nodes = q.nodes ++ (q.accepts op).toList := by
  cases op with
  | sendString msg msgId => exact send_nodes h
  | sendChars msg maxLength msgId => exact send_nodes h
  | completed node =>
    simp only [step] at h
    split at h
    · rw [← Option.some.inj h]
      unfold handleWrite
      dsimp only
      split <;> exact (List.append_nil _).symm
    · cases h
  | failed node =>
    simp only [step] at h
    split at h
    · rw [← Option.some.inj h]
      exact (List.append_nil _).symm
    · cases h

theorem run_nodes : ∀ {ops : List Op} {q q' : SendQueue}, Run.run step q ops = some q' →
    q'.nodes = q.nodes ++ accepted q ops
  | [], q, q', h => by
    rw [Option.some.inj h]
    exact (List.append_nil _).symm
  | op :: ops, q, q', h => by
    obtain ⟨t, ht, hrun⟩ := Run.run_cons.1 h
    rw [run_nodes hrun, step_nodes ht, accepted, ht, List.append_assoc]
    rfl

/-- **One write at a time, in the order of acceptance.** After any calls from
any threads and any completed writes, before one has failed: a write is under
way if and only if the queue is not empty, it is the only one and for the
front, the nodes written so far and then those waiting are the accepted ones
in order, each once, and the queue is bounded. -/
theorem run_ordered {ops : List Op} {q : SendQueue} (h : Run.run step empty ops = some q)
    (hops : ∀ op ∈ ops, op.isFailure = false) :
    q.writing = q.sendQue.head?.toList ∧ q.nodes = accepted empty ops ∧
      q.written ++ q.sendQue = List.range q.nodes.length ∧ q.sendQue.length ≤ MAXSENDQUE + 1 := by
  have hord : q.Ordered := Run.run_along_invariant (C := fun _ op => op.isFailure = false) Ordered
    (fun _ _ _ hq hc hs => step_ordered hq hc hs) empty_ordered (Run.along_of_forall hops) h
  exact ⟨hord.front, (run_nodes h).trans (List.nil_append _), hord.order, hord.bound⟩

/-- Three messages, the first of them written. -/
def threeSends : List Op :=
  [.sendString [104, 105] 1006, .sendChars [111, 107, 33] 2 1008, .completed 0, .sendString [] 1006]

theorem run_ordered_threeSends :
    ∃ q, Run.run step empty threeSends = some q ∧ q.writing = [1] ∧ q.sendQue = [1, 2] ∧
      q.writing = q.sendQue.head?.toList ∧ q.nodes = accepted empty threeSends ∧
      q.written ++ q.sendQue = List.range q.nodes.length ∧ q.sendQue.length ≤ MAXSENDQUE + 1 := by
  have hsome : (Run.run step empty threeSends).map (fun q => (q.writing, q.sendQue)) = some ([1], [1, 2]) := by
    decide +kernel
  obtain ⟨q, hq, hm⟩ := Option.map_eq_some_iff.1 hsome
  obtain ⟨hwriting, hque⟩ := Prod.mk.inj hm
  exact ⟨q, hq, hwriting, hque, run_ordered hq (by decide)⟩

/-! ## What goes out -/

/-- What the head layout of `async_read_head` makes of bytes that are one
frame: an id, a length, and as many bytes. -/
def decode : Bytes → Option (ℤ × Bytes)
  | id₀ :: id₁ :: len₀ :: len₁ :: body =>
    if networkShort len₀ len₁ = body.length then some (networkShort id₀ id₁, body) else none
  | _ => none

theorem decode_frame {msgId : ℤ} (h₀ : -32768 ≤ msgId) (h₁ : msgId < 32768) {body : Bytes}
    (hbody : body.length < 32768) :
    decode (networkBytes msgId ++ networkBytes body.length ++ body) = some (msgId, body) := by
  have hlen := networkShort_networkBytes (n := body.length) (by omega) (by omega) rfl
  have hid := networkShort_networkBytes h₀ h₁ rfl
  simp only [networkBytes, List.cons_append, List.nil_append, decode] at hlen hid ⊢
  rw [hlen, hid, if_pos rfl]

/-- The message is refused, with or without an exception, or what is queued
is a frame of exactly its id and its bytes. -/
def Delivers (q : SendQueue) (msg : Bytes) (msgId : ℤ) : Prop :=
  match q.sendString msg msgId with
  | .error .badArrayNewLength => True
  | .error .outOfBounds => False
  | .ok q' => q' = q ∨ ∃ node, q'.nodes = q.nodes ++ [node] ∧ q'.sendQue = q.sendQue ++ [q.nodes.length] ∧
      decode node.wire = some (msgId, msg)

theorem send_ok {q : SendQueue} (hroom : ¬ MAXSENDQUE < q.sendQue.length) (node : SendNode) :
    ∃ q', q.send (.ok node) = .ok q' ∧ q'.nodes = q.nodes ++ [node] ∧ q'.sendQue = q.sendQue ++ [q.nodes.length] := by
  have hbind : (Except.ok node : Except Fault SendNode) = pure node := rfl
  rw [send, if_neg hroom, hbind, pure_bind]
  split
  · exact ⟨_, rfl, rfl, rfl⟩
  · exact ⟨_, rfl, rfl, rfl⟩

theorem send_error {q : SendQueue} (hroom : ¬ MAXSENDQUE < q.sendQue.length) (e : Fault) :
    q.send (.error e) = .error e := by
  rw [send, if_neg hroom]
  rfl

/-- A message of `m` bytes and some multiple of `2 ^ 16` more is framed as its
first `m` bytes. -/
theorem sendNode_wire (msg : Bytes) {m : ℕ} (hm : m ≤ 32763) (hle : m ≤ msg.length)
    (hmod : msg.length % 65536 = m) (msgId : ℤ) (h₀ : -32768 ≤ msgId) (h₁ : msgId < 32768) :
    ∃ node, sendNode (msg ++ [0]) (toShort msg.length) msgId = .ok node ∧
      decode node.wire = some (msgId, msg.take m) := by
  have hshort : toShort msg.length = m := toShort_of_congr (by omega) (by omega) (by omega)
  have htake : (msg ++ [0]).take m = msg.take m := List.take_append_of_le_length hle
  have hlen : (msg.take m).length = m := by
    rw [List.length_take]
    omega
  rw [hshort, sendNode_fits hm (by simp; omega) msgId, htake]
  refine ⟨_, rfl, ?_⟩
  have hwire : (networkBytes msgId ++ networkBytes m ++ msg.take m ++ [0]).take (m + 4) =
      networkBytes msgId ++ networkBytes (msg.take m).length ++ msg.take m := by
    rw [List.take_append_of_le_length (by simp; omega), hlen, List.take_of_length_le (by simp; omega)]
  show decode ((networkBytes msgId ++ networkBytes m ++ msg.take m ++ [0]).take (m + 4)) = _
  rw [hwire]
  exact decode_frame h₀ h₁ (by omega)

theorem toShort_total {n : ℕ} (h₀ : 32764 ≤ n % 65536) (h₁ : n % 65536 ≤ 65530) :
    toShort (toShort n + HEADTOTALLEN) < -1 := by
  have hmod : toShort n % 65536 = n % 65536 := by
    rw [toShort_eq]
    exact Int.bmod_emod
  have htotal : toShort (toShort n + HEADTOTALLEN) = ((n % 65536 : ℕ) : ℤ) + 4 - 65536 := by
    unfold HEADTOTALLEN
    refine toShort_of_congr (by omega) (by omega) ?_
    omega
  omega

/-- Whatever is queued of a message that is not refused is a frame of its first
`length % 2 ^ 16` bytes. -/
theorem sendString_queued {q : SendQueue} (msg : Bytes) (msgId : ℤ) (hroom : ¬ MAXSENDQUE < q.sendQue.length)
    (hsmall : msg.length % 65536 ≤ 32763) (h₀ : -32768 ≤ msgId) (h₁ : msgId < 32768) :
    ∃ q' node, q.sendString msg msgId = .ok q' ∧ q'.nodes = q.nodes ++ [node] ∧
      q'.sendQue = q.sendQue ++ [q.nodes.length] ∧
      decode node.wire = some (msgId, msg.take (msg.length % 65536)) := by
  obtain ⟨node, hnode, hwire⟩ := sendNode_wire msg hsmall (Nat.mod_le ..) rfl msgId h₀ h₁
  obtain ⟨q', hq', hnodes, hque⟩ := send_ok hroom node
  exact ⟨q', node, by rw [sendString, hnode, hq'], hnodes, hque, hwire⟩

theorem sendString_throws {q : SendQueue} {msg : Bytes} (hroom : ¬ MAXSENDQUE < q.sendQue.length)
    (h : 32764 ≤ msg.length % 65536 ∧ msg.length % 65536 ≤ 65530) (msgId : ℤ) :
    q.sendString msg msgId = .error .badArrayNewLength := by
  rw [sendString, sendNode_throws (toShort_total h.1 h.2), send_error hroom]

theorem sendString_outOfBounds {q : SendQueue} {msg : Bytes} (hroom : ¬ MAXSENDQUE < q.sendQue.length)
    (h : 65530 < msg.length % 65536) (msgId : ℤ) : q.sendString msg msgId = .error .outOfBounds := by
  have hneg : toShort msg.length = ((msg.length % 65536 : ℕ) : ℤ) - 65536 :=
    toShort_of_congr (by omega) (by omega) (by omega)
  rw [sendString, hneg, sendNode_outOfBounds (by omega) (by omega), send_error hroom]

theorem sendString_full {q : SendQueue} (hfull : MAXSENDQUE < q.sendQue.length) (msg : Bytes) (msgId : ℤ) :
    q.sendString msg msgId = .ok q := by
  rw [sendString, send, if_pos hfull]

/-- The frame of all the bytes is that of a message whose length is its own remainder. -/
theorem take_length_mod {msg : Bytes} : msg.take (msg.length % 65536) = msg ↔ msg.length < 65536 := by
  constructor
  · intro he
    have hlen := congrArg List.length he
    rw [List.length_take] at hlen
    omega
  · intro hlt
    rw [Nat.mod_eq_of_lt hlt, List.take_length]

/-- The message goes out: one node more waits, and it is a frame of the id and all of the
bytes. -/
def Queues (q : SendQueue) (msg : Bytes) (msgId : ℤ) (q' : SendQueue) : Prop :=
  q.sendString msg msgId = .ok q' ∧ ∃ node, q'.nodes = q.nodes ++ [node] ∧
    q'.sendQue = q.sendQue ++ [q.nodes.length] ∧ decode node.wire = some (msgId, msg)

theorem queues_iff (q : SendQueue) (msg : Bytes) (msgId : ℤ) (h₀ : -32768 ≤ msgId) (h₁ : msgId < 32768) :
    (∃ q', q.Queues msg msgId q') ↔ q.sendQue.length ≤ MAXSENDQUE ∧ msg.length ≤ 32763 := by
  by_cases hfull : MAXSENDQUE < q.sendQue.length
  · refine iff_of_false (fun h => ?_) fun h => absurd h.1 (Nat.not_le.2 hfull)
    obtain ⟨q', hq', node, hnodes, -⟩ := h
    rw [sendString_full hfull] at hq'
    cases hq'
    have hlen := congrArg List.length hnodes
    rw [List.length_append, List.length_singleton] at hlen
    omega
  · rw [and_iff_right (Nat.not_lt.1 hfull)]
    constructor
    · intro h
      obtain ⟨q', hq', node, hnodes, -, hdecode⟩ := h
      by_cases hthrows : 32764 ≤ msg.length % 65536 ∧ msg.length % 65536 ≤ 65530
      · rw [sendString_throws hfull hthrows] at hq'
        cases hq'
      by_cases hout : 65530 < msg.length % 65536
      · rw [sendString_outOfBounds hfull hout] at hq'
        cases hq'
      obtain ⟨q'', node', hq'', hnodes', -, hdecode'⟩ :=
        sendString_queued msg msgId hfull (by omega) h₀ h₁
      rw [hq''] at hq'
      cases hq'
      obtain ⟨-, hnode⟩ := List.append_singleton_inj.1 (hnodes'.symm.trans hnodes)
      rw [← hnode, hdecode'] at hdecode
      have hlt := take_length_mod.1 (Prod.mk.inj (Option.some.inj hdecode)).2
      rw [Nat.mod_eq_of_lt hlt] at hthrows hout
      omega
    · intro hshort
      have hlt : msg.length < 65536 := by omega
      obtain ⟨q', node, hq', hnodes, hque, hdecode⟩ :=
        sendString_queued msg msgId hfull (by omega) h₀ h₁
      rw [take_length_mod.2 hlt] at hdecode
      exact ⟨q', hq', node, hnodes, hque, hdecode⟩

/-- **Which messages are sent as they are.** A message is queued as a frame of
its id and all of its bytes, or refused, if and only if the queue is full, or
its length and the head's fit a `short`, or its length is one that makes the
size of the array negative. Of all other messages only the first
`length % 2 ^ 16` bytes are sent, or the node is written out of bounds. -/
theorem delivers_iff (q : SendQueue) (msg : Bytes) {msgId : ℤ} (h₀ : 0 ≤ msgId) (h₁ : msgId ≤ 2048) :
    q.Delivers msg msgId ↔ MAXSENDQUE < q.sendQue.length ∨ msg.length ≤ 32763 ∨
      (32764 ≤ msg.length % 65536 ∧ msg.length % 65536 ≤ 65530) := by
  by_cases hfull : MAXSENDQUE < q.sendQue.length
  · refine ⟨fun _ => .inl hfull, fun _ => ?_⟩
    rw [Delivers, sendString_full hfull]
    exact .inl rfl
  by_cases hthrows : 32764 ≤ msg.length % 65536 ∧ msg.length % 65536 ≤ 65530
  · refine ⟨fun _ => .inr (.inr hthrows), fun _ => ?_⟩
    rw [Delivers, sendString_throws hfull hthrows]
    trivial
  by_cases hout : 65530 < msg.length % 65536
  · rw [Delivers, sendString_outOfBounds hfull hout]
    refine ⟨False.elim, fun hc => ?_⟩
    omega
  obtain ⟨q', node, hq', hnodes, hque, hwire⟩ :=
    sendString_queued msg msgId hfull (by omega) (by omega) (by omega)
  rw [Delivers, hq']
  constructor
  · intro hd
    rcases hd with rfl | ⟨node', hnodes', -, hdec⟩
    · have hlen := congrArg List.length hnodes
      rw [List.length_append, List.length_singleton] at hlen
      omega
    · obtain ⟨-, hn⟩ := List.append_singleton_inj.1 (hnodes.symm.trans hnodes')
      rw [← hn, hwire] at hdec
      have hlt := take_length_mod.1 (Prod.mk.inj (Option.some.inj hdec)).2
      rw [Nat.mod_eq_of_lt hlt] at hthrows hout
      exact .inr (.inl (by omega))
  · intro hc
    have hlt : msg.length < 65536 := by
      rcases hc with hc | hc | hc
      · exact absurd hc hfull
      · omega
      · exact absurd hc hthrows
    rw [take_length_mod.2 hlt] at hwire
    exact .inr ⟨node, hnodes, hque, hwire⟩

theorem delivers_iff_two_bytes : empty.Delivers [104, 105] 1006 :=
  (delivers_iff empty [104, 105] (by decide) (by decide)).2 (.inr (.inl (by decide)))

/-- Of 65536 bytes none is sent: an empty frame is queued. -/
theorem none_of_65536 :
    ¬ empty.Delivers (List.replicate 65536 97) 1006 ∧
      ∃ node, sendNode (List.replicate 65536 97 ++ [0]) (toShort (List.replicate 65536 (97 : UInt8)).length) 1006 =
        .ok node ∧ decode node.wire = some (1006, []) := by
  have hlen : (List.replicate 65536 (97 : UInt8)).length = 65536 := List.length_replicate
  generalize List.replicate 65536 (97 : UInt8) = msg at hlen
  obtain ⟨node, hnode, hwire⟩ := sendNode_wire msg (m := 0) (Nat.zero_le _) (Nat.zero_le _) (by omega) 1006
    (by decide) (by decide)
  refine ⟨fun hd => ?_, node, hnode, hwire⟩
  obtain ⟨q', hq', hnodes, -⟩ := send_ok (q := empty) (by decide) node
  rw [Delivers, sendString, hnode, hq'] at hd
  rcases hd with rfl | ⟨node', hnodes', -, hdec⟩
  · cases hnodes
  · obtain ⟨-, hn⟩ := List.append_singleton_inj.1 (hnodes.symm.trans hnodes')
    rw [← hn, hwire] at hdec
    have hmsg : [] = msg := (Prod.mk.inj (Option.some.inj hdec)).2
    rw [← hmsg] at hlen
    cases hlen

end SendQueue

end Learncc.Chat
