/-
The receiving half of `csession` (src/chat_server/csession.cc) once more, with
its messages: each head makes a new `recv_node`, the body goes into it, and
`logic_system` gets a pointer to it, which the session keeps until the next
head. Here the nodes stand in a list, and a pointer is an index. `run_same`: a
`Csession` whose accesses are all in bounds does what this reader does.

`reassembles`: whatever pieces the bytes of a sequence of frames arrive in,
the messages posted are those frames in order, and what a posted node holds is
never changed by later reads.
-/
import Learncc.ChatServer.MsgNode

namespace Learncc.Chat

open Csession (fill fill_length fill_take sent)

structure Reader where
  data : Bytes
  reading : Option ReadLen
  nodes : List RecvNode
  recvMsgNode : Option ℕ
  posted : List ℕ
  closed : Bool
  dropped : Bool
deriving Repr, DecidableEq

namespace Reader

def close (s : Reader) : Reader := { s with closed := true }

def clearSession (s : Reader) : Reader := { s with dropped := true }

def asyncReadLen (s : Reader) (readLen totalLen : ℕ) (handler : Handler) : Reader :=
  { s with reading := some ⟨handler, readLen, totalLen⟩ }

def asyncReadFull (s : Reader) (maxLength : ℕ) (handler : Handler) : Reader :=
  { s with data := List.replicate MAXLENGTH 0 }.asyncReadLen 0 maxLength handler

def asyncReadHead (s : Reader) : Reader := s.asyncReadFull HEADTOTALLEN .head

def asyncReadBody (s : Reader) (totalLen : ℤ) : Reader := s.asyncReadFull (totalLen % 2 ^ 64).toNat .body

def start : Reader :=
  let s : Reader := { data := [], reading := none, nodes := [], recvMsgNode := none, posted := [], closed := false,
                      dropped := false }
  s.asyncReadHead

def byteAt (s : Reader) (i : ℕ) : UInt8 := s.data.getD i 0

/-- `recv_msg_node_ = make_shared<recv_node>(msg_len, msg_id)`, and the read
of the body. -/
def onNode (s : Reader) (node : RecvNode) (msgLen : ℤ) : Reader :=
  { s with nodes := s.nodes ++ [node], recvMsgNode := some s.nodes.length }.asyncReadBody msgLen

/-- The handler of `async_read_head` from the two fields on; `none` after an
access out of bounds. The exception is caught. -/
def onFields (s : Reader) (msgId msgLen : ℤ) : Option Reader :=
  if (MAXLENGTH : ℤ) < msgId then some s.clearSession
  else if (MAXLENGTH : ℤ) < msgLen then some s.clearSession
  else
    match recvNode msgLen msgId with
    | .error .badArrayNewLength => some s
    | .error .outOfBounds => none
    | .ok node => some (s.onNode node msgLen)

/-- The handler of `async_read_head`, when the read did not fail. -/
def onHead (s : Reader) (n : ℕ) : Option Reader :=
  if n < HEADTOTALLEN then some s.close.clearSession
  else s.onFields (networkShort (s.byteAt 0) (s.byteAt 1)) (networkShort (s.byteAt 2) (s.byteAt 3))

/-- The node takes `n` bytes and its terminator. -/
def takeBody (node : RecvNode) (bytes : Bytes) (n : ℕ) : Except Fault RecvNode := do
  let data ← memcpy node.data 0 bytes n
  let data ← memcpy data node.totalLen.toNat [0] 1
  return { node with data, curLen := toShort (node.curLen + n) }

/-- `post_msg` with the pointer. -/
def postMsg (s : Reader) (p : ℕ) : Reader := { s with posted := s.posted ++ [p] }

/-- The handler of `async_read_body`, when the read did not fail. -/
def onBody (s : Reader) (totalLen n : ℕ) : Option Reader :=
  if n < totalLen then some s.close.clearSession
  else do
    let p ← s.recvMsgNode
    let node ← s.nodes[p]?
    let node ← (takeBody node s.data n).toOption
    return ({ s with nodes := s.nodes.set p node }.postMsg p).asyncReadHead

/-- The read `p` brings `bs`. -/
def receive (s : Reader) (p : ReadLen) (bs : Bytes) : Option Reader :=
  let s := { s with data := fill s.data p.readLen bs, reading := none }
  let n := p.readLen + bs.length
  if p.totalLen ≤ n then
    match p.handler with
    | .head => s.onHead n
    | .body => s.onBody p.totalLen n
  else some (s.asyncReadLen n p.totalLen p.handler)

/-- A read completes: with an error, or with at most the bytes it asked for. -/
def step (s : Reader) (r : Received) : Option Reader :=
  s.reading.bind fun p =>
    match r with
    | .failed => some { s with reading := none }.close.clearSession
    | .bytes bs => if bs.length ≤ p.totalLen - p.readLen then s.receive p bs else none

/-- What `logic_system` finds in a node. -/
def message (node : RecvNode) : ℤ × Bytes := (node.msgId, node.data.take node.curLen.toNat)

/-- The messages in the nodes posted so far. -/
def messages (s : Reader) : List (ℤ × Bytes) := s.posted.filterMap fun p => s.nodes[p]?.map message

/-! ## What a read can change -/

/-- The pointers are to nodes, and while a body is read its node is new. -/
structure Pointers (s : Reader) : Prop where
  posted : ∀ p ∈ s.posted, p < s.nodes.length
  body : ∀ k total, s.reading = some ⟨.body, k, total⟩ → ∃ p, s.recvMsgNode = some p ∧ p ∉ s.posted

/-- The nodes posted, and that they were, stay as they are. -/
structure Keeps (s s' : Reader) : Prop where
  posted : s.posted <+: s'.posted
  nodes : ∀ p ∈ s.posted, s'.nodes[p]? = s.nodes[p]?

theorem Keeps.refl (s : Reader) : s.Keeps s := ⟨List.prefix_refl _, fun _ _ => rfl⟩

theorem Keeps.trans {s t u : Reader} (h₁ : s.Keeps t) (h₂ : t.Keeps u) : s.Keeps u := by
  refine ⟨h₁.posted.trans h₂.posted, fun p hp => ?_⟩
  rw [h₂.nodes p (h₁.posted.subset hp), h₁.nodes p hp]

theorem start_pointers : start.Pointers := by
  refine ⟨fun p hp => ?_, fun k total hr => ?_⟩
  · cases hp
  · cases hr

theorem onNode_pointers {s : Reader} (hp : ∀ p ∈ s.posted, p < s.nodes.length) (node : RecvNode) (msgLen : ℤ) :
    (s.onNode node msgLen).Pointers ∧ s.Keeps (s.onNode node msgLen) := by
  refine ⟨⟨fun p hm => ?_, fun k total hr => ⟨s.nodes.length, rfl, fun hm => ?_⟩⟩, List.prefix_refl _, fun p hm => ?_⟩
  · show p < (s.nodes ++ [node]).length
    have := hp p hm
    simp only [List.length_append, List.length_singleton]
    omega
  · have := hp _ hm
    omega
  · exact List.getElem?_append_left (hp p hm)

theorem onFields_pointers {s s' : Reader} (hp : ∀ p ∈ s.posted, p < s.nodes.length) (hr : s.reading = none)
    {msgId msgLen : ℤ} (h : s.onFields msgId msgLen = some s') : s'.Pointers ∧ s.Keeps s' := by
  have hstill : s.Pointers := ⟨hp, fun k total hx => by rw [hr] at hx; cases hx⟩
  unfold onFields at h
  split at h
  · cases h
    exact ⟨⟨hstill.posted, hstill.body⟩, List.prefix_refl _, fun _ _ => rfl⟩
  split at h
  · cases h
    exact ⟨⟨hstill.posted, hstill.body⟩, List.prefix_refl _, fun _ _ => rfl⟩
  split at h
  · cases h
    exact ⟨hstill, Keeps.refl s⟩
  · cases h
  · cases h
    exact onNode_pointers hp _ _

theorem onHead_pointers {s s' : Reader} (hp : ∀ p ∈ s.posted, p < s.nodes.length) (hr : s.reading = none) {n : ℕ}
    (h : s.onHead n = some s') : s'.Pointers ∧ s.Keeps s' := by
  unfold onHead at h
  split at h
  · cases h
    exact ⟨⟨hp, fun k total hx => by simp [close, clearSession, hr] at hx⟩, List.prefix_refl _, fun _ _ => rfl⟩
  · exact onFields_pointers hp hr h

/-- What the handler of a body can do. -/
theorem onBody_cases {s s' : Reader} {totalLen n : ℕ} (h : s.onBody totalLen n = some s') :
    n < totalLen ∧ s' = s.close.clearSession ∨
      totalLen ≤ n ∧ ∃ p node node', s.recvMsgNode = some p ∧ s.nodes[p]? = some node ∧
        takeBody node s.data n = .ok node' ∧
        s' = ({ s with nodes := s.nodes.set p node' }.postMsg p).asyncReadHead := by
  unfold onBody at h
  split at h
  · rename_i hlt
    exact .inl ⟨hlt, (Option.some.inj h).symm⟩
  · rename_i hge
    obtain ⟨p, hmember, h⟩ := Option.bind_eq_some_iff.1 h
    obtain ⟨node, hnode, h⟩ := Option.bind_eq_some_iff.1 h
    obtain ⟨node', hbody, h⟩ := Option.bind_eq_some_iff.1 h
    refine .inr ⟨Nat.le_of_not_lt hge, p, node, node', hmember, hnode, ?_, (Option.some.inj h).symm⟩
    cases hb : takeBody node s.data n with
    | error e =>
      rw [hb] at hbody
      cases hbody
    | ok made =>
      rw [hb] at hbody
      cases hbody
      rfl

/-- The node changed is not one of those posted before. -/
theorem onBody_pointers {s s' : Reader} (hp : ∀ p ∈ s.posted, p < s.nodes.length) (hr : s.reading = none)
    (hnew : ∀ p, s.recvMsgNode = some p → p ∉ s.posted) {totalLen n : ℕ} (h : s.onBody totalLen n = some s') :
    s'.Pointers ∧ s.Keeps s' := by
  obtain ⟨-, rfl⟩ | ⟨-, p, node, node', hmember, hnode, -, rfl⟩ := onBody_cases h
  · exact ⟨⟨hp, fun k total hx => by simp [close, clearSession, hr] at hx⟩, List.prefix_refl _, fun _ _ => rfl⟩
  · refine ⟨⟨fun q hq => ?_, fun k total hx => by cases hx⟩, List.prefix_append _ _, fun q hq => ?_⟩
    · show q < (s.nodes.set p node').length
      rw [List.length_set]
      rcases List.mem_append.1 hq with hq | hq
      · exact hp q hq
      · rw [List.mem_singleton.1 hq]
        exact (List.getElem?_eq_some_iff.1 hnode).1
    · refine List.getElem?_set_ne fun he => ?_
      exact hnew p hmember (he ▸ hq)

/-- What one step can be. -/
theorem step_cases {s s' : Reader} {r : Received} (h : s.step r = some s') :
    ∃ p, s.reading = some p ∧ (r = .failed ∧ s' = { s with reading := none }.close.clearSession ∨
      ∃ bs, r = .bytes bs ∧ bs.length ≤ p.totalLen - p.readLen ∧ s.receive p bs = some s') := by
  obtain ⟨p, hp, h⟩ := Option.bind_eq_some_iff.1 h
  refine ⟨p, hp, ?_⟩
  cases r with
  | failed => exact .inl ⟨rfl, (Option.some.inj h).symm⟩
  | bytes bs =>
    simp only at h
    split at h
    · rename_i hle
      exact .inr ⟨bs, rfl, hle, h⟩
    · cases h

theorem step_bytes {s : Reader} {p : ReadLen} {bs : Bytes} (hp : s.reading = some p)
    (hle : bs.length ≤ p.totalLen - p.readLen) : s.step (.bytes bs) = s.receive p bs := by
  rw [step, hp, Option.bind_some]
  exact if_pos hle

theorem step_pointers {s s' : Reader} {r : Received} (hs : s.Pointers) (h : s.step r = some s') :
    s'.Pointers ∧ s.Keeps s' := by
  obtain ⟨⟨handler, k, total⟩, hr, ⟨-, rfl⟩ | ⟨bs, -, -, h⟩⟩ := step_cases h
  · exact ⟨⟨hs.posted, fun k total hx => by cases hx⟩, List.prefix_refl _, fun _ _ => rfl⟩
  -- The bytes arrive in `data_`, which no node is part of.
  have hfilled : s.Keeps { s with data := fill s.data k bs, reading := none } := ⟨List.prefix_refl _, fun _ _ => rfl⟩
  unfold receive at h
  simp only at h
  split at h
  · cases handler with
    | head =>
      obtain ⟨hpointers, hkeeps⟩ := onHead_pointers (s := { s with data := fill s.data k bs, reading := none })
        hs.posted rfl h
      exact ⟨hpointers, hfilled.trans hkeeps⟩
    | body =>
      have hnew : ∀ p, s.recvMsgNode = some p → p ∉ s.posted := by
        intro p hp
        obtain ⟨q, hq, hfresh⟩ := hs.body k total hr
        rw [hp] at hq
        cases hq
        exact hfresh
      obtain ⟨hpointers, hkeeps⟩ := onBody_pointers (s := { s with data := fill s.data k bs, reading := none })
        hs.posted rfl hnew h
      exact ⟨hpointers, hfilled.trans hkeeps⟩
  · cases h
    refine ⟨⟨hs.posted, fun k' total' hx => ?_⟩, List.prefix_refl _, fun _ _ => rfl⟩
    cases hx
    exact hs.body k total hr

theorem run_pointers {rs : List Received} {s : Reader} (h : Run.run step start rs = some s) : s.Pointers :=
  Run.run_invariant Pointers (fun _ _ _ hs ht => (step_pointers hs ht).1) start_pointers h

theorem run_keeps : ∀ {rs : List Received} {s s' : Reader}, s.Pointers → Run.run step s rs = some s' → s.Keeps s'
  | [], s, s', _, h => by
    cases h
    exact Keeps.refl s
  | r :: rs, s, s', hs, h => by
    obtain ⟨t, ht, hrun⟩ := Run.run_cons.1 h
    obtain ⟨hpointers, hkeeps⟩ := step_pointers hs ht
    exact hkeeps.trans (run_keeps hpointers hrun)

/-! ## The reader is the session

`Csession` records its accesses, `Reader` its nodes. As long as every access
is in bounds they do the same. -/

/-- A node as `Csession` has it. -/
def plain (node : RecvNode) : Learncc.RecvNode := ⟨node.totalLen, node.msgId, node.data⟩

/-- A session and a reader that have got the same bytes. -/
structure Same (c : Csession) (s : Reader) : Prop where
  data : c.data = s.data
  reading : c.reading = s.reading
  recvMsgNode : c.recvMsgNode = s.recvMsgNode.bind fun p => s.nodes[p]?.map plain
  posted : c.posted.map some = s.posted.map fun p => s.nodes[p]?.map plain
  closed : c.closed = s.closed
  dropped : c.dropped = s.dropped
  filled : s.data.length = MAXLENGTH
  sizes : ∀ node ∈ s.nodes, node.data.length = (node.totalLen + 1).toNat

theorem start_same : Same Csession.start start :=
  ⟨rfl, rfl, rfl, rfl, rfl, rfl, List.length_replicate .., fun node hm => by cases hm⟩

/-- Both ask for a whole buffer. -/
theorem Same.asyncReadFull {c : Csession} {s : Reader} (h : Same c s) (n : ℕ) (handler : Handler) :
    Same (c.asyncReadFull n handler) (s.asyncReadFull n handler) :=
  ⟨rfl, rfl, h.recvMsgNode, h.posted, h.closed, h.dropped, List.length_replicate .., h.sizes⟩

theorem Same.clearSession {c : Csession} {s : Reader} (h : Same c s) : Same c.clearSession s.clearSession :=
  ⟨h.data, h.reading, h.recvMsgNode, h.posted, h.closed, rfl, h.filled, h.sizes⟩

theorem Same.close {c : Csession} {s : Reader} (h : Same c s) : Same c.close s.close :=
  ⟨h.data, h.reading, h.recvMsgNode, h.posted, rfl, h.dropped, h.filled, h.sizes⟩

/-- A store changes nothing of a node but what is written after it. -/
theorem Same.store {c : Csession} {s : Reader} (h : Same c s) (size pos : ℤ) (len : ℕ) :
    Same (c.store size pos len) s :=
  ⟨h.data, h.reading, h.recvMsgNode, h.posted, h.closed, h.dropped, h.filled, h.sizes⟩

/-- The new node is the last one. -/
theorem Same.onNode {c : Csession} {s : Reader} (h : Same c s) (hp : ∀ p ∈ s.posted, p < s.nodes.length)
    {node : RecvNode} (hn : node.data.length = (node.totalLen + 1).toNat) (msgLen : ℤ) :
    Same ({ c with recvMsgNode := some (plain node) }.asyncReadBody msgLen) (s.onNode node msgLen) := by
  refine Same.asyncReadFull (c := { c with recvMsgNode := some (plain node) })
    (s := { s with nodes := s.nodes ++ [node], recvMsgNode := some s.nodes.length }) ?_ _ _
  refine ⟨h.data, h.reading, ?_, ?_, h.closed, h.dropped, h.filled, fun other hm => ?_⟩
  · simp
  · rw [h.posted]
    refine List.map_congr_left fun p hm => ?_
    rw [List.getElem?_append_left (hp p hm)]
  · rcases List.mem_append.1 hm with hm | hm
    · exact h.sizes other hm
    · rw [List.mem_singleton.1 hm]
      exact hn

/-- The handlers of a head, when the session's accesses are in bounds. -/
theorem Same.onFields {c : Csession} {s : Reader} (h : Same c s) (hp : ∀ p ∈ s.posted, p < s.nodes.length)
    (msgId msgLen : ℤ) (hin : (c.onFields msgId msgLen).Inside) :
    ∃ s', s.onFields msgId msgLen = some s' ∧ Same (c.onFields msgId msgLen) s' := by
  unfold Csession.onFields at hin ⊢
  unfold Reader.onFields
  by_cases hid : (MAXLENGTH : ℤ) < msgId
  · rw [if_pos hid, if_pos hid]
    exact ⟨_, rfl, h.clearSession⟩
  rw [if_neg hid] at hin ⊢
  rw [if_neg hid]
  by_cases hmax : (MAXLENGTH : ℤ) < msgLen
  · rw [if_pos hmax, if_pos hmax]
    exact ⟨_, rfl, h.clearSession⟩
  rw [if_neg hmax] at hin ⊢
  rw [if_neg hmax]
  by_cases hthrow : msgLen + 1 < 0
  · rw [if_pos hthrow, recvNode, msgNode, if_pos hthrow]
    exact ⟨s, rfl, h⟩
  rw [if_neg hthrow] at hin ⊢
  have hpos : 0 ≤ msgLen := (hin.2 ⟨msgLen + 1, msgLen, 1⟩ (List.mem_append_right _ List.mem_cons_self)).1
  rw [recvNode, msgNode, if_neg hthrow, if_neg (by omega)]
  let node : RecvNode := { totalLen := msgLen, curLen := 0, data := List.replicate (msgLen + 1).toNat 0, msgId }
  have hsize : node.data.length = (node.totalLen + 1).toNat := List.length_replicate ..
  exact ⟨s.onNode node msgLen, rfl, (h.store _ _ _).onNode hp hsize msgLen⟩

theorem Same.onHead {c : Csession} {s : Reader} (h : Same c s) (hp : ∀ p ∈ s.posted, p < s.nodes.length) (n : ℕ)
    (hin : (c.onHead n).Inside) : ∃ s', s.onHead n = some s' ∧ Same (c.onHead n) s' := by
  have hbyte : ∀ i, c.byteAt i = s.byteAt i := fun i => by rw [Csession.byteAt, Reader.byteAt, h.data]
  unfold Csession.onHead at hin ⊢
  unfold Reader.onHead
  split
  · exact ⟨_, rfl, h.close.clearSession⟩
  · rename_i hge
    rw [if_neg hge] at hin
    simp only [hbyte] at hin ⊢
    exact ((h.store 5 0 4).store 5 0 n).onFields hp _ _ hin

/-- In bounds the two copies of a body are one `take` and one `set`. -/
theorem takeBody_inside {node : RecvNode} {bytes : Bytes} {n : ℕ}
    (hnode : node.data.length = (node.totalLen + 1).toNat) (h0 : 0 ≤ node.totalLen) (hn : (n : ℤ) ≤ node.totalLen + 1)
    (hsrc : n ≤ bytes.length) :
    takeBody node bytes n = .ok { node with
      data := (bytes.take n ++ node.data.drop n).set node.totalLen.toNat 0
      curLen := toShort (node.curLen + n) } := by
  have hbody : memcpy node.data 0 bytes n = .ok (bytes.take n ++ node.data.drop n) := by
    have := memcpy_append (a := []) (b := node.data) (c := bytes) (n := n) (by omega) hsrc
    simpa using this
  have hlen : (bytes.take n ++ node.data.drop n).length = node.data.length := by
    rw [List.length_append, List.length_take, List.length_drop]
    omega
  have hend : memcpy (bytes.take n ++ node.data.drop n) node.totalLen.toNat [0] 1 =
      .ok ((bytes.take n ++ node.data.drop n).set node.totalLen.toNat 0) := by
    rw [memcpy, if_pos ⟨by omega, Nat.le_refl 1⟩, List.set_eq_take_append_cons_drop, if_pos (by omega)]
    simp [fill]
  unfold takeBody
  simp only [hbody, hend, bind, Except.bind]
  rfl

/-- The handler of a body, when the session's accesses are in bounds. -/
theorem Same.onBody {c : Csession} {s : Reader} (h : Same c s) (hnew : ∀ p, s.recvMsgNode = some p → p ∉ s.posted)
    {node : Learncc.RecvNode} (hnode : c.recvMsgNode = some node) (total n : ℕ) (hn : n ≤ MAXLENGTH)
    (hin : (c.onBody total n).Inside) : ∃ s', s.onBody total n = some s' ∧ Same (c.onBody total n) s' := by
  unfold Csession.onBody at hin ⊢
  unfold Reader.onBody
  by_cases hlt : n < total
  · rw [if_pos hlt, if_pos hlt]
    exact ⟨_, rfl, h.close.clearSession⟩
  rw [if_neg hlt, hnode] at hin ⊢
  rw [if_neg hlt]
  obtain ⟨p, hp, hfound⟩ := Option.bind_eq_some_iff.1 (h.recvMsgNode.symm.trans hnode)
  obtain ⟨node, hat, rfl⟩ := Option.map_eq_some_iff.1 hfound
  have hstore : ∀ pos len, ⟨node.totalLen + 1, pos, len⟩ ∈
      ((c.store (node.totalLen + 1) 0 n).store (node.totalLen + 1) node.totalLen 1).stores →
      NodeStore.Inside ⟨node.totalLen + 1, pos, len⟩ := fun pos len hm => hin.2 _ hm
  have hend : 0 ≤ node.totalLen := (hstore node.totalLen 1 (by simp [Csession.store])).1
  have hfits : 0 + (n : ℤ) ≤ node.totalLen + 1 := (hstore 0 n (by simp [Csession.store])).2
  have hsrc : n ≤ s.data.length := by
    rw [h.filled]
    exact hn
  have htake := takeBody_inside (h.sizes node (List.mem_of_getElem? hat)) hend (by omega) hsrc
  rw [hp]
  simp only [bind, Option.bind_some, hat, htake, Except.toOption]
  refine ⟨_, rfl, Same.asyncReadFull ?_ _ _⟩
  have hlt : p < s.nodes.length := (List.getElem?_eq_some_iff.1 hat).1
  refine ⟨h.data, h.reading, ?_, ?_, h.closed, h.dropped, h.filled, fun other hm => ?_⟩
  · simp [postMsg, hlt, plain, Csession.store, h.data]
  · simp only [Csession.store, postMsg, List.map_append, List.map_cons, List.map_nil]
    rw [h.posted]
    congr 1
    · refine List.map_congr_left fun q hq => ?_
      have hne : p ≠ q := fun he => hnew p hp (he ▸ hq)
      rw [List.getElem?_set_ne hne]
    · simp [hlt, plain, h.data]
  · rcases List.mem_or_eq_of_mem_set hm with hm | rfl
    · exact h.sizes other hm
    · have hlen := h.sizes node (List.mem_of_getElem? hat)
      have hdata := h.filled
      simp only [List.length_set, List.length_append, List.length_take, List.length_drop]
      omega

/-- One read. -/
theorem step_same {c c' : Csession} {s : Reader} {r : Received} {w : Wire} (h : Same c s) (hs : s.Pointers)
    (hw : c.Follows w) (hc : c.step r = some c') (hin : c'.Inside) : ∃ s', s.step r = some s' ∧ Same c' s' := by
  obtain ⟨hinside, ⟨handler, k, total⟩, hp, ⟨rfl, rfl⟩ | ⟨bs, rfl, hle, rfl⟩⟩ := Csession.step_cases hc
  · refine ⟨{ s with reading := none }.close.clearSession, ?_, ?_⟩
    · rw [step, ← h.reading, hp]
      rfl
    · exact ⟨h.data, rfl, h.recvMsgNode, h.posted, rfl, rfl, h.filled, h.sizes⟩
  rw [step_bytes (h.reading.symm.trans hp) hle]
  have hroom : k + bs.length ≤ MAXLENGTH ∧ (handler = .body → ∃ node, c.recvMsgNode = some node) := by
    cases hw with
    | head k hr hk =>
      rw [hr] at hp
      cases hp
      simp only [HEADTOTALLEN] at hle hk
      unfold MAXLENGTH
      exact ⟨by omega, fun hx => by cases hx⟩
    | body k total node hr hk ht hn =>
      rw [hr] at hp
      cases hp
      simp only at hle
      exact ⟨by omega, fun _ => ⟨node, hn⟩⟩
    | gone w hr =>
      rw [hr] at hp
      cases hp
    | lost hno hstop =>
      rw [hstop] at hc
      cases hc
  have hfill : Same { c with data := fill c.data k bs, reading := none }
      { s with data := fill s.data k bs, reading := none } := by
    refine ⟨by rw [h.data], rfl, h.recvMsgNode, h.posted, h.closed, h.dropped, ?_, h.sizes⟩
    exact (fill_length (by rw [h.filled]; exact hroom.1)).trans h.filled
  unfold Csession.receive at hin ⊢
  unfold Reader.receive
  simp only at hin ⊢
  split
  · rename_i hfull
    rw [if_pos hfull] at hin
    cases handler with
    | head => exact hfill.onHead hs.posted _ hin
    | body =>
      obtain ⟨node, hnode⟩ := hroom.2 rfl
      have hnew : ∀ p, s.recvMsgNode = some p → p ∉ s.posted := by
        intro p hp
        obtain ⟨q, hq, hfresh⟩ := hs.body k total (h.reading.symm.trans ‹_›)
        rw [hp] at hq
        cases hq
        exact hfresh
      exact hfill.onBody hnew hnode total _ hroom.1 hin
  · exact ⟨_, rfl, hfill.data, rfl, h.recvMsgNode, h.posted, h.closed, h.dropped, hfill.filled, h.sizes⟩

/-- **One session.** Whatever the peer sends, a session whose accesses were
all in bounds has posted the messages the reader of the same bytes has. -/
theorem run_same {rs : List Received} {c : Csession} (h : Run.run Csession.step Csession.start rs = some c)
    (hin : c.Inside) : ∃ s, Run.run step start rs = some s ∧ Same c s := by
  refine Run.run_history (fun rs c => c.Inside → ∃ s, Run.run step start rs = some s ∧ Same c s)
    (fun _ => ⟨start, rfl, start_same⟩) (fun rs c r c' hrun ih hc hin => ?_) h hin
  obtain ⟨s, hs, hsame⟩ := ih (Csession.step_cases hc).1
  obtain ⟨s', hs', hsame'⟩ := step_same hsame (run_pointers hs) (Csession.run_follows hrun) hc hin
  exact ⟨s', Run.run_concat.2 ⟨s, hs, hs'⟩, hsame'⟩

end Reader

/-! ## Frames -/

/-- A message as a client sends it. -/
structure Frame where
  id : ℕ
  body : Bytes
  id_le : id ≤ MAXLENGTH
  length_le : body.length ≤ MAXLENGTH

namespace Frame

def head (f : Frame) : Bytes := networkBytes f.id ++ networkBytes f.body.length

def bytes (f : Frame) : Bytes := f.head ++ f.body

def message (f : Frame) : ℤ × Bytes := (f.id, f.body)

/-- The bytes of frames sent one after another. -/
def stream (frames : List Frame) : Bytes := frames.flatMap bytes

@[simp] theorem head_length (f : Frame) : f.head.length = HEADTOTALLEN := rfl

theorem stream_append (fs gs : List Frame) : stream (fs ++ gs) = stream fs ++ stream gs := List.flatMap_append

theorem stream_cons (f : Frame) (fs : List Frame) : stream (f :: fs) = f.head ++ (f.body ++ stream fs) := by
  simp [stream, bytes]

/-- Four bytes of a stream are the head of its first frame. -/
theorem head_of_begin {frames : List Frame} {bs : Bytes} (h : bs <+: stream frames) (hlen : bs.length = HEADTOTALLEN) :
    ∃ f rest, frames = f :: rest ∧ bs = f.head := by
  cases frames with
  | nil =>
    rw [List.prefix_nil.1 h] at hlen
    cases hlen
  | cons f rest =>
    rw [stream_cons] at h
    have hhead : f.head <+: f.head ++ (f.body ++ stream rest) := List.prefix_append _ _
    exact ⟨f, rest, rfl, (List.prefix_of_prefix_length_le h hhead (by rw [hlen]; rfl)).eq_of_length (by rw [hlen]; rfl)⟩

/-- The reader takes the fields of a head back. -/
theorem fields_of_head {f : Frame} {data : Bytes} (h : data.take HEADTOTALLEN = f.head) :
    networkShort (data.getD 0 0) (data.getD 1 0) = f.id ∧
      networkShort (data.getD 2 0) (data.getD 3 0) = f.body.length := by
  have hid := f.id_le
  have hlen := f.length_le
  unfold MAXLENGTH at hid hlen
  have hbyte : ∀ i < 4, data.getD i 0 = f.head.getD i 0 := by
    intro i hi
    rw [← h]
    simp [HEADTOTALLEN, List.getD_eq_getElem?_getD, hi]
  rw [hbyte 0 (by decide), hbyte 1 (by decide), hbyte 2 (by decide), hbyte 3 (by decide)]
  exact ⟨networkShort_networkBytes (by omega) (by omega) rfl, networkShort_networkBytes (by omega) (by omega) rfl⟩

end Frame

namespace Reader

theorem messages_of_posted_eq {s s' : Reader} (hk : s.Keeps s') (hp : s'.posted = s.posted) :
    s'.messages = s.messages := by
  unfold messages
  rw [hp]
  refine List.filterMap_congr fun p hm => ?_
  rw [hk.nodes p hm]

theorem messages_of_posted_concat {s s' : Reader} (hk : s.Keeps s') {p : ℕ} {node : RecvNode}
    (hp : s'.posted = s.posted ++ [p]) (hn : s'.nodes[p]? = some node) :
    s'.messages = s.messages ++ [message node] := by
  unfold messages
  rw [hp, List.filterMap_append, List.filterMap_cons, hn]
  congr 1
  refine List.filterMap_congr fun q hm => ?_
  rw [hk.nodes q hm]

/-- The node made for a frame, before its body has come. -/
def nodeFor (f : Frame) : RecvNode :=
  { totalLen := f.body.length, curLen := 0, data := List.replicate (f.body.length + 1) 0, msgId := f.id }

theorem recvNode_frame (f : Frame) : recvNode f.body.length f.id = .ok (nodeFor f) := by
  rw [recvNode, msgNode_ok]
  rfl

/-- A whole body: the message is in the node. -/
theorem takeBody_frame {f : Frame} {bytes : Bytes} (h : bytes.take f.body.length = f.body) :
    ∃ node, takeBody (nodeFor f) bytes f.body.length = .ok node ∧ message node = f.message := by
  have hlen := f.length_le
  unfold MAXLENGTH at hlen
  have hsrc : f.body.length ≤ bytes.length := by
    have := congrArg List.length h
    rw [List.length_take] at this
    omega
  have hcur : toShort (0 + (f.body.length : ℕ)) = f.body.length := by
    rw [Int.zero_add]
    exact toShort_of_short (by omega) (by omega)
  have hbody : memcpy (List.replicate (f.body.length + 1) 0) 0 bytes f.body.length = .ok (f.body ++ [0]) := by
    have := memcpy_append (a := []) (b := List.replicate (f.body.length + 1) 0) (c := bytes) (n := f.body.length)
      (by simp) hsrc
    rw [h] at this
    simpa using this
  have hend : memcpy (f.body ++ [0]) f.body.length [0] 1 = .ok (f.body ++ [0]) := by
    have := memcpy_append (a := f.body) (b := [0]) (c := [0]) (n := 1) (by simp) (by simp)
    simpa using this
  refine ⟨{ nodeFor f with data := f.body ++ [0], curLen := f.body.length }, ?_, ?_⟩
  · unfold takeBody nodeFor
    simp only [Int.toNat_natCast, hbody, hend, hcur, bind, Except.bind]
    rfl
  · simp [message, Frame.message, nodeFor]

/-- Where a reader stands that has got the bytes `got` of `frames`: the frames
`done` are posted, and it is in the next head or in the body behind it. -/
inductive At (frames : List Frame) (got : Bytes) (s : Reader) : Prop
  | head (done rest : List Frame) (k : ℕ) (hframes : frames = done ++ rest)
      (hdone : s.messages = done.map Frame.message) (hr : s.reading = some ⟨.head, k, HEADTOTALLEN⟩)
      (hk : k < HEADTOTALLEN) (hd : s.data.length = MAXLENGTH)
      (hgot : got = Frame.stream done ++ s.data.take k) : At frames got s
  | body (done rest : List Frame) (f : Frame) (k p : ℕ) (hframes : frames = done ++ f :: rest)
      (hdone : s.messages = done.map Frame.message) (hr : s.reading = some ⟨.body, k, f.body.length⟩)
      (hk : k ≤ f.body.length) (hd : s.data.length = MAXLENGTH)
      (hgot : got = Frame.stream done ++ (f.head ++ s.data.take k)) (hp : s.recvMsgNode = some p)
      (hn : s.nodes[p]? = some (nodeFor f)) : At frames got s

theorem start_at (frames : List Frame) : start.At frames [] :=
  .head [] frames 0 rfl rfl rfl (by decide) (List.length_replicate ..) rfl

/-- The head of a frame. -/
theorem onHead_at {s : Reader} {done rest : List Frame} {f : Frame} (hp : ∀ p ∈ s.posted, p < s.nodes.length)
    (hdone : s.messages = done.map Frame.message) (hhead : s.data.take HEADTOTALLEN = f.head) :
    ∃ s', s.onHead HEADTOTALLEN = some s' ∧ s'.At (done ++ f :: rest) (Frame.stream done ++ f.head) := by
  have hid := f.id_le
  have hlen := f.length_le
  have hmod : (((f.body.length : ℕ) : ℤ) % 2 ^ 64).toNat = f.body.length := by
    unfold MAXLENGTH at hlen
    omega
  obtain ⟨hf₁, hf₂⟩ := Frame.fields_of_head hhead
  refine ⟨s.onNode (nodeFor f) f.body.length, ?_, ?_⟩
  · unfold onHead onFields byteAt
    rw [if_neg (Nat.lt_irrefl _), hf₁, hf₂, if_neg (by omega), if_neg (by omega), recvNode_frame]
  · refine .body done rest f 0 s.nodes.length rfl ?_ ?_ (Nat.zero_le _) (List.length_replicate ..) (by simp) rfl ?_
    · rw [← hdone]
      exact messages_of_posted_eq (onNode_pointers hp _ _).2 rfl
    · unfold onNode asyncReadBody
      rw [hmod]
      rfl
    · exact List.getElem?_concat_length

/-- The rest of a head, or part of it. -/
theorem receive_head {s : Reader} {done rest : List Frame} {k : ℕ} {bs : Bytes} (hs : s.Pointers)
    (hdone : s.messages = done.map Frame.message) (hk : k < HEADTOTALLEN) (hd : s.data.length = MAXLENGTH)
    (hle : bs.length ≤ HEADTOTALLEN - k)
    (hpre : Frame.stream done ++ s.data.take k ++ bs <+: Frame.stream (done ++ rest)) :
    ∃ s', s.receive ⟨.head, k, HEADTOTALLEN⟩ bs = some s' ∧
      s'.At (done ++ rest) (Frame.stream done ++ s.data.take k ++ bs) := by
  have hroom : k + bs.length ≤ s.data.length := by
    rw [hd]
    unfold HEADTOTALLEN at hle hk
    unfold MAXLENGTH
    omega
  have htake : (fill s.data k bs).take (k + bs.length) = s.data.take k ++ bs := fill_take (by omega)
  have hd' : (fill s.data k bs).length = MAXLENGTH := (fill_length hroom).trans hd
  rw [List.append_assoc, ← htake] at hpre ⊢
  rw [Frame.stream_append, List.prefix_append_right_inj] at hpre
  simp only [receive]
  by_cases hfull : HEADTOTALLEN ≤ k + bs.length
  · have h4 : k + bs.length = HEADTOTALLEN := by omega
    rw [h4] at hpre
    rw [if_pos hfull, h4]
    obtain ⟨f, rest, rfl, hhead⟩ := Frame.head_of_begin hpre (by
      rw [List.length_take, hd']
      rfl)
    rw [hhead]
    exact onHead_at (s := { s with data := fill s.data k bs, reading := none }) hs.posted hdone hhead
  · rw [if_neg hfull]
    exact ⟨_, rfl, .head done rest _ rfl hdone rfl (by omega) hd' rfl⟩

/-- The whole body of a frame. -/
theorem onBody_at {s : Reader} {done rest : List Frame} {f : Frame} {p : ℕ}
    (hdone : s.messages = done.map Frame.message) (hp : s.recvMsgNode = some p) (hnew : p ∉ s.posted)
    (hn : s.nodes[p]? = some (nodeFor f)) (hbody : s.data.take f.body.length = f.body) :
    ∃ s', s.onBody f.body.length f.body.length = some s' ∧
      s'.At (done ++ f :: rest) (Frame.stream done ++ (f.head ++ f.body)) := by
  obtain ⟨node, hnode, hmsg⟩ := takeBody_frame hbody
  refine ⟨({ s with nodes := s.nodes.set p node }.postMsg p).asyncReadHead, ?_, ?_⟩
  · unfold onBody
    rw [if_neg (Nat.lt_irrefl _), hp]
    simp only [bind, Option.bind_some, hn, hnode]
    rfl
  · have hkeeps : s.Keeps ({ s with nodes := s.nodes.set p node }.postMsg p).asyncReadHead := by
      refine ⟨List.prefix_append _ _, fun q hq => List.getElem?_set_ne fun he => ?_⟩
      exact hnew (he ▸ hq)
    have hset : (s.nodes.set p node)[p]? = some node :=
      List.getElem?_set_self (List.getElem?_eq_some_iff.1 hn).1
    refine .head (done ++ [f]) rest 0 (by simp) ?_ rfl (by decide) (List.length_replicate ..) ?_
    · rw [messages_of_posted_concat hkeeps rfl hset, hdone, hmsg]
      simp
    · rw [Frame.stream_append]
      simp [Frame.stream, Frame.bytes]

/-- The rest of a body, or part of it. -/
theorem receive_body {s : Reader} {done rest : List Frame} {f : Frame} {k p : ℕ} {bs : Bytes}
    (hdone : s.messages = done.map Frame.message) (hk : k ≤ f.body.length) (hd : s.data.length = MAXLENGTH)
    (hp : s.recvMsgNode = some p) (hnew : p ∉ s.posted) (hn : s.nodes[p]? = some (nodeFor f))
    (hle : bs.length ≤ f.body.length - k)
    (hpre : Frame.stream done ++ (f.head ++ s.data.take k) ++ bs <+: Frame.stream (done ++ f :: rest)) :
    ∃ s', s.receive ⟨.body, k, f.body.length⟩ bs = some s' ∧
      s'.At (done ++ f :: rest) (Frame.stream done ++ (f.head ++ s.data.take k) ++ bs) := by
  have hlen := f.length_le
  have htake : (fill s.data k bs).take (k + bs.length) = s.data.take k ++ bs := fill_take (by omega)
  have hd' : (fill s.data k bs).length = MAXLENGTH := (fill_length (by omega)).trans hd
  rw [List.append_assoc, List.append_assoc, ← htake] at hpre ⊢
  rw [Frame.stream_append, Frame.stream_cons, List.prefix_append_right_inj, List.prefix_append_right_inj] at hpre
  simp only [receive]
  by_cases hfull : f.body.length ≤ k + bs.length
  · have heq : k + bs.length = f.body.length := by omega
    rw [heq] at hpre
    rw [if_pos hfull, heq]
    have hbody : (fill s.data k bs).take f.body.length = f.body := by
      have hlen' : ((fill s.data k bs).take f.body.length).length = f.body.length := by
        rw [List.length_take]
        omega
      exact (List.prefix_of_prefix_length_le hpre (List.prefix_append _ _) (Nat.le_of_eq hlen')).eq_of_length hlen'
    rw [hbody]
    exact onBody_at (s := { s with data := fill s.data k bs, reading := none }) hdone hp hnew hn hbody
  · rw [if_neg hfull]
    exact ⟨_, rfl, .body done rest f _ p rfl hdone rfl (by omega) hd' rfl hp hn⟩

/-- A read under way takes any piece of what is to come, of at most the length
it asked for. -/
theorem step_at {frames : List Frame} {got : Bytes} {s : Reader} (hs : s.Pointers) (h : s.At frames got) :
    ∃ p, s.reading = some p ∧ ∀ bs, bs.length ≤ p.totalLen - p.readLen → got ++ bs <+: Frame.stream frames →
      ∃ s', s.step (.bytes bs) = some s' ∧ s'.At frames (got ++ bs) := by
  cases h with
  | head done rest k hframes hdone hr hk hd hgot =>
    refine ⟨_, hr, fun bs hle hpre => ?_⟩
    subst hframes hgot
    obtain ⟨s', hs', hat⟩ := receive_head hs hdone hk hd hle hpre
    exact ⟨s', (step_bytes hr hle).trans hs', hat⟩
  | body done rest f k p hframes hdone hr hk hd hgot hp hn =>
    refine ⟨_, hr, fun bs hle hpre => ?_⟩
    subst hframes hgot
    have hnew : p ∉ s.posted := by
      obtain ⟨q, hq, hfresh⟩ := hs.body _ _ hr
      rw [hp] at hq
      cases hq
      exact hfresh
    obtain ⟨s', hs', hat⟩ := receive_body hdone hk hd hp hnew hn hle hpre
    exact ⟨s', (step_bytes hr hle).trans hs', hat⟩

theorem run_at {frames : List Frame} {rs : List Received} {s : Reader} (h : Run.run step start rs = some s) :
    .failed ∉ rs → sent rs <+: Frame.stream frames → s.At frames (sent rs) := by
  refine Run.run_history (fun rs s => .failed ∉ rs → sent rs <+: Frame.stream frames → s.At frames (sent rs))
    (fun _ _ => start_at frames) (fun rs s r t hrun ih hs hok hpre => ?_) h
  have hsent : sent (rs ++ [r]) = sent rs ++ r.data := by simp [sent]
  rw [hsent] at hpre ⊢
  have hat := ih (fun hm => hok (List.mem_append_left _ hm)) ((List.prefix_append _ _).trans hpre)
  obtain ⟨p, hp, hstep⟩ := step_at (run_pointers hrun) hat
  obtain ⟨q, hq, ⟨rfl, -⟩ | ⟨bs, rfl, hle, -⟩⟩ := step_cases hs
  · exact absurd (List.mem_append_right _ List.mem_cons_self) hok
  · rw [hp] at hq
    cases hq
    obtain ⟨t', ht', hat'⟩ := hstep bs hle hpre
    rw [hs] at ht'
    cases ht'
    exact hat'

theorem at_messages_begin {frames : List Frame} {got : Bytes} {s : Reader} (h : s.At frames got) :
    s.messages <+: frames.map Frame.message := by
  cases h with
  | head done rest k hframes hdone =>
    rw [hdone, hframes, List.map_append]
    exact List.prefix_append _ _
  | body done rest f k p hframes hdone =>
    rw [hdone, hframes, List.map_append]
    exact List.prefix_append _ _

/-- With all the bytes in, and no empty body left to read. -/
theorem at_messages_all {frames : List Frame} {s : Reader} (h : s.At frames (Frame.stream frames))
    (hidle : ∀ p, s.reading = some p → p.readLen < p.totalLen) : s.messages = frames.map Frame.message := by
  cases h with
  | head done rest k hframes hdone hr hk hd hgot =>
    rw [hframes, Frame.stream_append, List.append_cancel_left_eq] at hgot
    cases rest with
    | nil => rw [hdone, hframes, List.append_nil]
    | cons f rest =>
      rw [Frame.stream_cons] at hgot
      have hlen := congrArg List.length hgot
      simp only [List.length_append, Frame.head_length, List.length_take] at hlen
      omega
  | body done rest f k p hframes hdone hr hk hd hgot hp hn =>
    have hlt : k < f.body.length := hidle _ hr
    rw [hframes, Frame.stream_append, Frame.stream_cons, List.append_cancel_left_eq, List.append_cancel_left_eq] at hgot
    have hlen := congrArg List.length hgot
    simp only [List.length_append, List.length_take] at hlen
    omega

/-- **Reassembly.** Let a client send any frames, and let the bytes arrive in
any pieces. The messages posted are always a beginning of the frames, and all
of them when all the bytes are in and the read under way is not an empty one;
the session takes every next piece; and no later read, failed ones included,
changes a node once it is posted. -/
theorem reassembles (frames : List Frame) {rs : List Received} {s : Reader} (h : Run.run step start rs = some s)
    (hok : .failed ∉ rs) (hsent : sent rs <+: Frame.stream frames) :
    s.messages <+: frames.map Frame.message ∧
      (sent rs = Frame.stream frames → (∀ p, s.reading = some p → p.readLen < p.totalLen) →
        s.messages = frames.map Frame.message) ∧
      (∃ p, s.reading = some p ∧ ∀ bs, bs.length ≤ p.totalLen - p.readLen → sent rs ++ bs <+: Frame.stream frames →
        ∃ s', s.step (.bytes bs) = some s') ∧
      ∀ rs' s', Run.run step s rs' = some s' → s.Keeps s' := by
  have hat := run_at h hok hsent
  have hpointers := run_pointers h
  refine ⟨at_messages_begin hat, fun hall hidle => ?_, ?_, fun rs' s' h' => run_keeps hpointers h'⟩
  · rw [hall] at hat
    exact at_messages_all hat hidle
  · obtain ⟨p, hp, hstep⟩ := step_at hpointers hat
    refine ⟨p, hp, fun bs hle hpre => ?_⟩
    obtain ⟨s', hs', -⟩ := hstep bs hle hpre
    exact ⟨s', hs'⟩

/-- A message of two bytes and an empty one. -/
def twoFrames : List Frame := [⟨1005, [104, 105], by decide, by decide⟩, ⟨1007, [], by decide, by decide⟩]

def inPieces : List Received :=
  [.bytes [3, 237], .bytes [0, 2], .bytes [104], .bytes [105], .bytes [3, 239, 0], .bytes [0], .bytes []]

theorem reassembles_twoFrames :
    ∃ s, Run.run step start inPieces = some s ∧ s.messages = [(1005, [104, 105]), (1007, [])] := by
  have hsome : (Run.run step start inPieces).map (fun s => s.reading) = some (some ⟨.head, 0, 4⟩) := by decide +kernel
  obtain ⟨s, hs, hr⟩ := Option.map_eq_some_iff.1 hsome
  have hall := (reassembles twoFrames hs (by decide) (by decide +kernel)).2.1 (by decide +kernel)
  refine ⟨s, hs, hall fun p hp => ?_⟩
  rw [hr] at hp
  cases hp
  decide

end Reader

end Learncc.Chat
