/-
`csession` (src/chat_server/csession.cc), the receiving half: it reads a head
of four bytes, takes a message id and a length from it, reads that many bytes
and starts over. Lengths are `short` in the message, `int` in the handler and
`size_t` in the read.

The state records every read the session asks of the socket and every store
it makes into a `msg_node`; after one that is out of bounds nothing is known
of it any more. `safe_iff`: all of them are in bounds, and a session that
reads no more has been dropped, exactly when the peer has sent no accepted
head with a negative length.
-/
import Learncc.Lib.Run
import Learncc.Posix
import Mathlib.Algebra.Ring.Int.Defs
import Mathlib.Algebra.Ring.Nat

namespace Learncc

def MAXLENGTH : ℕ := 1024 * 2

def HEADTOTALLEN : ℕ := 4

/-- Two bytes in network order, as a `short`. -/
def networkShort (hi lo : UInt8) : ℤ := (BitVec.ofNat 16 (hi.toNat * 256 + lo.toNat)).toInt

/-- A read of `len` bytes into `data_ + off`. -/
structure ReadSome where
  off : ℕ
  len : ℕ
deriving Repr, DecidableEq

def ReadSome.Inside (r : ReadSome) : Prop := r.off + r.len ≤ MAXLENGTH

instance (r : ReadSome) : Decidable r.Inside := inferInstanceAs (Decidable (_ ≤ _))

/-- A store of `len` bytes at index `pos` of a node's `data_`, which has
`size` bytes. -/
structure NodeStore where
  size : ℤ
  pos : ℤ
  len : ℕ
deriving Repr, DecidableEq

def NodeStore.Inside (w : NodeStore) : Prop := 0 ≤ w.pos ∧ w.pos + w.len ≤ w.size

instance (w : NodeStore) : Decidable w.Inside := inferInstanceAs (Decidable (_ ∧ _))

/-- `recv_node`, up to the count of bytes in it, which nothing reads. -/
structure RecvNode where
  totalLen : ℤ
  msgId : ℤ
  data : Bytes
deriving Repr, DecidableEq

/-- The handler a read was started with. -/
inductive Handler
  | head
  | body
deriving Repr, DecidableEq

/-- `async_read_len` with a read under way. -/
structure ReadLen where
  handler : Handler
  readLen : ℕ
  totalLen : ℕ
deriving Repr, DecidableEq

structure Csession where
  data : Bytes
  reading : Option ReadLen
  recvMsgNode : Option RecvNode
  posted : List RecvNode
  closed : Bool
  dropped : Bool
  reads : List ReadSome
  stores : List NodeStore
deriving Repr, DecidableEq

/-- What `async_read_some` completes with. -/
inductive Received
  | failed
  | bytes (bs : Bytes)
deriving Repr, DecidableEq

/-- The bytes a read brings. -/
def Received.data : Received → Bytes
  | .failed => []
  | .bytes bs => bs

namespace Csession

def close (s : Csession) : Csession := { s with closed := true }

/-- `server_->clear_session(session_id_)`. -/
def clearSession (s : Csession) : Csession := { s with dropped := true }

def store (s : Csession) (size pos : ℤ) (len : ℕ) : Csession := { s with stores := s.stores ++ [⟨size, pos, len⟩] }

/-- `total_len` is not below `read_len` where this is called. -/
def asyncReadLen (s : Csession) (readLen totalLen : ℕ) (handler : Handler) : Csession :=
  { s with
    reading := some ⟨handler, readLen, totalLen⟩
    reads := s.reads ++ [⟨readLen, totalLen - readLen⟩] }

def asyncReadFull (s : Csession) (maxLength : ℕ) (handler : Handler) : Csession :=
  { s with data := List.replicate MAXLENGTH 0 }.asyncReadLen 0 maxLength handler

def asyncReadHead (s : Csession) : Csession := s.asyncReadFull HEADTOTALLEN .head

/-- The `int` becomes a `size_t`. -/
def asyncReadBody (s : Csession) (totalLen : ℤ) : Csession := s.asyncReadFull (totalLen % 2 ^ 64).toNat .body

/-- The constructor of the session, which makes the node for heads, and
`start`. -/
def start : Csession :=
  let s : Csession := { data := [], reading := none, recvMsgNode := none, posted := [], closed := false,
                        dropped := false, reads := [], stores := [] }
  (s.store 5 4 1).asyncReadHead

def byteAt (s : Csession) (i : ℕ) : UInt8 := s.data.getD i 0

/-- The handler of `async_read_head` from the two fields on. A negative array
size makes `new` throw, which the handler catches. -/
def onFields (s : Csession) (msgId msgLen : ℤ) : Csession :=
  if (MAXLENGTH : ℤ) < msgId then s.clearSession
  else if (MAXLENGTH : ℤ) < msgLen then s.clearSession
  else if msgLen + 1 < 0 then s
  else
    let s := s.store (msgLen + 1) msgLen 1
    { s with recvMsgNode := some ⟨msgLen, msgId, List.replicate (msgLen + 1).toNat 0⟩ }.asyncReadBody msgLen

/-- The handler of `async_read_head`, when the read did not fail: the node for
heads is cleared, takes the bytes, and the fields are read from it. -/
def onHead (s : Csession) (n : ℕ) : Csession :=
  if n < HEADTOTALLEN then s.close.clearSession
  else
    ((s.store 5 0 4).store 5 0 n).onFields (networkShort (s.byteAt 0) (s.byteAt 1))
      (networkShort (s.byteAt 2) (s.byteAt 3))

/-- The handler of `async_read_body`, when the read did not fail. -/
def onBody (s : Csession) (totalLen n : ℕ) : Csession :=
  if n < totalLen then s.close.clearSession
  else
    match s.recvMsgNode with
    | none => s
    | some node =>
      let s := (s.store (node.totalLen + 1) 0 n).store (node.totalLen + 1) node.totalLen 1
      let node := { node with data := (s.data.take n ++ node.data.drop n).set node.totalLen.toNat 0 }
      { s with recvMsgNode := some node, posted := s.posted ++ [node] }.asyncReadHead

/-- Every read and every store is in bounds. -/
def Inside (s : Csession) : Prop := (∀ r ∈ s.reads, r.Inside) ∧ ∀ w ∈ s.stores, w.Inside

instance (s : Csession) : Decidable s.Inside := inferInstanceAs (Decidable (_ ∧ _))

/-- The bytes arrive in `data_` from index `off` on. -/
def fill (data : Bytes) (off : ℕ) (bs : Bytes) : Bytes := data.take off ++ bs ++ data.drop (off + bs.length)

/-- The read `p` brings `bs`. -/
def receive (s : Csession) (p : ReadLen) (bs : Bytes) : Csession :=
  let s := { s with data := fill s.data p.readLen bs, reading := none }
  let n := p.readLen + bs.length
  if p.totalLen ≤ n then
    match p.handler with
    | .head => s.onHead n
    | .body => s.onBody p.totalLen n
  else s.asyncReadLen n p.totalLen p.handler

/-- A read completes: with an error, or with at most the bytes it asked for. -/
def step (s : Csession) (r : Received) : Option Csession :=
  if s.Inside then
    s.reading.bind fun p =>
      match r with
      | .failed => some { s with reading := none }.close.clearSession
      | .bytes bs => if bs.length ≤ p.totalLen - p.readLen then some (s.receive p bs) else none
  else none

/-- Every access is in bounds, and whoever reads no more has been dropped. -/
structure Safe (s : Csession) : Prop where
  inside : s.Inside
  dropped : s.reading = none → s.dropped = true

end Csession

/-! ## What the peer sent -/

/-- Where the bytes of a peer stand: inside a head, inside a body of which
`left` bytes are missing, or behind a head that was refused or had a negative
length. -/
inductive Wire
  | head (got : Bytes)
  | body (left : ℕ)
  | refused
  | negative
deriving Repr, DecidableEq

namespace Wire

/-- A body of `n` bytes begins. -/
def bodyOf (n : ℕ) : Wire := if n = 0 then .head [] else .body n

def ofFields (msgId msgLen : ℤ) : Wire :=
  if (MAXLENGTH : ℤ) < msgId ∨ (MAXLENGTH : ℤ) < msgLen then .refused
  else if msgLen < 0 then .negative
  else bodyOf msgLen.toNat

def ofHead (got : Bytes) : Wire :=
  ofFields (networkShort (got.getD 0 0) (got.getD 1 0)) (networkShort (got.getD 2 0) (got.getD 3 0))

def next : Wire → UInt8 → Wire
  | .head got, b => if got.length = 3 then ofHead (got ++ [b]) else .head (got ++ [b])
  | .body left, _ => bodyOf (left - 1)
  | .refused, _ => .refused
  | .negative, _ => .negative

def after (bs : Bytes) : Wire := bs.foldl next (.head [])

theorem after_append (bs cs : Bytes) : after (bs ++ cs) = cs.foldl next (after bs) := List.foldl_append ..

/-- Bytes that do not complete the head. -/
theorem foldl_head : ∀ {bs got : Bytes}, got.length + bs.length < 4 → bs.foldl next (.head got) = .head (got ++ bs)
  | [], got, _ => by simp
  | b :: bs, got, h => by
    simp only [List.length_cons] at h
    rw [List.foldl_cons, next, if_neg (by omega), foldl_head (by simp; omega)]
    simp

/-- Bytes that complete it. -/
theorem foldl_head_full : ∀ {bs got : Bytes}, got.length < 4 → got.length + bs.length = 4 →
    bs.foldl next (.head got) = ofHead (got ++ bs)
  | [], got, h, h4 => by
    simp only [List.length_nil] at h4
    omega
  | b :: bs, got, h, h4 => by
    simp only [List.length_cons] at h4
    rw [List.foldl_cons, next]
    split
    · rename_i h3
      have hnil : bs = [] := List.eq_nil_of_length_eq_zero (by omega)
      subst hnil
      rfl
    · rw [foldl_head_full (by simp; omega) (by simp; omega)]
      simp

/-- Bytes of the body. -/
theorem foldl_body : ∀ {bs : Bytes} {n : ℕ}, bs.length ≤ n → bs.foldl next (bodyOf n) = bodyOf (n - bs.length)
  | [], n, _ => rfl
  | b :: bs, n, h => by
    simp only [List.length_cons] at h
    rw [List.foldl_cons, bodyOf, if_neg (by omega), next, foldl_body (by omega)]
    simp only [List.length_cons]
    congr 1
    omega

end Wire

namespace Csession

/-! ## The session follows the wire -/

/-- What a session has made of the bytes it was sent. -/
inductive Follows (s : Csession) : Wire → Prop
  | head (k : ℕ) (hr : s.reading = some ⟨.head, k, HEADTOTALLEN⟩) (hk : k < HEADTOTALLEN)
      (hd : s.data.length = MAXLENGTH) (hl : s.dropped = false) (hin : s.Inside) : Follows s (.head (s.data.take k))
  | body (k total : ℕ) (node : RecvNode) (hr : s.reading = some ⟨.body, k, total⟩) (hk : k ≤ total)
      (ht : total ≤ MAXLENGTH) (hn : s.recvMsgNode = some node) (hnode : node.totalLen = total)
      (hl : s.dropped = false) (hin : s.Inside) : Follows s (Wire.bodyOf (total - k))
  | gone (w : Wire) (hr : s.reading = none) (hd : s.dropped = true) (hin : s.Inside) (hw : w ≠ .negative) : Follows s w
  | lost (hno : ¬ s.Safe) (hstop : ∀ r, s.step r = none) : Follows s .negative

theorem Inside.store {s : Csession} (h : s.Inside) {size pos : ℤ} {len : ℕ} (h0 : 0 ≤ pos) (hle : pos + len ≤ size) :
    (s.store size pos len).Inside := by
  refine ⟨h.1, fun w hw => ?_⟩
  rcases List.mem_append.1 hw with hw | hw
  · exact h.2 w hw
  · rw [List.mem_singleton.1 hw]
    exact ⟨h0, hle⟩

theorem Inside.asyncReadLen {s : Csession} (h : s.Inside) {k total : ℕ} (hk : k ≤ total) (ht : total ≤ MAXLENGTH)
    (handler : Handler) : (s.asyncReadLen k total handler).Inside := by
  refine ⟨fun r hr => ?_, h.2⟩
  rcases List.mem_append.1 hr with hr | hr
  · exact h.1 r hr
  · rw [List.mem_singleton.1 hr]
    show k + (total - k) ≤ MAXLENGTH
    omega

/-- The session waits for a head. -/
theorem follows_asyncReadHead {s : Csession} (hl : s.dropped = false) (h : s.Inside) :
    s.asyncReadHead.Follows (.head []) := by
  have hin : s.asyncReadHead.Inside := by
    refine Inside.asyncReadLen (s := { s with data := List.replicate MAXLENGTH 0 }) h (Nat.zero_le _) (by decide) _
  exact .head 0 rfl (by decide) (List.length_replicate ..) hl hin

theorem start_follows : start.Follows (Wire.after []) :=
  follows_asyncReadHead rfl (Inside.store (s := _) ⟨fun r hr => (by cases hr), fun w hw => (by cases hw)⟩ (by decide)
    (by decide))

theorem follows_safe {s : Csession} {w : Wire} (h : s.Follows w) : s.Safe ↔ w ≠ .negative := by
  cases h with
  | head k hr hk hd hl hin =>
    refine ⟨fun _ hx => (by cases hx), fun _ => ⟨hin, fun hn => ?_⟩⟩
    rw [hr] at hn
    cases hn
  | body k total node hr hk ht hn hnode hl hin =>
    refine ⟨fun _ hx => ?_, fun _ => ⟨hin, fun hn => ?_⟩⟩
    · unfold Wire.bodyOf at hx
      split at hx <;> cases hx
    · rw [hr] at hn
      cases hn
  | gone w hr hd hin hw => exact ⟨fun _ => hw, fun _ => ⟨hin, fun _ => hd⟩⟩
  | lost hno hstop => exact ⟨fun hs => absurd hs hno, fun hx => absurd rfl hx⟩

theorem fill_length {data bs : Bytes} {k : ℕ} (h : k + bs.length ≤ data.length) :
    (fill data k bs).length = data.length := by
  simp only [fill, List.length_append, List.length_take, List.length_drop]
  omega

theorem fill_take {data bs : Bytes} {k : ℕ} (h : k ≤ data.length) :
    (fill data k bs).take (k + bs.length) = data.take k ++ bs := by
  have hlen : (data.take k ++ bs).length = k + bs.length := by simp [h]
  rw [fill, ← hlen, List.take_left]

/-- What the session does about a head is what the wire says. -/
theorem follows_onFields {s : Csession} (hin : s.Inside) (hr : s.reading = none) (hl : s.dropped = false)
    (msgId msgLen : ℤ) : (s.onFields msgId msgLen).Follows (Wire.ofFields msgId msgLen) := by
  unfold onFields Wire.ofFields
  by_cases hid : (MAXLENGTH : ℤ) < msgId
  · rw [if_pos hid, if_pos (.inl hid)]
    exact .gone _ hr rfl hin (by decide)
  by_cases hmax : (MAXLENGTH : ℤ) < msgLen
  · rw [if_neg hid, if_pos hmax, if_pos (.inr hmax)]
    exact .gone _ hr rfl hin (by decide)
  rw [if_neg hid, if_neg hmax, if_neg (not_or.2 ⟨hid, hmax⟩)]
  by_cases hthrow : msgLen + 1 < 0
  · -- `new` throws: no read is under way, and nobody has dropped the session.
    rw [if_pos hthrow, if_pos (by omega)]
    refine .lost (fun hsafe => ?_) fun r => ?_
    · have := hsafe.dropped hr
      rw [hl] at this
      cases this
    · rw [step, if_pos hin, hr]
      rfl
  rw [if_neg hthrow]
  by_cases hneg : msgLen < 0
  · -- The terminator goes before the array.
    rw [if_pos hneg]
    have hout : ¬ Inside ({ s.store (msgLen + 1) msgLen 1 with
        recvMsgNode := some ⟨msgLen, msgId, List.replicate (msgLen + 1).toNat 0⟩ }.asyncReadBody msgLen) := by
      intro hx
      have h0 : 0 ≤ msgLen := (hx.2 ⟨msgLen + 1, msgLen, 1⟩ (List.mem_append_right _ List.mem_cons_self)).1
      omega
    exact .lost (fun hsafe => hout hsafe.inside) fun r => if_neg hout
  · rw [if_neg hneg]
    obtain ⟨n, rfl⟩ := Int.eq_ofNat_of_zero_le (Int.not_lt.1 hneg)
    have hn : n ≤ MAXLENGTH := by omega
    have hmod : ((n : ℤ) % 2 ^ 64).toNat = n := by
      unfold MAXLENGTH at hn
      omega
    have hin₂ : (s.store ((n : ℤ) + 1) n 1).Inside := hin.store (by omega) (by omega)
    have hin₃ : Inside ({ s.store ((n : ℤ) + 1) n 1 with
        recvMsgNode := some ⟨n, msgId, List.replicate ((n : ℤ) + 1).toNat 0⟩ }.asyncReadBody n) := by
      refine Inside.asyncReadLen (s := { s.store ((n : ℤ) + 1) n 1 with
        recvMsgNode := some ⟨n, msgId, _⟩, data := List.replicate MAXLENGTH 0 }) hin₂ (Nat.zero_le _) ?_ _
      rw [hmod]
      exact hn
    exact .body 0 n ⟨n, msgId, List.replicate ((n : ℤ) + 1).toNat 0⟩ (by simp only [asyncReadBody, hmod]; rfl)
      (Nat.zero_le n) hn rfl rfl hl hin₃

theorem follows_onHead {s : Csession} (hin : s.Inside) (hr : s.reading = none) (hl : s.dropped = false) :
    (s.onHead HEADTOTALLEN).Follows (Wire.ofHead (s.data.take HEADTOTALLEN)) := by
  have hbyte : ∀ i < 4, (s.data.take HEADTOTALLEN).getD i 0 = s.byteAt i := by
    intro i hi
    simp [byteAt, HEADTOTALLEN, List.getD_eq_getElem?_getD, hi]
  have hin₁ : ((s.store 5 0 4).store 5 0 HEADTOTALLEN).Inside :=
    (hin.store (by decide) (by decide)).store (by decide) (by decide)
  rw [onHead, if_neg (Nat.lt_irrefl _), Wire.ofHead, hbyte 0 (by decide), hbyte 1 (by decide), hbyte 2 (by decide),
    hbyte 3 (by decide)]
  exact follows_onFields hin₁ hr hl _ _

/-- A whole body. -/
theorem follows_onBody {s : Csession} (hin : s.Inside) (hl : s.dropped = false) {total : ℕ} {node : RecvNode}
    (hn : s.recvMsgNode = some node) (hnode : node.totalLen = total) : (s.onBody total total).Follows (.head []) := by
  unfold onBody
  rw [if_neg (Nat.lt_irrefl _), hn]
  refine follows_asyncReadHead hl ?_
  refine Inside.store (s := s.store _ _ _) (hin.store (Int.le_refl 0) ?_) ?_ ?_
  · omega
  · omega
  · omega

/-- What one step can be. -/
theorem step_cases {s s' : Csession} {r : Received} (hs : s.step r = some s') :
    s.Inside ∧ ∃ p, s.reading = some p ∧
      (r = .failed ∧ s' = { s with reading := none }.close.clearSession ∨
        ∃ bs, r = .bytes bs ∧ bs.length ≤ p.totalLen - p.readLen ∧ s' = s.receive p bs) := by
  unfold step at hs
  split at hs
  · rename_i hin
    obtain ⟨p, hp, hs⟩ := Option.bind_eq_some_iff.1 hs
    refine ⟨hin, p, hp, ?_⟩
    cases r with
    | failed => exact .inl ⟨rfl, (Option.some.inj hs).symm⟩
    | bytes bs =>
      by_cases hle : bs.length ≤ p.totalLen - p.readLen
      · simp only [if_pos hle, Option.some.injEq] at hs
        exact .inr ⟨bs, rfl, hle, hs.symm⟩
      · simp only [if_neg hle, reduceCtorEq] at hs
  · cases hs

/-- Part of a head or the rest of it. -/
theorem receive_head {s : Csession} {k : ℕ} {bs : Bytes} (hk : k < HEADTOTALLEN) (hd : s.data.length = MAXLENGTH)
    (hl : s.dropped = false) (hin : s.Inside) (hle : bs.length ≤ HEADTOTALLEN - k) :
    (s.receive ⟨.head, k, HEADTOTALLEN⟩ bs).Follows (bs.foldl Wire.next (.head (s.data.take k))) := by
  have hlen : k + bs.length ≤ s.data.length := by
    rw [hd]
    unfold HEADTOTALLEN at hle hk
    unfold MAXLENGTH
    omega
  have htake : (fill s.data k bs).take (k + bs.length) = s.data.take k ++ bs := fill_take (by omega)
  have hgot : (s.data.take k).length = k := by
    rw [List.length_take]
    omega
  simp only [receive]
  by_cases hfull : HEADTOTALLEN ≤ k + bs.length
  · have h4 : k + bs.length = HEADTOTALLEN := by omega
    rw [if_pos hfull, Wire.foldl_head_full (by rw [hgot]; exact hk) (by rw [hgot]; exact h4), ← htake, h4]
    exact follows_onHead (s := { s with data := fill s.data k bs, reading := none }) hin rfl hl
  · have hpart : k + bs.length < HEADTOTALLEN := by omega
    rw [if_neg hfull, Wire.foldl_head (by rw [hgot]; exact hpart), ← htake]
    have hd' : (fill s.data k bs).length = MAXLENGTH := (fill_length hlen).trans hd
    refine Follows.head (s := Csession.asyncReadLen { s with data := fill s.data k bs, reading := none } _ _ _) _ rfl
      hpart hd' hl ?_
    exact Inside.asyncReadLen (s := { s with data := fill s.data k bs, reading := none }) hin (by omega) (by decide) _

/-- Part of a body or the rest of it. -/
theorem receive_body {s : Csession} {k total : ℕ} {node : RecvNode} {bs : Bytes} (hk : k ≤ total)
    (ht : total ≤ MAXLENGTH) (hn : s.recvMsgNode = some node) (hnode : node.totalLen = total) (hl : s.dropped = false)
    (hin : s.Inside) (hle : bs.length ≤ total - k) :
    (s.receive ⟨.body, k, total⟩ bs).Follows (bs.foldl Wire.next (Wire.bodyOf (total - k))) := by
  rw [Wire.foldl_body hle]
  simp only [receive]
  by_cases hfull : total ≤ k + bs.length
  · have heq : k + bs.length = total := by omega
    have hzero : total - k - bs.length = 0 := by omega
    rw [if_pos hfull, hzero, heq]
    exact follows_onBody (s := { s with data := fill s.data k bs, reading := none }) hin hl hn hnode
  · have hsub : total - k - bs.length = total - (k + bs.length) := by omega
    rw [if_neg hfull, hsub]
    refine Follows.body (s := Csession.asyncReadLen { s with data := fill s.data k bs, reading := none } _ _ _) _ total
      node rfl (by omega) ht hn hnode hl ?_
    exact Inside.asyncReadLen (s := { s with data := fill s.data k bs, reading := none }) hin (by omega) ht _

/-- One read. -/
theorem step_follows {s s' : Csession} {w : Wire} {r : Received} (h : s.Follows w) (hs : s.step r = some s') :
    s'.Follows (r.data.foldl Wire.next w) := by
  have hw : w ≠ .negative := by
    intro he
    have hno : ¬ s.Safe := fun hsafe => (follows_safe h).1 hsafe he
    cases h with
    | head k hr hk hd hl hin => exact hno ⟨hin, fun hn => by rw [hr] at hn; cases hn⟩
    | body k total node hr hk ht hn hnode hl hin => exact hno ⟨hin, fun hn => by rw [hr] at hn; cases hn⟩
    | gone w hr hd hin hw => exact hw he
    | lost hno hstop =>
      rw [hstop] at hs
      cases hs
  obtain ⟨hin, p, hp, ⟨rfl, rfl⟩ | ⟨bs, rfl, hle, rfl⟩⟩ := step_cases hs
  · exact .gone w rfl rfl hin hw
  · cases h with
    | head k hr hk hd hl =>
      rw [hr] at hp
      cases hp
      exact receive_head hk hd hl hin hle
    | body k total node hr hk ht hn hnode hl =>
      rw [hr] at hp
      cases hp
      exact receive_body hk ht hn hnode hl hin hle
    | gone w hr =>
      rw [hr] at hp
      cases hp
    | lost => exact absurd rfl hw

/-- All the bytes the reads of a run have brought. -/
def sent (rs : List Received) : Bytes := rs.flatMap Received.data

theorem run_follows {rs : List Received} {s : Csession} (h : Run.run step start rs = some s) :
    s.Follows (Wire.after (sent rs)) := by
  refine Run.run_history (fun rs s => s.Follows (Wire.after (sent rs))) start_follows (fun rs s r t _ hf hs => ?_) h
  have hsent : sent (rs ++ [r]) = sent rs ++ r.data := by simp [sent]
  rw [hsent, Wire.after_append]
  exact step_follows hf hs

/-- **A session is safe unless the peer sends a negative length.** However the
bytes of the peer are split into reads, every read asks for a range of
`data_`, every store stays inside its node, and a session that reads no more
has been dropped, if and only if no head it accepted had a negative length. -/
theorem safe_iff {rs : List Received} {s : Csession} (h : Run.run step start rs = some s) :
    s.Safe ↔ Wire.after (sent rs) ≠ .negative := follows_safe (run_follows h)

/-- A head in two pieces with its body of two bytes, and the start of the next
head. -/
def twoPieces : List Received := [.bytes [3, 237], .bytes [0, 2], .bytes [104, 105], .bytes [3]]

theorem safe_iff_twoPieces :
    ∃ s, Run.run step start twoPieces = some s ∧ s.Safe ∧ s.posted = [⟨2, 1005, [104, 105, 0]⟩] := by
  have hsome : (Run.run step start twoPieces).map (fun s => s.posted) = some [⟨2, 1005, [104, 105, 0]⟩] := by
    decide +kernel
  obtain ⟨s, hs, hp⟩ := Option.map_eq_some_iff.1 hsome
  exact ⟨s, hs, (safe_iff hs).2 (by decide +kernel), hp⟩

/-- The length `0xffff` is -1: the terminator goes to index -1 of an array of
no bytes, and the body is read without a bound. -/
theorem minus_one_length :
    ∃ s, Run.run step start [.bytes [3, 237, 255, 255]] = some s ∧ ⟨0, -1, 1⟩ ∈ s.stores ∧
      ⟨0, 2 ^ 64 - 1⟩ ∈ s.reads ∧ ¬ s.Safe := by
  have hsome : (Run.run step start [.bytes [3, 237, 255, 255]]).map (fun s =>
      (decide (⟨0, -1, 1⟩ ∈ s.stores), decide (⟨0, 2 ^ 64 - 1⟩ ∈ s.reads))) = some (true, true) := by decide +kernel
  obtain ⟨s, hs, hm⟩ := Option.map_eq_some_iff.1 hsome
  obtain ⟨hstore, hread⟩ := Prod.mk.inj hm
  have hin := of_decide_eq_true hstore
  refine ⟨s, hs, hin, of_decide_eq_true hread, fun hsafe => ?_⟩
  exact absurd (hsafe.inside.2 _ hin).1 (by decide)

end Csession

end Learncc
