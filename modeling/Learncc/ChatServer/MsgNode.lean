/-
`msg_node`, `recv_node` and `send_node` (inc/chat_server/msg_node.h,
src/chat_server/msg_node.cc): the buffers a chat message is received into and
sent from. Lengths are `short`; the array has one byte more, for a terminator.

`sendNode_fits`, `sendNode_throws` and `sendNode_outOfBounds` say what becomes
of every length a `send_node` can be given.
-/
import Learncc.ChatServer.Csession

namespace Learncc.Chat

open Csession

/-- The value a `short` takes from an integer. -/
def toShort (n : ℤ) : ℤ := (BitVec.ofInt 16 n).toInt

/-- The two bytes of a `short` in network order. -/
def networkBytes (n : ℤ) : Bytes :=
  let w := (BitVec.ofInt 16 n).toNat
  [UInt8.ofNat (w / 256), UInt8.ofNat (w % 256)]

@[simp] theorem networkBytes_length (n : ℤ) : (networkBytes n).length = 2 := rfl

theorem toShort_eq (n : ℤ) : toShort n = n.bmod 65536 := BitVec.toInt_ofInt n

theorem toShort_of_short {n : ℤ} (h₀ : -32768 ≤ n) (h₁ : n < 32768) : toShort n = n := by
  rw [toShort_eq]
  exact Int.bmod_eq_of_le (by omega) (by omega)

theorem toShort_ge (n : ℤ) : -32768 ≤ toShort n := by
  rw [toShort_eq]
  have := Int.le_bmod (x := n) (m := 65536) (by omega)
  omega

theorem toShort_lt (n : ℤ) : toShort n < 32768 := by
  rw [toShort_eq]
  have := Int.bmod_lt (x := n) (m := 65536) (by omega)
  omega

/-- A `short` that differs from an integer by a multiple of `2 ^ 16` is its
value. -/
theorem toShort_of_congr {n m : ℤ} (h₀ : -32768 ≤ m) (h₁ : m < 32768) (h : n % 65536 = m % 65536) : toShort n = m := by
  have hge := toShort_ge n
  have hlt := toShort_lt n
  rw [toShort_eq] at hge hlt ⊢
  have hmod : n.bmod 65536 % 65536 = n % 65536 := Int.bmod_emod
  omega

/-- What one side writes, the other reads. -/
theorem networkShort_networkBytes {n : ℤ} (h₀ : -32768 ≤ n) (h₁ : n < 32768) {hi lo : UInt8}
    (h : networkBytes n = [hi, lo]) : networkShort hi lo = n := by
  have hw : (BitVec.ofInt 16 n).toNat < 65536 := (BitVec.ofInt 16 n).isLt
  have hback : toShort n = n := toShort_of_short h₀ h₁
  simp only [networkBytes, List.cons.injEq, and_true] at h
  obtain ⟨rfl, rfl⟩ := h
  have hsum : (UInt8.ofNat ((BitVec.ofInt 16 n).toNat / 256)).toNat * 256 +
      (UInt8.ofNat ((BitVec.ofInt 16 n).toNat % 256)).toNat = (BitVec.ofInt 16 n).toNat := by
    rw [UInt8.toNat_ofNat', UInt8.toNat_ofNat']
    omega
  rw [networkShort, hsum, BitVec.ofNat_toNat, BitVec.setWidth_eq]
  exact hback

/-! ## Nodes -/

/-- How making a node can end other than with the node. -/
inductive Fault
  | badArrayNewLength
  | outOfBounds
deriving Repr, DecidableEq

structure MsgNode where
  totalLen : ℤ
  curLen : ℤ
  data : Bytes
deriving Repr, DecidableEq

structure RecvNode extends MsgNode where
  msgId : ℤ
deriving Repr, DecidableEq

structure SendNode extends MsgNode where
  msgId : ℤ
deriving Repr, DecidableEq

/-- `memcpy(data + pos, src, n)`. -/
def memcpy (data : Bytes) (pos : ℕ) (src : Bytes) (n : ℕ) : Except Fault Bytes :=
  if pos + n ≤ data.length ∧ n ≤ src.length then .ok (fill data pos (src.take n)) else .error .outOfBounds

/-- The constructor `msg_node(max_len)`: `new` throws on a negative size. -/
def msgNode (maxLen : ℤ) : Except Fault MsgNode :=
  if maxLen + 1 < 0 then .error .badArrayNewLength
  else if maxLen < 0 then .error .outOfBounds
  else .ok ⟨maxLen, 0, List.replicate (maxLen + 1).toNat 0⟩

def recvNode (maxLen msgId : ℤ) : Except Fault RecvNode := do
  let node ← msgNode maxLen
  return { node with msgId }

/-- `send_node(msg, max_len, msg_id)`. The sum is an `int`, and `msg_node`
takes a `short`; the length of the last `memcpy` is a `size_t`. -/
def sendNode (msg : Bytes) (maxLen msgId : ℤ) : Except Fault SendNode := do
  let node ← msgNode (toShort (maxLen + HEADTOTALLEN))
  let data ← memcpy node.data 0 (networkBytes msgId) 2
  let data ← memcpy data 2 (networkBytes maxLen) 2
  let data ← memcpy data 4 msg (maxLen % 2 ^ 64).toNat
  return { node with data, msgId }

/-- `boost::asio::buffer(data_, _total_len)`. -/
def SendNode.wire (node : SendNode) : Bytes := node.data.take node.totalLen.toNat

theorem fill_append (a b bs : Bytes) : fill (a ++ b) a.length bs = a ++ bs ++ b.drop bs.length := by
  simp [fill, List.drop_append]

theorem memcpy_append {a b c : Bytes} {n : ℕ} (hb : n ≤ b.length) (hc : n ≤ c.length) :
    memcpy (a ++ b) a.length c n = .ok (a ++ c.take n ++ b.drop n) := by
  rw [memcpy, if_pos ⟨by simp [hb], hc⟩, fill_append, List.length_take, Nat.min_eq_left hc]

theorem memcpy_cases (data : Bytes) (pos : ℕ) (src : Bytes) (n : ℕ) :
    memcpy data pos src n = .error .outOfBounds ∨
      ∃ data', memcpy data pos src n = .ok data' ∧ data'.length = data.length := by
  by_cases h : pos + n ≤ data.length ∧ n ≤ src.length
  · refine .inr ⟨_, if_pos h, fill_length ?_⟩
    rw [List.length_take]
    omega
  · exact .inl (if_neg h)

theorem msgNode_ok {n : ℕ} : msgNode n = .ok ⟨n, 0, List.replicate (n + 1) 0⟩ := by
  rw [msgNode, if_neg (by omega), if_neg (by omega)]
  rfl

/-- A message with its head fits: the node holds both, and the terminator. -/
theorem sendNode_fits {msg : Bytes} {n : ℕ} (hn : n ≤ 32763) (hsrc : n ≤ msg.length) (msgId : ℤ) :
    sendNode msg n msgId = .ok { totalLen := (n + 4 : ℕ), curLen := 0,
                                 data := networkBytes msgId ++ networkBytes n ++ msg.take n ++ [0], msgId } := by
  have hshort : toShort ((n : ℤ) + HEADTOTALLEN) = (n + 4 : ℕ) := by
    unfold HEADTOTALLEN
    exact toShort_of_short (by omega) (by omega)
  have hsize : ((n : ℤ) % 2 ^ 64).toNat = n := by omega
  have hid : memcpy (List.replicate (n + 4 + 1) 0) 0 (networkBytes msgId) 2 =
      .ok (networkBytes msgId ++ List.replicate (n + 3) 0) :=
    memcpy_append (a := []) (by simp) (by simp)
  have hlen : memcpy (networkBytes msgId ++ List.replicate (n + 3) 0) 2 (networkBytes n) 2 =
      .ok (networkBytes msgId ++ networkBytes n ++ List.replicate (n + 1) 0) :=
    memcpy_append (a := networkBytes msgId) (by simp) (by simp)
  have hbody : memcpy (networkBytes msgId ++ networkBytes n ++ List.replicate (n + 1) 0) 4 msg n =
      .ok (networkBytes msgId ++ networkBytes n ++ msg.take n ++ [0]) := by
    have := memcpy_append (a := networkBytes msgId ++ networkBytes n) (b := List.replicate (n + 1) 0) (by simp) hsrc
    simpa using this
  rw [sendNode, hshort, msgNode_ok, hsize]
  simp only [bind, Except.bind, hid, hlen, hbody]
  rfl

/-- The array would have a negative size. -/
theorem sendNode_throws {msg : Bytes} {maxLen msgId : ℤ} (h : toShort (maxLen + HEADTOTALLEN) < -1) :
    sendNode msg maxLen msgId = .error .badArrayNewLength := by
  rw [sendNode, msgNode, if_pos (by omega)]
  rfl

/-- A length of -5 to -1: the terminator, the head or the message itself goes
outside the array. -/
theorem sendNode_outOfBounds {msg : Bytes} {maxLen msgId : ℤ} (h₀ : -5 ≤ maxLen) (h₁ : maxLen < 0) :
    sendNode msg maxLen msgId = .error .outOfBounds := by
  have hshort : toShort (maxLen + HEADTOTALLEN) = maxLen + 4 := by
    unfold HEADTOTALLEN
    exact toShort_of_short (by omega) (by omega)
  rw [sendNode, hshort, msgNode, if_neg (by omega)]
  by_cases h5 : maxLen + 4 < 0
  · rw [if_pos h5]
    rfl
  rw [if_neg h5]
  have hlen : (List.replicate (maxLen + 4 + 1).toNat (0 : UInt8)).length ≤ 4 := by
    rw [List.length_replicate]
    omega
  generalize List.replicate (maxLen + 4 + 1).toNat (0 : UInt8) = zeros at hlen
  have hlast : ∀ data : Bytes, data.length ≤ 4 → memcpy data 4 msg (maxLen % 2 ^ 64).toNat = .error .outOfBounds := by
    intro data hd
    exact if_neg fun hle => by omega
  simp only [bind, Except.bind]
  rcases memcpy_cases zeros 0 (networkBytes msgId) 2 with he | ⟨data₁, he, hd₁⟩ <;> rw [he]
  simp only
  rcases memcpy_cases data₁ 2 (networkBytes maxLen) 2 with he | ⟨data₂, he, hd₂⟩ <;> rw [he]
  simp only
  rw [hlast data₂ (by omega)]

end Learncc.Chat
