/-
What goes over the wire between `arpc_channel` and `arpc_server`: four bytes
with the length of the header, the serialized `arpc_header`
(src/arpc/arpc_header.proto), and the serialized arguments or response, whose
length the header names.

The protobuf library is not part of the repository. A frame below carries the
bytes that stand for its header together with the fact that parsing them
gives the header back.
-/
import Learncc.Posix
import Mathlib.Algebra.Ring.Nat

namespace Learncc

/-- `message_t`. -/
inductive MessageT
  | request
  | response
  | unknown
deriving Repr, DecidableEq

/-- `arpc_header`, up to `error`, which nothing sets or reads. -/
structure ArpcHeader where
  type : MessageT
  id : UInt32
  serviceName : Bytes
  methodName : Bytes
  argsSize : UInt32
deriving Repr, DecidableEq

/-! ## Lengths -/

/-- The bytes of a `uint32_t`, lowest first. -/
def le32 (n : ℕ) : Bytes :=
  [UInt8.ofNat n, UInt8.ofNat (n / 2 ^ 8), UInt8.ofNat (n / 2 ^ 16), UInt8.ofNat (n / 2 ^ 24)]

/-- A `uint32_t` set to 0, with the first bytes of a string (at most four)
copied over it. -/
def ofLe32 (bs : Bytes) : ℕ :=
  (bs.getD 0 0).toNat + (bs.getD 1 0).toNat * 2 ^ 8 + (bs.getD 2 0).toNat * 2 ^ 16 + (bs.getD 3 0).toNat * 2 ^ 24

@[simp] theorem le32_length (n : ℕ) : (le32 n).length = 4 := rfl

theorem ofLe32_le32_append {n : ℕ} (h : n < 2 ^ 32) (bs : Bytes) : ofLe32 (le32 n ++ bs) = n := by
  simp only [ofLe32, le32, List.cons_append, List.nil_append, List.getD_cons_zero, List.getD_cons_succ,
    UInt8.toNat_ofNat']
  omega

/-- The first four bytes decide. -/
theorem ofLe32_take {bs : Bytes} {n : ℕ} (hn : 4 ≤ n) : ofLe32 (bs.take n) = ofLe32 bs := by
  have hget : ∀ i < 4, (bs.take n).getD i 0 = bs.getD i 0 := by
    intro i hi
    simp [List.getD_eq_getElem?_getD, show i < n by omega]
  simp only [ofLe32, hget 0 (by decide), hget 1 (by decide), hget 2 (by decide), hget 3 (by decide)]

/-! ## Frames -/

/-- The three parts in a row. -/
def frame (header args : Bytes) : Bytes := le32 header.length ++ header ++ args

theorem frame_length (header args : Bytes) : (frame header args).length = 4 + header.length + args.length := by
  simp only [frame, List.length_append, le32_length]

/-- A message with its header: the header's bytes are short enough for
protobuf to serialize them, they parse to the header, and that names the
length of the rest. -/
structure Framed (parse : Bytes → Option ArpcHeader) where
  header : ArpcHeader
  headerBytes : Bytes
  args : Bytes
  short : headerBytes.length < 2 ^ 31
  parses : parse headerBytes = some header
  size : header.argsSize.toNat = args.length

namespace Framed

variable {parse : Bytes → Option ArpcHeader}

def bytes (f : Framed parse) : Bytes := frame f.headerBytes f.args

theorem bytes_length (f : Framed parse) : f.bytes.length = 4 + f.headerBytes.length + f.args.length := frame_length _ _

/-- The parts, read back from the front of a longer string. -/
theorem ofLe32_bytes (f : Framed parse) (rest : Bytes) : ofLe32 (f.bytes ++ rest) = f.headerBytes.length := by
  have hshort := f.short
  simp only [bytes, frame, List.append_assoc]
  exact ofLe32_le32_append (by omega) _

theorem drop_four (f : Framed parse) (rest : Bytes) :
    (f.bytes ++ rest).drop 4 = f.headerBytes ++ (f.args ++ rest) := by
  simp only [bytes, frame, List.append_assoc]
  exact List.drop_left' (le32_length _)

end Framed

end Learncc
