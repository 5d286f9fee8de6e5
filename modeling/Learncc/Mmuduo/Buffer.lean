/-
`buffer` (inc/mmuduo/buffer.h, src/mmuduo/buffer.cc): a byte vector with a
read and a write index, and what it is for: a FIFO of bytes.

The vector is a list with a capacity; the allocator always has memory, and a
vector that would have more than `max_size()` bytes throws. Every sum that a
caller's number goes into is `size_t`: `prepend + initsize` in the constructor,
`len + prepend` and `write_ + len` in `make_space`, which `ensure_waitable_bytes`
hands any `len`. Differences of the indices are natural numbers, which do not go
below zero once the invariant holds.

`append` takes a pointer. It may point at other bytes, which stay where they are,
or at the buffer's own, as `peek()` does; those `make_space` moves or frees.
-/
import Learncc.Lib.Run
import Learncc.Posix
import Mathlib.Algebra.Ring.Nat

namespace Learncc

structure Buffer where
  buf : Bytes
  capacity : Nat
  read : Nat
  write : Nat
deriving Repr, DecidableEq

namespace Buffer

def prepend : Nat := 8

def initialSize : UInt64 := 1024

/-- A `size_t` has 64 bits. -/
def sizeT (n : Nat) : Nat := n % 2 ^ 64

/-- `max_size()` of a `std::vector<char>`. -/
def maxSize : Nat := 2 ^ 63 - 1

/-- The constructor. `prepend + initsize` is `size_t` arithmetic. -/
def new (initsize : UInt64) : Buffer :=
  let size := (UInt64.ofNat prepend + initsize).toNat
  { buf := List.replicate size 0, capacity := size, read := prepend, write := prepend }

def readableBytes (b : Buffer) : Nat := b.write - b.read

def writableBytes (b : Buffer) : Nat := b.buf.length - b.write

def prependableBytes (b : Buffer) : Nat := b.read

/-- The bytes from `peek()` on. -/
def peek (b : Buffer) : Bytes := b.buf.drop b.read

def retrieveAll (b : Buffer) : Buffer := { b with read := prepend, write := prepend }

def retrieve (b : Buffer) (len : Nat) : Buffer :=
  if len < b.readableBytes then { b with read := b.read + len } else b.retrieveAll

def retrieveAsString (b : Buffer) (len : Nat) : Bytes × Buffer :=
  (b.peek.take len, b.retrieve len)

def retrieveAllAsstring (b : Buffer) : Bytes × Buffer := b.retrieveAsString b.readableBytes

/-- `std::copy` of `data` over the positions of the vector from `pos` on. -/
def copyAt (buf : Bytes) (pos : Nat) (data : Bytes) : Bytes :=
  buf.take pos ++ data ++ buf.drop (pos + data.length)

/-- The bytes of the vector from `pos` on, so many. -/
def slice (buf : Bytes) (pos len : Nat) : Bytes := (buf.drop pos).take len

/-- `std::vector::resize`. Past the capacity the bytes go to new storage, which has
room for twice as many at least. -/
def resize (b : Buffer) (n : Nat) : Buffer :=
  { b with
    buf := b.buf.take n ++ List.replicate (n - b.buf.length) 0
    capacity := if n ≤ b.capacity then b.capacity else max n (2 * b.buf.length) }

/-- `make_space` makes the vector larger: what is free behind and in front is not enough. -/
def grows (b : Buffer) (len : Nat) : Prop := b.writableBytes + b.prependableBytes < sizeT (len + prepend)

instance (b : Buffer) (len : Nat) : Decidable (b.grows len) := inferInstanceAs (Decidable (_ < _))

def makeSpace (b : Buffer) (len : Nat) : Buffer :=
  if b.grows len then b.resize (sizeT (b.write + len))
  else
    let readable := b.readableBytes
    { b with
      buf := copyAt b.buf prepend (b.peek.take readable)
      read := prepend
      write := prepend + readable }

def ensureWaitableBytes (b : Buffer) (len : Nat) : Buffer :=
  if b.writableBytes < len then b.makeSpace len else b

/-- `resize` throws `length_error`, and nothing is changed. -/
def throws (b : Buffer) (len : Nat) : Prop :=
  b.writableBytes < len ∧ b.grows len ∧ maxSize < sizeT (b.write + len)

instance (b : Buffer) (len : Nat) : Decidable (b.throws len) := inferInstanceAs (Decidable (_ ∧ _))

/-- `append` of bytes that are not the buffer's own. -/
def append (b : Buffer) (data : Bytes) : Buffer :=
  let b := b.ensureWaitableBytes data.length
  { b with buf := copyAt b.buf b.write data, write := b.write + data.length }

/-- `append(begin() + pos, len)`: the pointer is the one from before `make_space`. `none` where
it points into storage that is freed, or `std::copy` writes from inside of what it reads. -/
def appendOwn (b : Buffer) (pos len : Nat) : Option Buffer :=
  let b' := b.ensureWaitableBytes len
  if b'.capacity ≠ b.capacity ∨ (pos ≤ b'.write ∧ b'.write < pos + len) then none
  else some { b' with buf := copyAt b'.buf b'.write (slice b'.buf pos len), write := b'.write + len }

/-- `sizeof extra` in `read_fd`. -/
def extraSize : Nat := 65536

/-- The total length of the iovecs `read_fd` passes to `readv`: the second
one is used only while the writable part is smaller than `extra`. -/
def iovLen (b : Buffer) : Nat :=
  if b.writableBytes < extraSize then b.writableBytes + extraSize else b.writableBytes

/-- `read_fd`, with `readv`'s answer. `readv` fills the writable part first
and `extra` with the rest. The count is the return value. -/
def readFd (b : Buffer) : ReadvResult → Int × Buffer
  | .err _ => (-1, b)
  | .ok data =>
    let writable := b.writableBytes
    let filled := copyAt b.buf b.write (data.take writable)
    if data.length ≤ writable then
      (data.length, { b with buf := filled, write := b.write + data.length })
    else
      (data.length, append { b with buf := filled, write := filled.length } (data.drop writable))

/-! ## The invariant -/

/-- `prepend <= read_ <= write_ <= buf_.size()`, and that is a size a vector may have. -/
structure Inv (b : Buffer) : Prop where
  prepend_le : prepend ≤ b.read
  read_le : b.read ≤ b.write
  write_le : b.write ≤ b.buf.length
  size_le : b.buf.length ≤ maxSize

/-- The vector may have so many bytes more. Bytes that are in memory beside it always fit. -/
def Room (b : Buffer) (n : Nat) : Prop := b.buf.length + n ≤ maxSize

instance (b : Buffer) (n : Nat) : Decidable (b.Room n) := inferInstanceAs (Decidable (_ ≤ _))

/-- The readable bytes, `[read_, write_)`. -/
def readable (b : Buffer) : Bytes := b.peek.take b.readableBytes

theorem readable_length {b : Buffer} (h : b.Inv) : b.readable.length = b.readableBytes := by
  have h1 := h.read_le
  have h2 := h.write_le
  simp only [readable, peek, readableBytes, List.length_take, List.length_drop]
  omega

theorem new_length (initsize : UInt64) :
    (new initsize).buf.length = (prepend + initsize.toNat) % 2 ^ 64 := by
  have h8 : (UInt64.ofNat prepend).toNat = prepend := rfl
  simp only [new, List.length_replicate, UInt64.toNat_add, h8]

theorem new_inv {initsize : UInt64} (h : prepend + initsize.toNat < 2 ^ 64)
    (hmax : (new initsize).buf.length ≤ maxSize) : (new initsize).Inv := by
  refine ⟨Nat.le_refl _, Nat.le_refl _, ?_, hmax⟩
  rw [new_length, Nat.mod_eq_of_lt h]
  exact Nat.le_add_right _ _

theorem initial_inv : (new initialSize).Inv := new_inv (by decide) (by rw [new_length]; decide)

@[simp] theorem new_readable (initsize : UInt64) : (new initsize).readable = [] := by
  simp [readable, readableBytes, new]

/-! ## Copying into the vector -/

theorem length_copyAt {buf data : Bytes} {pos : Nat} (h : pos + data.length ≤ buf.length) :
    (copyAt buf pos data).length = buf.length := by
  simp only [copyAt, List.length_append, List.length_take, List.length_drop]
  omega

/-- Below `pos` nothing changes. -/
theorem take_copyAt {buf data : Bytes} {pos : Nat} (h : pos ≤ buf.length) :
    (copyAt buf pos data).take pos = buf.take pos := by
  have hl : (buf.take pos).length = pos := by simp [h]
  rw [copyAt, List.append_assoc, List.take_append_of_le_length (by omega), List.take_of_length_le (by omega)]

theorem drop_copyAt {buf data : Bytes} {pos : Nat} (h : pos ≤ buf.length) :
    (copyAt buf pos data).drop pos = data ++ buf.drop (pos + data.length) := by
  have hl : (buf.take pos).length = pos := by simp [h]
  rw [copyAt, List.append_assoc, List.drop_append_of_le_length (by omega), List.drop_of_length_le (by omega),
    List.nil_append]

theorem length_resize (b : Buffer) (n : Nat) : (b.resize n).buf.length = n := by
  simp only [resize, List.length_append, List.length_take, List.length_replicate]
  omega

/-- What stays of the vector is as it was. -/
theorem take_resize {b : Buffer} {n k : Nat} (hn : k ≤ n) (hk : k ≤ b.buf.length) :
    (b.resize n).buf.take k = b.buf.take k := by
  rw [resize, List.take_append_of_le_length (by simp; omega), List.take_take, Nat.min_eq_left hn]

theorem length_slice {buf : Bytes} {pos len : Nat} (h : pos + len ≤ buf.length) : (slice buf pos len).length = len := by
  simp only [slice, List.length_take, List.length_drop]
  omega

/-- Bytes below `k` are the same where the vectors are. -/
theorem slice_congr {buf buf' : Bytes} {pos len k : Nat} (h : buf'.take k = buf.take k) (hk : pos + len ≤ k) :
    slice buf' pos len = slice buf pos len := by
  have hall : ∀ l : Bytes, slice l pos len = ((l.take k).drop pos).take len := by
    intro l
    rw [slice, List.drop_take, List.take_take, Nat.min_eq_left (by omega)]
  rw [hall, hall, h]

/-- The readable bytes are a slice of the first `write_` bytes. -/
theorem readable_eq (b : Buffer) : b.readable = (b.buf.take b.write).drop b.read := by
  simp [readable, peek, readableBytes, List.drop_take]

/-! ## One lemma per operation -/

theorem retrieveAll_inv {b : Buffer} (h : b.Inv) : b.retrieveAll.Inv :=
  ⟨Nat.le_refl _, Nat.le_refl _, Nat.le_trans h.prepend_le (Nat.le_trans h.read_le h.write_le), h.size_le⟩

@[simp] theorem retrieveAll_readable (b : Buffer) : b.retrieveAll.readable = [] := by
  simp [retrieveAll, readable, readableBytes]

theorem retrieve_inv {b : Buffer} (h : b.Inv) (len : Nat) : (b.retrieve len).Inv := by
  unfold retrieve
  split
  · rename_i hlt
    have h1 := h.prepend_le
    simp only [readableBytes] at hlt
    exact ⟨by simp only; omega, by simp only; omega, h.write_le, h.size_le⟩
  · exact retrieveAll_inv h

/-- `retrieve` drops `min(len, readable)` bytes. -/
theorem retrieve_readable {b : Buffer} (h : b.Inv) (len : Nat) :
    (b.retrieve len).readable = b.readable.drop len := by
  unfold retrieve
  split
  · simp only [readable_eq, List.drop_drop]
  · rename_i hge
    rw [retrieveAll_readable, List.drop_of_length_le]
    rw [readable_length h]
    omega

theorem retrieveAsString_fst {b : Buffer} {len : Nat} (hlen : len ≤ b.readableBytes) :
    (b.retrieveAsString len).1 = b.readable.take len := by
  simp only [retrieveAsString, readable, List.take_take]
  rw [Nat.min_eq_left hlen]

/-- There is room in front for the readable bytes. -/
theorem length_moved {b : Buffer} (h : b.Inv) : (copyAt b.buf prepend b.readable).length = b.buf.length := by
  have h1 := h.prepend_le
  have h2 := h.read_le
  have h3 := h.write_le
  refine length_copyAt ?_
  rw [readable_length h, readableBytes]
  omega

/-- `make_space` moves the readable bytes to the front. -/
theorem makeSpace_moved {b : Buffer} {len : Nat} (hgrows : ¬ b.grows len) :
    b.makeSpace len =
      { b with buf := copyAt b.buf prepend b.readable, read := prepend, write := prepend + b.readableBytes } :=
  if_neg hgrows

/-- It makes the vector larger by what is asked for. -/
theorem makeSpace_grown {b : Buffer} {len : Nat} (hgrows : b.grows len) (hlen : b.write + len < 2 ^ 64) :
    b.makeSpace len = b.resize (b.write + len) := by
  rw [makeSpace, if_pos hgrows, sizeT, Nat.mod_eq_of_lt hlen]

/-- Compaction: the readable bytes are moved to the front, and the rest is free. -/
theorem compact_spec {b : Buffer} {len : Nat} (h : b.Inv) (hgrows : ¬ b.grows len) :
    (b.makeSpace len).Inv ∧ (b.makeSpace len).readable = b.readable ∧
      (b.makeSpace len).writableBytes = b.writableBytes + b.prependableBytes - prepend := by
  have h1 := h.prepend_le
  have h2 := h.read_le
  have h3 := h.write_le
  have hr := readable_length h
  have hmoved := length_moved h
  rw [makeSpace_moved hgrows]
  have hreadable : b.readableBytes = b.write - b.read := rfl
  refine ⟨⟨Nat.le_refl _, Nat.le_add_right _ _, ?_, ?_⟩, ?_, ?_⟩
  · simp only [hmoved]
    omega
  · simp only [hmoved]
    exact h.size_le
  · simp only [readable, peek, readableBytes, Nat.add_sub_cancel_left] at hr ⊢
    rw [drop_copyAt (by omega), List.take_append_of_le_length (by omega), List.take_of_length_le (by omega)]
  · simp only [writableBytes, hmoved, prependableBytes]
    omega

/-- Growth: nothing moves, and there are `len` bytes behind `write_`. -/
theorem grow_spec {b : Buffer} {len : Nat} (h : b.Inv) (hmax : b.write + len ≤ maxSize) :
    (b.resize (b.write + len)).Inv ∧ (b.resize (b.write + len)).readable = b.readable ∧
      (b.resize (b.write + len)).writableBytes = len := by
  refine ⟨⟨h.prepend_le, h.read_le, ?_, ?_⟩, ?_, ?_⟩
  · rw [length_resize]
    exact Nat.le_add_right _ _
  · rw [length_resize]
    exact hmax
  · rw [readable_eq, readable_eq]
    exact congrArg (List.drop b.read) (take_resize (Nat.le_add_right _ _) h.write_le)
  · rw [writableBytes, length_resize]
    exact Nat.add_sub_cancel_left _ _

/-- `make_space(len)` only makes space: the indices stay in order, the readable bytes are the
same, and `len` bytes are writable. -/
def MakesSpace (b b' : Buffer) (len : Nat) : Prop := b'.Inv ∧ b'.readable = b.readable ∧ len ≤ b'.writableBytes

/-- Where `write_ + len` does not wrap, neither does `len + prepend`. -/
theorem grows_iff {b : Buffer} {len : Nat} (h : b.Inv) (hlen : b.write + len < 2 ^ 64) :
    b.grows len ↔ b.writableBytes + b.prependableBytes < len + prepend := by
  have h1 := h.prepend_le
  have h2 := h.read_le
  rw [grows, sizeT, Nat.mod_eq_of_lt (by omega)]

/-- **`make_space` makes space exactly when `write_ + len` does not wrap**, unless it throws. -/
theorem makeSpace_iff {b : Buffer} {len : Nat} (h : b.Inv) (hsize : len < 2 ^ 64)
    (hret : ¬ (b.grows len ∧ maxSize < sizeT (b.write + len))) :
    b.MakesSpace (b.makeSpace len) len ↔ b.write + len < 2 ^ 64 := by
  have h1 := h.prepend_le
  have h2 := h.read_le
  have h3 := h.write_le
  have h4 := h.size_le
  have hprepend : prepend = 8 := rfl
  have hmax : maxSize = 2 ^ 63 - 1 := rfl
  constructor
  · rintro ⟨hinv, -, hroom⟩
    by_contra hwrap
    by_cases hgrows : b.grows len
    · -- The vector is cut off below `write_`.
      have hcut : b.makeSpace len = b.resize (sizeT (b.write + len)) := if_pos hgrows
      rw [hcut] at hinv
      have hlast : b.write ≤ (b.resize (sizeT (b.write + len))).buf.length := hinv.write_le
      rw [length_resize, sizeT] at hlast
      omega
    · rw [(compact_spec h hgrows).2.2, writableBytes, prependableBytes] at hroom
      omega
  · intro hlen
    by_cases hgrows : b.grows len
    · have hsum : sizeT (b.write + len) = b.write + len := Nat.mod_eq_of_lt hlen
      have hle : b.write + len ≤ maxSize := by
        rw [← hsum]
        exact Nat.le_of_not_lt fun hlt => hret ⟨hgrows, hlt⟩
      obtain ⟨hinv, hreadable, hroom⟩ := grow_spec h hle
      rw [makeSpace_grown hgrows hlen]
      exact ⟨hinv, hreadable, Nat.le_of_eq hroom.symm⟩
    · obtain ⟨hinv, hreadable, hroom⟩ := compact_spec h hgrows
      refine ⟨hinv, hreadable, ?_⟩
      rw [grows_iff h hlen] at hgrows
      omega

theorem ensureWaitableBytes_iff {b : Buffer} {len : Nat} (h : b.Inv) (hsize : len < 2 ^ 64) (hret : ¬ b.throws len) :
    b.MakesSpace (b.ensureWaitableBytes len) len ↔ (b.writableBytes < len → b.write + len < 2 ^ 64) := by
  unfold ensureWaitableBytes
  split
  · rename_i hlt
    rw [makeSpace_iff h hsize fun hthrow => hret ⟨hlt, hthrow⟩]
    exact ⟨fun hlen _ => hlen, fun hlen => hlen hlt⟩
  · rename_i hge
    exact iff_of_true ⟨h, rfl, Nat.le_of_not_lt hge⟩ fun hlt => absurd hlt hge

/-- With room for them, `len` bytes more are writable. -/
theorem ensureWaitableBytes_spec {b : Buffer} {len : Nat} (h : b.Inv) (hroom : b.Room len) :
    b.MakesSpace (b.ensureWaitableBytes len) len := by
  have h3 := h.write_le
  have hmax : maxSize = 2 ^ 63 - 1 := rfl
  rw [Room] at hroom
  have hlen : b.write + len < 2 ^ 64 := by omega
  refine (ensureWaitableBytes_iff h (by omega) fun hthrow => ?_).2 fun _ => hlen
  have hlt := hthrow.2.2
  rw [sizeT, Nat.mod_eq_of_lt hlen] at hlt
  omega

/-- Bytes copied behind `write_`, with `write_` moved past them, become
readable behind those that were. -/
theorem fill_spec {b : Buffer} (h : b.Inv) (data : Bytes) (hroom : data.length ≤ b.writableBytes) :
    Inv { b with buf := copyAt b.buf b.write data, write := b.write + data.length } ∧
      readable { b with buf := copyAt b.buf b.write data, write := b.write + data.length } =
        b.readable ++ data := by
  have h2 := h.read_le
  have h3 := h.write_le
  simp only [writableBytes] at hroom
  have hlen : (copyAt b.buf b.write data).length = b.buf.length := length_copyAt (by omega)
  refine ⟨⟨h.prepend_le, by simp only; omega, by simp only; omega, hlen ▸ h.size_le⟩, ?_⟩
  have ht : (copyAt b.buf b.write data).take (b.write + data.length) = b.buf.take b.write ++ data := by
    rw [List.take_add, take_copyAt h3, drop_copyAt h3, List.take_left]
  rw [readable_eq, readable_eq]
  simp only [ht]
  rw [List.drop_append_of_le_length (by simp; omega)]

theorem append_spec {b : Buffer} (h : b.Inv) {data : Bytes} (hroom : b.Room data.length) :
    (b.append data).Inv ∧ (b.append data).readable = b.readable ++ data := by
  obtain ⟨hi, hr, hw⟩ := ensureWaitableBytes_spec h hroom
  have := fill_spec hi data hw
  rwa [hr] at this

theorem readFd_spec {b : Buffer} (h : b.Inv) {data : Bytes} (hroom : b.Room data.length) :
    (b.readFd (.ok data)).2.Inv ∧ (b.readFd (.ok data)).2.readable = b.readable ++ data := by
  have h3 := h.write_le
  simp only [readFd]
  split
  · rename_i hle
    rw [List.take_of_length_le hle]
    exact fill_spec h data hle
  · rename_i hgt
    have hw : (data.take b.writableBytes).length = b.writableBytes := by simp; omega
    obtain ⟨hi, hr⟩ := fill_spec h (data.take b.writableBytes) (by omega)
    have hlen : (copyAt b.buf b.write (data.take b.writableBytes)).length = b.buf.length :=
      length_copyAt (by rw [hw, writableBytes]; omega)
    have hend : (copyAt b.buf b.write (data.take b.writableBytes)).length =
        b.write + (data.take b.writableBytes).length := by
      rw [hlen, hw, writableBytes]
      omega
    rw [hend]
    obtain ⟨hi', hr'⟩ := append_spec hi (show Room _ (data.drop b.writableBytes).length by
      simp only [Room, hlen, List.length_drop] at hroom ⊢
      omega)
    exact ⟨hi', by rw [hr', hr, List.append_assoc, List.take_append_drop]⟩

/-- Bytes of the buffer itself are appended as they are where `make_space` has nothing to do,
where it grows the vector in its storage, and where the move to the front puts the same
bytes in their place and `std::copy` does not write from inside of them. -/
def Intact (b : Buffer) (pos len : Nat) : Prop :=
  b.writableBytes < len →
    if b.writableBytes + b.prependableBytes < len + prepend then b.write + len ≤ b.capacity
    else
      slice (copyAt b.buf prepend b.readable) pos len = slice b.buf pos len ∧
        ¬ (pos ≤ prepend + b.readableBytes ∧ prepend + b.readableBytes < pos + len)

instance (b : Buffer) (pos len : Nat) : Decidable (b.Intact pos len) := by
  unfold Intact
  infer_instance

/-- What the call makes of the bytes that the pointer leads to after `make_space`. -/
theorem appendOwn_spec {b b' : Buffer} {pos len : Nat} (h : b.Inv) (hroom : b.Room len)
    (hmade : b.ensureWaitableBytes len = b') (hin : pos + len ≤ b'.buf.length) :
    (b'.capacity ≠ b.capacity ∨ (pos ≤ b'.write ∧ b'.write < pos + len) → b.appendOwn pos len = none) ∧
      (¬ (b'.capacity ≠ b.capacity ∨ (pos ≤ b'.write ∧ b'.write < pos + len)) →
        ∃ b'', b.appendOwn pos len = some b'' ∧ b''.Inv ∧ b''.readable = b.readable ++ slice b'.buf pos len) := by
  subst hmade
  obtain ⟨hi, hr, hw⟩ := ensureWaitableBytes_spec h hroom
  refine ⟨fun hbad => if_pos hbad, fun hgood => ⟨_, if_neg hgood, ?_⟩⟩
  have hl := length_slice hin
  have hfilled := fill_spec hi (slice (b.ensureWaitableBytes len).buf pos len) (by rw [hl]; exact hw)
  rwa [hl, hr] at hfilled

/-- Where the vector grows, the pointer lasts as long as the storage. -/
theorem appendOwn_grown_iff {b : Buffer} {pos len : Nat} (h : b.Inv) (hpos : pos + len ≤ b.write) (hroom : b.Room len)
    (hmade : b.ensureWaitableBytes len = b.resize (b.write + len)) :
    (∃ b', b.appendOwn pos len = some b' ∧ b'.Inv ∧ b'.readable = b.readable ++ slice b.buf pos len) ↔
      b.write + len ≤ b.capacity := by
  obtain ⟨hnone, hsome⟩ := appendOwn_spec h hroom hmade (show pos + len ≤ _ by rw [length_resize]; omega)
  have hover : ¬ (pos ≤ b.write ∧ b.write < pos + len) := by omega
  have hcap : (b.resize (b.write + len)).capacity =
      if b.write + len ≤ b.capacity then b.capacity else max (b.write + len) (2 * b.buf.length) := rfl
  by_cases hin : b.write + len ≤ b.capacity
  · obtain ⟨b', he, hinv, hreadable⟩ := hsome fun hbad => by
      rcases hbad with hbad | hbad
      · exact hbad (by rw [hcap, if_pos hin])
      · exact hover hbad
    refine iff_of_true ⟨b', he, hinv, ?_⟩ hin
    rw [hreadable, slice_congr (take_resize (Nat.le_add_right _ _) h.write_le) hpos]
  · refine iff_of_false ?_ hin
    rintro ⟨b', he, -⟩
    rw [hnone (.inl (by rw [hcap, if_neg hin]; omega))] at he
    cases he

/-- Where the bytes move to the front, it leads to what lies there then. -/
theorem appendOwn_moved_iff {b : Buffer} {pos len : Nat} (h : b.Inv) (hpos : pos + len ≤ b.write) (hroom : b.Room len)
    (hmade : b.ensureWaitableBytes len =
      { b with buf := copyAt b.buf prepend b.readable, read := prepend, write := prepend + b.readableBytes }) :
    (∃ b', b.appendOwn pos len = some b' ∧ b'.Inv ∧ b'.readable = b.readable ++ slice b.buf pos len) ↔
      slice (copyAt b.buf prepend b.readable) pos len = slice b.buf pos len ∧
        ¬ (pos ≤ prepend + b.readableBytes ∧ prepend + b.readableBytes < pos + len) := by
  have h3 := h.write_le
  have hin : pos + len ≤ (copyAt b.buf prepend b.readable).length := by
    rw [length_moved h]
    omega
  obtain ⟨hnone, hsome⟩ := appendOwn_spec h hroom hmade hin
  by_cases hover : pos ≤ prepend + b.readableBytes ∧ prepend + b.readableBytes < pos + len
  · refine iff_of_false ?_ fun hboth => hboth.2 hover
    rintro ⟨b', he, -⟩
    rw [hnone (.inr hover)] at he
    cases he
  · obtain ⟨b', he, hinv, hreadable⟩ := hsome fun hbad => by
      rcases hbad with hbad | hbad
      · exact hbad rfl
      · exact hover hbad
    refine ⟨fun hex => ⟨?_, hover⟩, fun hboth => ⟨b', he, hinv, by rw [hreadable, hboth.1]⟩⟩
    obtain ⟨b₂, he₂, -, hreadable₂⟩ := hex
    rw [he] at he₂
    cases he₂
    rw [hreadable] at hreadable₂
    exact List.append_cancel_left hreadable₂

/-- The buffer after `append` of its own bytes `[pos, pos + len)`, and the bytes behind those
that were readable. -/
theorem appendOwn_iff {b : Buffer} {pos len : Nat} (h : b.Inv) (hpos : pos + len ≤ b.write) (hroom : b.Room len) :
    (∃ b', b.appendOwn pos len = some b' ∧ b'.Inv ∧ b'.readable = b.readable ++ slice b.buf pos len) ↔
      b.Intact pos len := by
  have h3 := h.write_le
  have hmax : maxSize = 2 ^ 63 - 1 := rfl
  have hroom' := hroom
  rw [Room] at hroom'
  have hlen : b.write + len < 2 ^ 64 := by omega
  by_cases hneed : b.writableBytes < len
  · have hmade : b.ensureWaitableBytes len = b.makeSpace len := if_pos hneed
    by_cases hgrows : b.writableBytes + b.prependableBytes < len + prepend
    · rw [makeSpace_grown ((grows_iff h hlen).2 hgrows) hlen] at hmade
      rw [appendOwn_grown_iff h hpos hroom hmade]
      simp [Intact, hneed, hgrows]
    · rw [makeSpace_moved fun hg => hgrows ((grows_iff h hlen).1 hg)] at hmade
      rw [appendOwn_moved_iff h hpos hroom hmade]
      simp [Intact, hneed, hgrows]
  · obtain ⟨-, hsome⟩ := appendOwn_spec h hroom (if_neg hneed) (show pos + len ≤ b.buf.length by omega)
    refine iff_of_true (hsome ?_) fun hlt => absurd hlt hneed
    rintro (hbad | hbad)
    · exact hbad rfl
    · omega

/-! ## The byte FIFO -/

/-- The operations a buffer takes, with `readv`'s answer for `read_fd`; `append` of bytes that
are not the buffer's, or of those at `[pos, pos + len)`. -/
inductive Op
  | append (data : Bytes)
  | appendOwn (pos len : Nat)
  | ensureWaitableBytes (len : UInt64)
  | retrieve (len : Nat)
  | retrieveAsString (len : Nat)
  | retrieveAll
  | readFd (r : ReadvResult)
deriving Repr, DecidableEq

/-- A buffer in use: `none` after a call that is undefined, the queue of bytes it stands for, and
whether every call of `ensure_waitable_bytes` that came back left as many bytes writable as it
was asked for. -/
structure InUse where
  buffer : Option Buffer
  queue : Bytes
  room : Bool
deriving Repr, DecidableEq

/-- The constructor throws `length_error` where the vector would be too large. -/
def construct (initsize : UInt64) : Option InUse :=
  if (new initsize).buf.length ≤ maxSize then some { buffer := some (new initsize), queue := [], room := true }
  else none

/-- One operation. Not enabled: an `append` of more bytes than can be in memory beside the
vector, or of own bytes that are not readable; a `retrieve_as_string` past the readable bytes;
and a `readv` that delivers more than its iovecs hold. -/
def step (s : InUse) (op : Op) : Option InUse :=
  s.buffer.bind fun b =>
    match op with
    | .append data =>
      if b.Room data.length then some { s with buffer := some (b.append data), queue := s.queue ++ data } else none
    | .appendOwn pos len =>
      if b.Room len ∧ b.read ≤ pos ∧ pos + len ≤ b.write then
        some { s with buffer := b.appendOwn pos len, queue := s.queue ++ slice b.buf pos len }
      else none
    | .ensureWaitableBytes len =>
      if b.throws len.toNat then some s
      else
        let b' := b.ensureWaitableBytes len.toNat
        some { s with buffer := some b', room := s.room && decide (len.toNat ≤ b'.writableBytes) }
    | .retrieve len => some { s with buffer := some (b.retrieve len), queue := s.queue.drop len }
    | .retrieveAsString len =>
      if len ≤ b.readableBytes then
        some { s with buffer := some (b.retrieveAsString len).2, queue := s.queue.drop len }
      else none
    | .retrieveAll => some { s with buffer := some b.retrieveAll, queue := [] }
    | .readFd (.ok data) =>
      if data.length ≤ b.iovLen ∧ b.Room data.length then
        some { s with buffer := some (b.readFd (.ok data)).2, queue := s.queue ++ data }
      else none
    | .readFd (.err e) => some { s with buffer := some (b.readFd (.err e)).2 }

/-- The buffer is the queue: its indices are in order, the readable bytes are those in the queue,
also as `retrieve_as_string` returns them, and there was room for what was asked. -/
structure InUse.IsFifo (s : InUse) (b : Buffer) : Prop where
  inv : b.Inv
  readable : b.readable = s.queue
  strings : ∀ len ≤ b.readableBytes, (b.retrieveAsString len).1 = s.queue.take len
  room : s.room = true

def InUse.Right (s : InUse) : Prop := ∃ b, s.buffer = some b ∧ s.IsFifo b

/-- The condition on a call: own bytes are not moved or freed under the pointer, and
`write_ + len` does not wrap where more room is asked for than there is. -/
def Permits (b : Buffer) : Op → Prop
  | .appendOwn pos len => b.Intact pos len
  | .ensureWaitableBytes len => b.writableBytes < len.toNat → b.write + len.toNat < 2 ^ 64
  | .append _ | .retrieve _ | .retrieveAsString _ | .retrieveAll | .readFd _ => True

instance (b : Buffer) : ∀ op, Decidable (b.Permits op)
  | .appendOwn pos len => inferInstanceAs (Decidable (b.Intact pos len))
  | .ensureWaitableBytes len =>
    inferInstanceAs (Decidable (b.writableBytes < len.toNat → b.write + len.toNat < 2 ^ 64))
  | .append _ | .retrieve _ | .retrieveAsString _ | .retrieveAll | .readFd _ => .isTrue trivial

def InUse.Permits (s : InUse) (op : Op) : Prop := ∀ b ∈ s.buffer, b.Permits op

instance (s : InUse) (op : Op) : Decidable (s.Permits op) := by
  unfold InUse.Permits
  infer_instance

theorem InUse.IsFifo.of_readable {s : InUse} {b : Buffer} (hinv : b.Inv) (hreadable : b.readable = s.queue)
    (hroom : s.room = true) : s.IsFifo b :=
  ⟨hinv, hreadable, fun _ hlen => by rw [retrieveAsString_fst hlen, hreadable], hroom⟩

theorem InUse.right_some {s : InUse} {b : Buffer} (hb : s.buffer = some b) : s.Right ↔ s.IsFifo b :=
  ⟨fun ⟨_, hb', h⟩ => Option.some.inj (hb'.symm.trans hb) ▸ h, fun h => ⟨b, hb, h⟩⟩

/-- One operation leaves a FIFO exactly when it meets the condition. -/
theorem step_right_iff {s s' : InUse} {op : Op} (h : s.Right) (hs : step s op = some s') :
    s'.Right ↔ s.Permits op := by
  obtain ⟨b, hb, hinv, hreadable, -, hroom⟩ := h
  simp only [step, hb, Option.bind_some] at hs
  have hpermits : s.Permits op ↔ b.Permits op := by simp [InUse.Permits, hb]
  rw [hpermits]
  cases op with
  | append data =>
    dsimp only at hs
    split at hs
    · rename_i hfits
      cases hs
      obtain ⟨hi, hr⟩ := append_spec hinv hfits
      exact iff_of_true ⟨_, rfl, .of_readable hi (hr.trans (by rw [hreadable])) hroom⟩ trivial
    · cases hs
  | appendOwn pos len =>
    dsimp only at hs
    split at hs
    · rename_i hown
      cases hs
      obtain ⟨hfits, -, hpos⟩ := hown
      refine Iff.trans ?_ (appendOwn_iff hinv hpos hfits)
      constructor
      · rintro ⟨b', hb', hfifo⟩
        exact ⟨b', hb', hfifo.inv, by rw [hfifo.readable, hreadable]⟩
      · rintro ⟨b', hb', hi, hr⟩
        exact ⟨b', hb', .of_readable hi (by rw [hr, hreadable]) hroom⟩
    · cases hs
  | ensureWaitableBytes len =>
    dsimp only at hs
    split at hs
    · rename_i hthrows
      cases hs
      refine iff_of_true ⟨b, hb, .of_readable hinv hreadable hroom⟩ fun _ => ?_
      -- It throws before the sum wraps.
      have h3 := hinv.write_le
      have h4 := hinv.size_le
      have hlt := hthrows.2.2
      have hmax : maxSize = 2 ^ 63 - 1 := rfl
      have hlen := len.toNat_lt
      rw [sizeT] at hlt
      omega
    · rename_i hret
      cases hs
      refine Iff.trans ?_ (ensureWaitableBytes_iff hinv len.toNat_lt hret)
      rw [InUse.right_some rfl]
      constructor
      · intro hfifo
        have hwritable := hfifo.room
        simp only [hroom, Bool.true_and, decide_eq_true_eq] at hwritable
        exact ⟨hfifo.inv, hfifo.readable.trans hreadable.symm, hwritable⟩
      · rintro ⟨hi, hr, hwritable⟩
        exact .of_readable hi (hr.trans hreadable) (by simp [hroom, hwritable])
  | retrieve len =>
    cases hs
    exact iff_of_true
      ⟨_, rfl, .of_readable (retrieve_inv hinv len) ((retrieve_readable hinv len).trans (by rw [hreadable])) hroom⟩
      trivial
  | retrieveAsString len =>
    dsimp only at hs
    split at hs
    · cases hs
      exact iff_of_true
        ⟨_, rfl, .of_readable (retrieve_inv hinv len) ((retrieve_readable hinv len).trans (by rw [hreadable])) hroom⟩
        trivial
    · cases hs
  | retrieveAll =>
    cases hs
    exact iff_of_true ⟨_, rfl, .of_readable (retrieveAll_inv hinv) (retrieveAll_readable b) hroom⟩ trivial
  | readFd r =>
    cases r with
    | ok data =>
      dsimp only at hs
      split at hs
      · rename_i hok
        cases hs
        obtain ⟨hi, hr⟩ := readFd_spec hinv hok.2
        exact iff_of_true ⟨_, rfl, .of_readable hi (hr.trans (by rw [hreadable])) hroom⟩ trivial
      · cases hs
    | err e =>
      cases hs
      exact iff_of_true ⟨_, rfl, .of_readable hinv hreadable hroom⟩ trivial

/-- A new buffer is an empty FIFO exactly when `prepend + initsize` does not wrap. -/
theorem construct_right_iff {initsize : UInt64} {s : InUse} (hs : construct initsize = some s) :
    s.Right ↔ prepend + initsize.toNat < 2 ^ 64 := by
  unfold construct at hs
  split at hs
  · rename_i hmax
    cases hs
    rw [InUse.right_some rfl]
    constructor
    · intro hfifo
      by_contra hwrap
      have hwrite : prepend ≤ (new initsize).buf.length := hfifo.inv.write_le
      have hprepend : prepend = 8 := rfl
      have hlt := initsize.toNat_lt
      rw [new_length] at hwrite
      omega
    · intro hlt
      exact .of_readable (new_inv hlt hmax) (new_readable initsize) rfl
  · cases hs

/-- **The buffer is a byte FIFO.** For every initial size and every run of a buffer: it is a
FIFO, its indices in order and with room wherever it made space, after every operation if and
only if `prepend + initsize` does not wrap, and every call meets its condition: no `append`
of the buffer's own bytes has them moved or freed under its pointer, and no `write_ + len` wraps
in `make_space`. -/
theorem refinesFifo_iff {initsize : UInt64} {ops : List Op} {s₀ s : InUse} (h₀ : construct initsize = some s₀)
    (h : Run.run step s₀ ops = some s) :
    Run.Along step (fun s _ => s.Right) s₀ ops ∧ s.Right ↔
      prepend + initsize.toNat < 2 ^ 64 ∧ Run.Along step InUse.Permits s₀ ops := by
  rw [← construct_right_iff h₀]
  by_cases hright : s₀.Right
  · rw [Run.along_iff (fun _ => True) InUse.Right (fun _ _ _ _ _ => trivial)
      (fun _ _ _ _ hr hs => step_right_iff hr hs) trivial hright h]
    exact ⟨fun halong => ⟨hright, halong⟩, fun hboth => hboth.2⟩
  · refine iff_of_false (fun hboth => hright ?_) fun hboth => hright hboth.1
    cases ops with
    | nil =>
      cases h
      exact hboth.2
    | cons op ops => exact hboth.1.1

/-- A buffer of two bytes is filled and grows, and then its first byte is appended to it again. -/
def ownByte : List Op := [.append [1, 2], .append [3], .appendOwn 8 1, .retrieve 3]

theorem refinesFifo_ownByte :
    ∃ s₀ s, construct 2 = some s₀ ∧ Run.run step s₀ ownByte = some s ∧ s.Right ∧ s.queue = [1] := by
  have hrun : ((construct 2).bind fun s => Run.run step s ownByte).map InUse.queue = some [1] := by decide +kernel
  have hpermits : (construct 2).map (fun s => decide (Run.Along step InUse.Permits s ownByte)) = some true := by
    decide +kernel
  obtain ⟨s, hs, hqueue⟩ := Option.map_eq_some_iff.1 hrun
  obtain ⟨s₀, h₀, hs⟩ := Option.bind_eq_some_iff.1 hs
  rw [h₀, Option.map_some, Option.some.injEq, decide_eq_true_eq] at hpermits
  exact ⟨s₀, s, h₀, hs, ((refinesFifo_iff h₀ hs).2 ⟨by decide, hpermits⟩).2, hqueue⟩

/-- A buffer asked for `2^64 - 8` bytes gets an empty vector, with both indices at 8. In one that
is full the growth frees the byte that is to be appended again, and no buffer makes room for
`2^64 - 1` bytes. -/
theorem not_refinesFifo_wrap :
    (∃ s, construct (UInt64.ofNat (2 ^ 64 - 8)) = some s ∧ ¬ s.Right) ∧
      ∃ s₀, construct 2 = some s₀ ∧
        (∃ s, Run.run step s₀ [.append [1, 2], .appendOwn 8 1] = some s ∧ ¬ s.Right) ∧
        ∃ s, Run.run step s₀ [.ensureWaitableBytes (UInt64.ofNat (2 ^ 64 - 1))] = some s ∧ ¬ s.Right := by
  have hfull : (construct 2).bind (fun s => Run.run step s [.append [1, 2], .appendOwn 8 1]) =
      some ⟨none, [1, 2, 1], true⟩ := by decide +kernel
  have hmuch : ((construct 2).bind fun s =>
      Run.run step s [.ensureWaitableBytes (UInt64.ofNat (2 ^ 64 - 1))]).map InUse.room = some false := by
    decide +kernel
  obtain ⟨s₀, h₀, hs⟩ := Option.bind_eq_some_iff.1 hfull
  rw [h₀, Option.bind_some] at hmuch
  obtain ⟨t, ht, hroom⟩ := Option.map_eq_some_iff.1 hmuch
  refine ⟨⟨_, if_pos (by rw [new_length]; decide), fun h => ?_⟩, s₀, h₀, ⟨_, hs, fun h => ?_⟩, t, ht, fun h => ?_⟩
  · obtain ⟨b, hb, hfifo⟩ := h
    cases hb
    have hwrite := hfifo.inv.write_le
    rw [new_length] at hwrite
    revert hwrite
    decide
  · obtain ⟨b, hb, -⟩ := h
    cases hb
  · obtain ⟨b, -, hfifo⟩ := h
    rw [hfifo.room] at hroom
    cases hroom

end Buffer

end Learncc
