/-
The system calls the reactor makes, as the answers the kernel may give:
`write(2)` and `readv(2)` results, the `errno` values the code tests and the
`epoll` event bits.
-/
import Mathlib.Data.List.Basic

namespace Learncc

/-- A byte string: `char` data as the code moves it. -/
abbrev Bytes := List UInt8

/-- The `errno` values the code distinguishes (Linux numbering). -/
abbrev Errno := Nat

def EWOULDBLOCK : Errno := 11
def EPIPE : Errno := 32
def ECONNRESET : Errno := 104

/-- What `write(2)` answers: a count, or `-1` with `errno`. -/
inductive WriteResult
  | ok (n : Nat)
  | err (errno : Errno)
deriving Repr, DecidableEq

/-- `write(fd, data, len)` never accepts more than it was offered. -/
def WriteResult.Valid (len : Nat) : WriteResult → Prop
  | .ok n => n ≤ len
  | .err _ => True

instance (len : Nat) : (w : WriteResult) → Decidable (w.Valid len)
  | .ok n => inferInstanceAs (Decidable (n ≤ len))
  | .err _ => inferInstanceAs (Decidable True)

/-- What `readv(2)` answers: the bytes it delivered (none at end of file),
or `-1` with `errno`. -/
inductive ReadvResult
  | ok (data : Bytes)
  | err (errno : Errno)
deriving Repr, DecidableEq

/-- An `epoll` event mask. -/
abbrev EventMask := BitVec 32

def EPOLLIN : EventMask := 0x001
def EPOLLPRI : EventMask := 0x002
def EPOLLOUT : EventMask := 0x004
def EPOLLERR : EventMask := 0x008
def EPOLLHUP : EventMask := 0x010

/-- `mask & bits` read as a condition. -/
def EventMask.has (mask bits : EventMask) : Bool := mask &&& bits != 0

end Learncc
