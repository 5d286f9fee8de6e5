/-
What the chat servers and the status server keep in redis, through
`redis_mgr` (src/chat_server/redis_mgr.cc, src/status_server/redis_mgr.cc),
when redis answers. Keys are a fixed word and a uid in decimal.
-/
import Mathlib

namespace Learncc

structure Redis where
  strings : String → Option String
  hashes : String → String → Option String

/-- `enum errcode`, as far as logins use it. -/
inductive ErrCode
  | success
  | errToken
  | errUid
deriving Repr, DecidableEq

namespace Redis

def empty : Redis := { strings := fun _ => none, hashes := fun _ _ => none }

/-- Whether the key is there, and the value the caller ends up with. -/
def get (r : Redis) (key : String) : Bool × String :=
  match r.strings key with
  | none => (false, "")
  | some value => (true, value)

def set (r : Redis) (key value : String) : Redis := { r with strings := Function.update r.strings key (some value) }

def hget (r : Redis) (key field : String) : String := (r.hashes key field).getD ""

def hset (r : Redis) (key field value : String) : Redis :=
  { r with hashes := Function.update r.hashes key (Function.update (r.hashes key) field (some value)) }

@[simp] theorem hget_hset (r : Redis) (key field value : String) : (r.hset key field value).hget key field = value := by
  simp [hget, hset]

@[simp] theorem hget_set (r : Redis) (key value hash field : String) :
    (r.set key value).hget hash field = r.hget hash field := rfl

end Redis

def USERIPPREFIX : String := "uip_"

def USERTOKENPREFIX : String := "utoken_"

def LOGINCOUNT : String := "logincount"

/-- `USERTOKENPREFIX + std::to_string(uid)`. -/
def tokenKey (uid : ℤ) : String := USERTOKENPREFIX ++ toString uid

/-- `USERIPPREFIX + std::to_string(uid)`. -/
def ipKey (uid : ℤ) : String := USERIPPREFIX ++ toString uid

theorem tokenKey_inj {a b : ℤ} : tokenKey a = tokenKey b ↔ a = b := by
  unfold tokenKey
  rw [String.append_right_inj]
  exact Int.repr_inj

/-- `std::stoi` of what `std::to_string` wrote. -/
def stoi (s : String) : ℤ := s.toInt?.getD 0

theorem stoi_toString (n : ℤ) : stoi (toString n) = n := by
  have hback : (toString n).toInt? = some n := Int.toInt?_repr n
  rw [stoi, hback]
  rfl

theorem toString_ne_empty (n : ℤ) : toString n ≠ "" := by
  show n.repr ≠ ""
  rw [Int.repr_eq_if]
  split
  · exact Nat.repr_ne_empty
  · intro he
    have hlen := congrArg String.length he
    simp at hlen

end Learncc
