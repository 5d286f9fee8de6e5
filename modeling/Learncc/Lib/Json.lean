/-
JSON values the way jsoncpp has them. An object has its members in the order
of their keys, each key once. A read throws where the value is of a kind that
has no such reading. How a double reads as a text or as an `int` is a
parameter.
-/
import Mathlib.Data.List.Basic
import Mathlib.Algebra.Ring.Int.Defs

namespace Json

inductive Value
  | null
  | bool (b : Bool)
  | int (n : ℤ)
  | real (bits : UInt64)
  | str (s : String)
  | arr (elements : List Value)
  | obj (members : List (String × Value))

structure LogicError where
deriving Repr, DecidableEq

/-- The readings of a double: its text, and the `int` it is cut to if it is in
range. -/
structure Doubles where
  text : UInt64 → String
  toInt : UInt64 → Option ℤ
  toInt_range : ∀ bits n, toInt bits = some n → -(2 ^ 31) ≤ n ∧ n < 2 ^ 31

namespace Value

/-- `value[key]`: null where there is no such member. -/
def member (key : String) : Value → Except LogicError Value
  | .null => .ok .null
  | .obj members => .ok ((members.lookup key).getD .null)
  | _ => .error ⟨⟩

variable (fp : Doubles)

def asInt : Value → Except LogicError ℤ
  | .null => .ok 0
  | .bool b => .ok (if b then 1 else 0)
  | .int n => if -(2 ^ 31) ≤ n ∧ n < 2 ^ 31 then .ok n else .error ⟨⟩
  | .real bits => (fp.toInt bits).elim (.error ⟨⟩) .ok
  | _ => .error ⟨⟩

def asString : Value → Except LogicError String
  | .null => .ok ""
  | .bool b => .ok (if b then "true" else "false")
  | .int n => .ok (toString n)
  | .real bits => .ok (fp.text bits)
  | .str s => .ok s
  | _ => .error ⟨⟩

/-- `value[key].asInt()`. -/
def intAt (key : String) (value : Value) : Except LogicError ℤ := value.member key >>= asInt fp

/-- `value[key].asString()`. -/
def stringAt (key : String) (value : Value) : Except LogicError String := value.member key >>= asString fp

variable {fp} in
theorem asInt_range {value : Value} {n : ℤ} (h : value.asInt fp = .ok n) : -(2 ^ 31) ≤ n ∧ n < 2 ^ 31 := by
  unfold asInt at h
  split at h
  · cases h
    omega
  · cases h
    split <;> omega
  · split at h
    · rename_i hrange
      cases h
      exact hrange
    · cases h
  · rename_i bits
    cases hbits : fp.toInt bits with
    | none =>
      rw [hbits] at h
      cases h
    | some m =>
      rw [hbits] at h
      cases h
      exact fp.toInt_range bits n hbits
  · cases h

variable {fp} in
theorem intAt_range {value : Value} {key : String} {n : ℤ} (h : value.intAt fp key = .ok n) :
    -(2 ^ 31) ≤ n ∧ n < 2 ^ 31 := by
  unfold intAt at h
  cases hm : value.member key with
  | ok v =>
    rw [hm] at h
    exact asInt_range h
  | error e =>
    rw [hm] at h
    cases h

/-- What a `for` over the value sees. -/
def items : Value → List Value
  | .arr elements => elements
  | .obj members => members.map Prod.snd
  | _ => []

/-- `value.append(element)` of null or an array. -/
def append (element : Value) : Value → Value
  | .arr elements => .arr (elements ++ [element])
  | _ => .arr [element]

/-- One member assigned, in its place in the order. -/
def insert (key : String) (value : Value) : List (String × Value) → List (String × Value)
  | [] => [(key, value)]
  | (k, v) :: rest =>
    if key.toList < k.toList then (key, value) :: (k, v) :: rest
    else if key = k then (key, value) :: rest
    else (k, v) :: insert key value rest

/-- A new value whose members are assigned one after another:
`v[key] = value` for each pair. -/
def assigned (members : List (String × Value)) : Value :=
  .obj (members.foldl (fun acc m => insert m.1 m.2 acc) [])

theorem foldl_append_arr (l elements : List Value) :
    l.foldl (fun acc v => append v acc) (.arr elements) = .arr (elements ++ l) := by
  induction l generalizing elements with
  | nil => rw [List.foldl_nil, List.append_nil]
  | cons v l ih =>
    rw [List.foldl_cons]
    show l.foldl _ (Value.arr (elements ++ [v])) = _
    rw [ih, List.append_assoc, List.singleton_append]

/-- A value grown by `append` stays null if nothing is appended. -/
theorem foldl_append_null (l : List Value) :
    l.foldl (fun acc v => append v acc) .null = if l = [] then .null else .arr l := by
  cases l with
  | nil => rfl
  | cons v l =>
    rw [List.foldl_cons]
    exact foldl_append_arr l [v]

end Value

end Json
