/-
`search_info` (src/chat_server/logic_system.cc) and the one reply it owes. A text of digits
is looked up by uid, any other by name; `std::stoi` is called only when redis has nothing.

A database that cannot be reached answers like one without the user, and redis like one
without the key. Nobody catches what a handler throws: the thread ends, without the reply.
The reply is sent by the destructor of `defer`, which lets no exception out: what
`csession::send` throws ends the server.

`styled` is JsonCpp's `toStyledString`.
-/
import Learncc.ChatServer.ProfileCache
import Learncc.ChatServer.SendQueue
import Std.Data.String.ToInt

namespace Learncc.ProfileCache

open Json Notify Chat

/-! ## The handler -/

/-- `ID_SEARCH_USER_RSP`. -/
def idSearchUserRsp : ℤ := 1008

/-- How a handler ends. -/
inductive Ending
  | returned
  | threw
  | terminated
  | undefined
deriving Repr, DecidableEq

/-- `rtvalue` at the end: the user's data, or the error code. -/
def rtvalue : Option Mysql.UserInfo → Value
  | some info => .assigned (("err", .int SUCCESS) :: profileMembers info.uid info)
  | none => .assigned [("err", .int SUCCESS), ("err", .int ERRUID)]

/-- `~Defer`: the reply goes to the session's queue. -/
def sendReply (styled : Value → Bytes) (found : Option Mysql.UserInfo) (q : SendQueue) : Ending × SendQueue :=
  match q.sendString (styled (rtvalue found)) idSearchUserRsp with
  | .ok q => (.returned, q)
  | .error .badArrayNewLength => (.terminated, q)
  | .error .outOfBounds => (.undefined, q)

/-- `search_info` as `deal_msg` calls it. -/
def dealSearch (styled : Value → Bytes) (same : String → String → Bool) (cfg : Config) (uidStr : String) (w : World)
    (q : SendQueue) : Option (Ending × World × SendQueue) :=
  (searchInfo same cfg uidStr w).map fun p =>
    match p.1 with
    | .ok found => ((sendReply styled found q).1, p.2, (sendReply styled found q).2)
    | .error _ => (.threw, p.2, q)

/-- Each member a lookup reads of a profile can be read. -/
structure Legible (fp : Doubles) (root : Value) : Prop where
  ints : ∀ key ∈ ["uid", "sex"], ∃ n, root.intAt fp key = .ok n
  texts : ∀ key ∈ ["name", "pwd", "email", "nick", "desc"], ∃ s, root.stringAt fp key = .ok s

/-- What `search_info` fetches where redis has nothing. -/
def fetch (same : String → String → Bool) (w : World) (uidStr : String) : Except LogicError (Option Mysql.UserInfo) :=
  if isPureDigit uidStr then (intOf uidStr).map fun uid => (w.byUid uid).map fun u => u.row.info uid
  else .ok ((w.byName same uidStr).map User.info)

/-- What there is about the user, in redis or else in the table. -/
def record (same : String → String → Bool) (cfg : Config) (w : World) (uidStr : String) :
    Except LogicError (Option Mysql.UserInfo) :=
  match w.profiles (question uidStr).key with
  | some root => (profileOf cfg root).map some
  | none => fetch same w uidStr

/-- What the text is taken for can be found out. -/
def Searchable (cfg : Config) (w : World) (uidStr : String) : Prop :=
  match w.profiles (question uidStr).key with
  | some root => Legible cfg.fp root
  | none => isPureDigit uidStr = true → uidStr ≠ "" ∧ Nat.ofDigitChars 10 uidStr.toList 0 < 2 ^ 31

variable {same : String → String → Bool} {cfg : Config} {w : World} {uidStr : String}

/-! ## The parts -/

theorem except_bind_ok {α β : Type} {x : Except LogicError α} {f : α → Except LogicError β} {b : β} :
    (x >>= f) = .ok b ↔ ∃ a, x = .ok a ∧ f a = .ok b := by
  cases x with
  | ok a =>
    constructor
    · intro h
      exact ⟨a, rfl, h⟩
    · intro h
      obtain ⟨a', ha, hf⟩ := h
      cases ha
      exact hf
  | error e =>
    constructor
    · intro h
      cases h
    · intro h
      obtain ⟨a, ha, -⟩ := h
      cases ha

theorem profileOf_ok_iff (root : Value) : (∃ info, profileOf cfg root = .ok info) ↔ Legible cfg.fp root := by
  constructor
  · intro h
    obtain ⟨info, h⟩ := h
    obtain ⟨uid, huid, h⟩ := except_bind_ok.1 h
    obtain ⟨name, hname, h⟩ := except_bind_ok.1 h
    obtain ⟨pwd, hpwd, h⟩ := except_bind_ok.1 h
    obtain ⟨email, hemail, h⟩ := except_bind_ok.1 h
    obtain ⟨nick, hnick, h⟩ := except_bind_ok.1 h
    obtain ⟨desc, hdesc, h⟩ := except_bind_ok.1 h
    obtain ⟨sex, hsex, -⟩ := except_bind_ok.1 h
    refine ⟨?_, ?_⟩
    · simp only [List.forall_mem_cons]
      exact ⟨⟨uid, huid⟩, ⟨sex, hsex⟩, fun key hkey => absurd hkey List.not_mem_nil⟩
    · simp only [List.forall_mem_cons]
      exact ⟨⟨name, hname⟩, ⟨pwd, hpwd⟩, ⟨email, hemail⟩, ⟨nick, hnick⟩, ⟨desc, hdesc⟩,
        fun key hkey => absurd hkey List.not_mem_nil⟩
  · intro h
    have hints := h.ints
    have htexts := h.texts
    simp only [List.forall_mem_cons] at hints htexts
    obtain ⟨⟨uid, huid⟩, ⟨sex, hsex⟩, -⟩ := hints
    obtain ⟨⟨name, hname⟩, ⟨pwd, hpwd⟩, ⟨email, hemail⟩, ⟨nick, hnick⟩, ⟨desc, hdesc⟩, -⟩ := htexts
    exact ⟨_, except_bind_ok.2 ⟨uid, huid, except_bind_ok.2 ⟨name, hname, except_bind_ok.2 ⟨pwd, hpwd,
      except_bind_ok.2 ⟨email, hemail, except_bind_ok.2 ⟨nick, hnick, except_bind_ok.2 ⟨desc, hdesc,
      except_bind_ok.2 ⟨sex, hsex, rfl⟩⟩⟩⟩⟩⟩⟩⟩

/-- `std::stoi` finds no digit in the empty text. -/
theorem intOf_empty : intOf "" = .error ⟨⟩ := by
  have hnone : ("" : String).toInt? = none := by
    cases h : ("" : String).toInt? with
    | none => rfl
    | some n =>
      obtain ⟨k, hk, -⟩ | ⟨t, ht, -⟩ := String.toInt?_eq_some_iff.1 h
      · exact absurd rfl (String.isNat_iff.1 (String.isNat_of_toNat?_eq_some hk)).1
      · have hlength := congrArg String.length ht
        rw [String.length_append, show "-".length = 1 from rfl, show "".length = 0 from rfl] at hlength
        omega
  rw [intOf, hnone]

/-- `std::stoi` of digits. -/
theorem intOf_digits (h : isPureDigit uidStr = true) :
    (∃ n, intOf uidStr = .ok n) ↔ uidStr ≠ "" ∧ Nat.ofDigitChars 10 uidStr.toList 0 < 2 ^ 31 := by
  have hdigit : ∀ c ∈ uidStr.toList, c.isDigit = true := List.all_eq_true.1 h
  by_cases hne : uidStr = ""
  · subst hne
    refine iff_of_false (fun he => ?_) fun hand => hand.1 rfl
    obtain ⟨n, hn⟩ := he
    rw [intOf_empty] at hn
    cases hn
  · have hplain : uidStr.toList.filter (· != '_') = uidStr.toList := by
      refine List.filter_eq_self.2 fun c hc => bne_iff_ne.2 fun he => ?_
      have hc := hdigit c hc
      rw [he] at hc
      exact absurd hc (by decide)
    have hnat := String.toNat?_eq_some_ofDigitChars (String.isNat_of_isDigit hne hdigit)
    rw [hplain] at hnat
    have hint : uidStr.toInt? = some (Nat.ofDigitChars 10 uidStr.toList 0 : ℤ) :=
      String.toInt?_eq_some_iff.2 (.inl ⟨_, hnat, rfl⟩)
    rw [intOf, hint]
    dsimp only
    split
    · rename_i hrange
      exact iff_of_true ⟨_, rfl⟩ ⟨hne, by omega⟩
    · rename_i hrange
      refine iff_of_false (fun he => ?_) fun hand => hrange (by omega)
      obtain ⟨n, hn⟩ := he
      cases hn

theorem searchInfo_eq (w : World) (uidStr : String) : searchInfo same cfg uidStr w =
    some (readThrough cfg (question uidStr).key (fetch same w uidStr) w) := by
  by_cases hdigit : isPureDigit uidStr = true
  · rw [searchInfo, if_pos hdigit, getUserByuid_eq, fetch, if_pos hdigit, question, if_pos hdigit]
    rfl
  · rw [searchInfo, if_neg hdigit, getUserByname_eq, fetch, if_neg hdigit, question, if_neg hdigit]
    rfl

/-- The handler finds the record, whether or not it stores it in redis. -/
theorem readThrough_record (w : World) (uidStr : String) :
    (readThrough cfg (question uidStr).key (fetch same w uidStr) w).1 = record same cfg w uidStr := by
  unfold readThrough record
  cases w.profiles (question uidStr).key with
  | some root => rfl
  | none =>
    dsimp only
    split
    · rename_i hfetch
      exact hfetch.symm
    · rfl

theorem fetch_ok_iff : (∃ found, fetch same w uidStr = .ok found) ↔
    (isPureDigit uidStr = true → uidStr ≠ "" ∧ Nat.ofDigitChars 10 uidStr.toList 0 < 2 ^ 31) := by
  by_cases hdigit : isPureDigit uidStr = true
  · rw [fetch, if_pos hdigit, forall_prop_of_true hdigit, ← intOf_digits hdigit]
    cases intOf uidStr with
    | ok uid => exact iff_of_true ⟨_, rfl⟩ ⟨uid, rfl⟩
    | error e =>
      refine iff_of_false (fun h => ?_) fun h => ?_
      · obtain ⟨found, hfound⟩ := h
        cases hfound
      · obtain ⟨uid, huid⟩ := h
        cases huid
  · rw [fetch, if_neg hdigit]
    exact iff_of_true ⟨_, rfl⟩ fun h => absurd h hdigit

/-- There is a record to answer with when what redis has can be read, or the text is one
that can be looked up. -/
theorem record_ok_iff : (∃ found, record same cfg w uidStr = .ok found) ↔ Searchable cfg w uidStr := by
  unfold record Searchable
  cases w.profiles (question uidStr).key with
  | some root =>
    dsimp only
    rw [← profileOf_ok_iff]
    cases profileOf cfg root with
    | ok info => exact iff_of_true ⟨some info, rfl⟩ ⟨info, rfl⟩
    | error e =>
      refine iff_of_false (fun h => ?_) fun h => ?_
      · obtain ⟨found, hfound⟩ := h
        cases hfound
      · obtain ⟨info, hinfo⟩ := h
        cases hinfo
  | none => exact fetch_ok_iff

/-- The reply is sent as it is, or it is not, whatever else becomes of the handler. -/
theorem sendReply_iff (styled : Value → Bytes) (found : Option Mysql.UserInfo) (q : SendQueue) :
    (∃ q', sendReply styled found q = (.returned, q') ∧ q.Queues (styled (rtvalue found)) idSearchUserRsp q') ↔
      q.sendQue.length ≤ MAXSENDQUE ∧ (styled (rtvalue found)).length ≤ 32763 := by
  rw [← q.queues_iff (styled (rtvalue found)) idSearchUserRsp (by decide) (by decide)]
  refine exists_congr fun q' => and_iff_right_of_imp fun hq => ?_
  rw [sendReply, hq.1]

end Learncc.ProfileCache
