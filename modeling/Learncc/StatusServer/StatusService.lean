/-
`status_service_impl` (src/status_server/status_service_impl.cc): it hands
out the least loaded chat server with a token for the login, and `Login` checks
a token. The chat server checks the same token itself
(`logic_system::login_handler`, src/chat_server/logic_system.cc).

`getChatserver_least`: the server chosen has the least count.
`login_iff`: on which histories, uids and tokens `Login` is right, and on which
it agrees with the chat server's test.
-/
import Learncc.Lib.Run
import Learncc.ChatServer.Redis

namespace Learncc

structure ChatServerInfo where
  host : String
  port : String
  name : String
  conCount : ℤ
deriving Repr, DecidableEq

namespace StatusService

def INTMAX : ℤ := 2 ^ 31 - 1

/-- What a server's field of `LOGIN_COUNT` says: a server without one is not
running. -/
def conCount (r : Redis) (name : String) : ℤ :=
  let countStr := r.hget LOGINCOUNT name
  if countStr = "" then INTMAX else stoi countStr

/-- One round of the loop. -/
def pick (r : Redis) (minServer server : ChatServerInfo) : ChatServerInfo :=
  if server.name = minServer.name then minServer
  else
    let server := { server with conCount := conCount r server.name }
    if server.conCount < minServer.conCount then server else minServer

/-- `get_chatserver`, over `servers_` in the order it is walked; with no server
there `begin()` must not be read. -/
def getChatserver (r : Redis) : List ChatServerInfo → Option ChatServerInfo
  | [] => none
  | first :: rest => some ((first :: rest).foldl (pick r) { first with conCount := conCount r first.name })

structure GetChatServerRsp where
  host : String
  port : String
  error : ErrCode
  token : String
deriving Repr, DecidableEq

def insertToken (r : Redis) (uid : ℤ) (token : String) : Redis := r.set (tokenKey uid) token

/-- `GetChatServer`, with the token `generate_unique_string` came up with. -/
def getChatServer (servers : List ChatServerInfo) (r : Redis) (uid : ℤ) (token : String) :
    Option (GetChatServerRsp × Redis) := do
  let server ← getChatserver r servers
  return ({ host := server.host, port := server.port, error := .success, token }, insertToken r uid token)

structure LoginRsp where
  error : ErrCode
  uid : ℤ
  token : String
deriving Repr, DecidableEq

/-- `Login`. -/
def login (r : Redis) (uid : ℤ) (token : String) : LoginRsp :=
  let (success, tokenValue) := r.get (tokenKey uid)
  if success then { error := .errUid, uid := 0, token := "" }
  else if tokenValue ≠ token then { error := .errToken, uid := 0, token := "" }
  else { error := .success, uid, token }

/-- The test in `login_handler`. -/
def tokenTest (r : Redis) (uid : ℤ) (token : String) : ErrCode :=
  let (success, tokenValue) := r.get (tokenKey uid)
  if !success then .errUid
  else if tokenValue ≠ token then .errToken
  else .success

/-! ## The least loaded server -/

theorem pick_count {r : Redis} {m : ChatServerInfo} (h : m.conCount = conCount r m.name) (server : ChatServerInfo) :
    (pick r m server).conCount = conCount r (pick r m server).name := by
  unfold pick
  split
  · exact h
  · dsimp only
    split
    · rfl
    · exact h

theorem pick_le {r : Redis} {m : ChatServerInfo} (h : m.conCount = conCount r m.name) (server : ChatServerInfo) :
    (pick r m server).conCount ≤ m.conCount ∧ (pick r m server).conCount ≤ conCount r server.name := by
  unfold pick
  split
  · rename_i hname
    rw [hname, h]
    exact ⟨le_refl _, le_refl _⟩
  · dsimp only
    split
    · rename_i hlt
      exact ⟨hlt.le, le_refl _⟩
    · rename_i hle
      exact ⟨le_refl _, not_lt.1 hle⟩

theorem foldl_pick {r : Redis} (servers : List ChatServerInfo) {m : ChatServerInfo}
    (h : m.conCount = conCount r m.name) :
    let least := servers.foldl (pick r) m
    least.conCount = conCount r least.name ∧ least.conCount ≤ m.conCount ∧
      ∀ server ∈ servers, least.conCount ≤ conCount r server.name := by
  induction servers generalizing m with
  | nil => exact ⟨h, le_refl _, fun _ hm => by cases hm⟩
  | cons server servers ih =>
    obtain ⟨hcount, hmin, hall⟩ := ih (pick_count h server)
    obtain ⟨hle, hserver⟩ := pick_le h server
    refine ⟨hcount, hmin.trans hle, fun other hm => ?_⟩
    rcases List.mem_cons.1 hm with rfl | hm
    · exact hmin.trans hserver
    · exact hall other hm

/-- The server handed out has the least count of all. -/
theorem getChatserver_least {r : Redis} {servers : List ChatServerInfo} {least : ChatServerInfo}
    (h : getChatserver r servers = some least) :
    least.conCount = conCount r least.name ∧ ∀ server ∈ servers, least.conCount ≤ conCount r server.name := by
  cases servers with
  | nil => cases h
  | cons first rest =>
    rw [← Option.some.inj h]
    obtain ⟨hcount, -, hall⟩ := foldl_pick (r := r) (m := { first with conCount := conCount r first.name })
      (first :: rest) rfl
    exact ⟨hcount, hall⟩

/-! ## Tokens -/

/-- A call of `GetChatServer` for a uid, with the token it makes. -/
def step (servers : List ChatServerInfo) (r : Redis) (call : ℤ × String) : Option Redis :=
  (getChatServer servers r call.1 call.2).map Prod.snd

/-- The token issued last for a uid. -/
def lastToken (calls : List (ℤ × String)) (uid : ℤ) : Option String :=
  calls.foldl (fun token call => if call.1 = uid then some call.2 else token) none

theorem step_token {servers : List ChatServerInfo} {r r' : Redis} {call : ℤ × String}
    (h : step servers r call = some r') (uid : ℤ) :
    r'.strings (tokenKey uid) = if call.1 = uid then some call.2 else r.strings (tokenKey uid) := by
  obtain ⟨⟨rsp, t⟩, hcall, rfl⟩ := Option.map_eq_some_iff.1 h
  obtain ⟨server, -, hcall⟩ := Option.bind_eq_some_iff.1 hcall
  cases hcall
  show Function.update r.strings (tokenKey call.1) (some call.2) (tokenKey uid) = _
  by_cases huid : call.1 = uid
  · rw [if_pos huid, huid, Function.update_self]
  · have hkey : tokenKey uid ≠ tokenKey call.1 := fun he => huid (tokenKey_inj.1 he).symm
    rw [if_neg huid, Function.update_of_ne hkey]

/-- Redis holds the token issued last. -/
theorem run_token {servers : List ChatServerInfo} {calls : List (ℤ × String)} {r : Redis}
    (h : Run.run (step servers) .empty calls = some r) (uid : ℤ) : r.strings (tokenKey uid) = lastToken calls uid := by
  refine Run.run_simulation (fun r token => r.strings (tokenKey uid) = token)
    (fun token call => if call.1 = uid then some call.2 else token) (fun r token call t hr hs => ?_) rfl h
  rw [step_token hs uid, hr]

/-- `Login` accepts the empty token where there is none, and nothing else. -/
theorem login_success {r : Redis} {uid : ℤ} {token : String} :
    (login r uid token).error = .success ↔ r.strings (tokenKey uid) = none ∧ token = "" := by
  unfold login Redis.get
  cases r.strings (tokenKey uid) with
  | none =>
    by_cases htoken : "" = token
    · simp [← htoken]
    · simp [htoken, Ne.symm htoken]
  | some value => simp

/-- The chat server accepts the token that is there. -/
theorem tokenTest_success {r : Redis} {uid : ℤ} {token : String} :
    tokenTest r uid token = .success ↔ r.strings (tokenKey uid) = some token := by
  unfold tokenTest Redis.get
  cases r.strings (tokenKey uid) with
  | none => simp
  | some value =>
    by_cases htoken : value = token
    · simp [htoken]
    · simp [htoken]

/-- Accepting the empty token where there is none, and accepting the token
that is there, are the same only where neither accepts. -/
theorem verdicts_agree {value : Option String} {token : String} :
    ((value = none ∧ token = "") ↔ value = some token) ↔
      (value = none ∧ token ≠ "") ∨ ∃ t, value = some t ∧ t ≠ token := by
  cases value with
  | none => simp
  | some t => simp

/-- **When `Login` is right.** After any calls of `GetChatServer`, `Login`
accepts a token if and only if it is the one issued last for the uid exactly
when the token is to be refused and not the empty one for a uid without a
token. On any state of redis this is when it agrees with the chat server's
test. -/
theorem login_iff {servers : List ChatServerInfo} {calls : List (ℤ × String)} {r : Redis}
    (h : Run.run (step servers) .empty calls = some r) (uid : ℤ) (token : String) :
    (((login r uid token).error = .success ↔ lastToken calls uid = some token) ↔
      (lastToken calls uid = none ∧ token ≠ "") ∨ ∃ t, lastToken calls uid = some t ∧ t ≠ token) ∧
    ∀ r' : Redis, ((login r' uid token).error = .success ↔ tokenTest r' uid token = .success) ↔
      (r'.strings (tokenKey uid) = none ∧ token ≠ "") ∨ ∃ t, r'.strings (tokenKey uid) = some t ∧ t ≠ token := by
  refine ⟨?_, fun r' => ?_⟩
  · rw [login_success, run_token h uid]
    exact verdicts_agree
  · rw [login_success, tokenTest_success]
    exact verdicts_agree

/-- One server. -/
def oneServer : List ChatServerInfo := [{ host := "127.0.0.1", port := "8090", name := "chatserver1", conCount := 0 }]

/-- After its token was issued, for the uid 7. -/
def issued : Redis := insertToken .empty 7 "5f3a"

theorem run_issued : Run.run (step oneServer) .empty [(7, "5f3a")] = some issued := rfl

theorem login_iff_wrong_token :
    (login issued 7 "0000").error = .success ↔ lastToken [(7, "5f3a")] 7 = some "0000" :=
  ((login_iff run_issued 7 "0000").1).2 (.inr ⟨"5f3a", by decide, by decide⟩)

/-- No token was ever issued for uid 7: `Login` accepts the empty one, which the
chat server refuses. When one was, `Login` refuses it. -/
theorem empty_token_accepted :
    ((login .empty 7 "").error = .success ∧ lastToken [] 7 = none ∧ tokenTest .empty 7 "" = .errUid) ∧
      (Run.run (step oneServer) .empty [(7, "5f3a")] = some issued ∧ lastToken [(7, "5f3a")] 7 = some "5f3a" ∧
        (login issued 7 "5f3a").error ≠ .success ∧ tokenTest issued 7 "5f3a" = .success) := by
  have hvalue : issued.strings (tokenKey 7) = some "5f3a" := run_token run_issued 7
  refine ⟨⟨rfl, rfl, rfl⟩, run_issued, by decide, fun he => ?_, tokenTest_success.2 hvalue⟩
  have hnone := (login_success.1 he).1
  rw [hvalue] at hnone
  cases hnone

end StatusService

end Learncc
