/-
Who is online on a chat server: `cserver::handle_accept` and `clear_session`
(src/chat_server/cserver.cc), `user_mgr` (src/chat_server/user_mgr.cc), what a
successful `login_handler` does (src/chat_server/logic_system.cc), and the
count of logins that `main` sets to "0" (src/chat_server/chat_server.cc).

Accepting, the logins and the closes of sessions run on different threads, so
`handle_accept` and `login_handler` are two steps each. `user_id_` is not
initialised: a session starts with any number in it.

`registry_iff`: in which runs `get_session` is always right. `loginCount_iff`:
in which runs the count in redis is always the number of sessions that are
connected and logged in.
-/
import Learncc.Lib.Run
import Learncc.StatusServer.StatusService

namespace Learncc

open StatusService (INTMAX conCount)

/-- Sessions are numbers, which stand for their uuids. `login` is the login
that has set the user id and not yet the session of the user. The last three
fields are records: the sessions closed, those with a login, and where each
user logged in last. -/
structure ChatServer where
  name : String
  redis : Redis
  started : Finset ℕ
  accepting : Option ℕ
  sessions : Finset ℕ
  userId : ℕ → ℤ
  uidToSession : ℤ → Option ℕ
  login : Option (ℕ × ℤ)
  closed : Finset ℕ
  loggedIn : Finset ℕ
  lastLogin : ℤ → Option ℕ

namespace ChatServer

/-- `main`. -/
def start (name : String) (redis : Redis) : ChatServer :=
  { name, redis := redis.hset LOGINCOUNT name "0", started := ∅, accepting := none, sessions := ∅,
    userId := fun _ => 0, uidToSession := fun _ => none, login := none, closed := ∅, loggedIn := ∅,
    lastLogin := fun _ => none }

def getSession (s : ChatServer) (uid : ℤ) : Option ℕ := s.uidToSession uid

def setUserSession (s : ChatServer) (uid : ℤ) (session : ℕ) : ChatServer :=
  { s with uidToSession := Function.update s.uidToSession uid (some session) }

def rmUserSession (s : ChatServer) (uid : ℤ) : ChatServer :=
  { s with uidToSession := Function.update s.uidToSession uid none }

def clearSession (s : ChatServer) (session : ℕ) : ChatServer :=
  let s := if session ∈ s.sessions then s.rmUserSession (s.userId session) else s
  { s with sessions := s.sessions.erase session }

/-- The count `login_handler` finds. -/
def loginCount (s : ChatServer) : ℤ :=
  let rdRes := s.redis.hget LOGINCOUNT s.name
  if rdRes = "" then 0 else stoi rdRes

/-- A successful `login_handler`, up to the name of the server in redis. -/
def loginHandler (s : ChatServer) (session : ℕ) (uid : ℤ) : ChatServer :=
  { s with
    redis := (s.redis.hset LOGINCOUNT s.name (toString (s.loginCount + 1))).set (ipKey uid) s.name
    userId := Function.update s.userId session uid
    login := some (session, uid)
    loggedIn := insert session s.loggedIn }

inductive Op
  | restart
  | accept (session : ℕ) (userId : ℤ)
  | insert (session : ℕ)
  | login (session : ℕ) (uid : ℤ)
  | setUserSession (session : ℕ) (uid : ℤ)
  | close (session : ℕ)
deriving Repr, DecidableEq

/-- A session is accepted once, and one `handle_accept` ends before the next;
a login is of some session that was accepted, and ends before the next; the
count does not overflow. -/
def Enabled (s : ChatServer) : Op → Prop
  | .restart => True
  | .accept session _ => session ∉ s.started ∧ s.accepting = none
  | .insert session => s.accepting = some session
  | .login session _ => session ∈ s.started ∧ s.login = none ∧ s.loginCount < INTMAX
  | .setUserSession session uid => s.login = some (session, uid)
  | .close session => session ∈ s.started

instance (s : ChatServer) : (op : Op) → Decidable (s.Enabled op)
  | .restart => inferInstanceAs (Decidable True)
  | .accept .. => inferInstanceAs (Decidable (_ ∧ _))
  | .insert _ => inferInstanceAs (Decidable (_ = _))
  | .login .. => inferInstanceAs (Decidable (_ ∧ _ ∧ _))
  | .setUserSession .. => inferInstanceAs (Decidable (_ = _))
  | .close _ => inferInstanceAs (Decidable (_ ∈ _))

/-- The server is started again; `handle_accept` starts a session, with
whatever is in its `user_id_`, and then enters it in `sessions_`;
`login_handler` runs, on a session that may have been closed since, as far as
`set_user_id` and then to its end; a session is closed. -/
def after (s : ChatServer) : Op → ChatServer
  | .restart => start s.name s.redis
  | .accept session userId =>
    { s with
      started := Insert.insert session s.started
      accepting := some session
      userId := Function.update s.userId session userId }
  | .insert session => { s with accepting := none, sessions := Insert.insert session s.sessions }
  | .login session uid => s.loginHandler session uid
  | .setUserSession session uid =>
    { s.setUserSession uid session with
      login := none
      lastLogin := Function.update s.lastLogin uid (some session) }
  | .close session => { s.clearSession session with closed := Insert.insert session s.closed }

def step (s : ChatServer) (op : Op) : Option ChatServer := if s.Enabled op then some (s.after op) else none

theorem step_cases {s s' : ChatServer} {op : Op} (h : s.step op = some s') : s.Enabled op ∧ s' = s.after op := by
  unfold step at h
  split at h
  · rename_i he
    exact ⟨he, (Option.some.inj h).symm⟩
  · cases h

/-- `P` of every step, where all the steps can be taken. -/
def Chain (P : ChatServer → Op → Prop) : ChatServer → List Op → Prop
  | _, [] => True
  | s, op :: ops => P s op ∧ Chain P (s.after op) ops

theorem run_of_chain {s : ChatServer} {ops : List Op} (h : Chain Enabled s ops) :
    Run.run step s ops = some (ops.foldl after s) := by
  induction ops generalizing s with
  | nil => rfl
  | cons op ops ih => exact Run.run_cons.2 ⟨s.after op, if_pos h.1, ih h.2⟩

theorem along_of_chain {P : ChatServer → Op → Prop} {s : ChatServer} {ops : List Op} (h : Chain P s ops) :
    Run.Along step P s ops := by
  induction ops generalizing s with
  | nil => trivial
  | cons op ops ih =>
    refine ⟨h.1, fun t ht => ?_⟩
    obtain ⟨-, rfl⟩ := step_cases ht
    exact ih h.2

theorem loginCount_of_zero {s : ChatServer} (h : s.redis.hget LOGINCOUNT s.name = "0") : s.loginCount = 0 := by
  rw [loginCount, h, if_neg (by decide)]
  exact stoi_toString 0

theorem loginCount_after_login (s : ChatServer) (session : ℕ) (uid : ℤ) :
    (s.after (.login session uid)).loginCount = s.loginCount + 1 := by
  show (if (Redis.hget _ _ _) = "" then 0 else stoi (Redis.hget _ _ _)) = _
  simp only [after, loginHandler, Redis.hget_set, Redis.hget_hset, if_neg (toString_ne_empty _), stoi_toString]

/-- A server just started. -/
def server : ChatServer := start "chatserver1" .empty

/-- A user logs in. -/
def oneLogin : List Op := [.accept 1 0, .insert 1, .login 1 7, .setUserSession 1 7]

/-- The user leaves again. -/
def loginLogout : List Op := oneLogin ++ [.close 1]

/-- The user logs in on a second session, and then the first one is closed. -/
def secondLogin : List Op := oneLogin ++ [.accept 2 0, .insert 2, .login 2 7, .setUserSession 2 7, .close 1]

/-- The server before the first login. -/
def firstState : ChatServer := (server.after (.accept 1 0)).after (.insert 1)

theorem firstLogin_count : firstState.loginCount = 0 := loginCount_of_zero (Redis.hget_hset ..)

theorem oneLogin_enabled : Chain Enabled server oneLogin := by
  refine ⟨by decide, by decide, ⟨by decide, rfl, ?_⟩, rfl, trivial⟩
  show firstState.loginCount < INTMAX
  rw [firstLogin_count]
  decide

theorem loginLogout_enabled : Chain Enabled server loginLogout := by
  obtain ⟨haccept, hinsert, hlogin, hbind, -⟩ := oneLogin_enabled
  exact ⟨haccept, hinsert, hlogin, hbind, by decide, trivial⟩

theorem secondLogin_enabled : Chain Enabled server secondLogin := by
  obtain ⟨haccept, hinsert, hlogin, hbind, -⟩ := oneLogin_enabled
  refine ⟨haccept, hinsert, hlogin, hbind, by decide, by decide, ⟨by decide, rfl, ?_⟩, rfl, by decide, trivial⟩
  show (firstState.after (.login 1 7)).loginCount < INTMAX
  rw [loginCount_after_login, firstLogin_count]
  decide

/-! ## The registry -/

/-- The session on which the user logged in last, if it is not closed. -/
def expected (s : ChatServer) (uid : ℤ) : Option ℕ := (s.lastLogin uid).filter fun session => session ∉ s.closed

def Exact (s : ChatServer) : Prop := ∀ uid, s.getSession uid = s.expected uid

/-- A close leaves the users of other sessions alone. -/
def Undisturbed (s : ChatServer) : Op → Prop
  | .close session => ∀ uid other, s.getSession uid = some other → other ≠ session →
      (s.clearSession session).getSession uid = some other
  | _ => True

/-- A session that closes has been entered in `sessions_`, if some user is bound
to it; then its user id is the only user bound to it, and bound to no other
session. No login ends on a session that is closed. -/
def Tidy (s : ChatServer) : Op → Prop
  | .close session =>
    (∀ uid, s.uidToSession uid = some session → uid = s.userId session ∧ session ∈ s.sessions) ∧
      (session ∈ s.sessions → ∀ other, s.uidToSession (s.userId session) = some other → other = session)
  | .setUserSession session _ => session ∉ s.closed
  | _ => True

theorem clearSession_uidToSession (s : ChatServer) (session : ℕ) (uid : ℤ) :
    (s.clearSession session).uidToSession uid =
      if session ∈ s.sessions ∧ uid = s.userId session then none else s.uidToSession uid := by
  unfold clearSession rmUserSession
  by_cases hin : session ∈ s.sessions
  · by_cases huid : uid = s.userId session
    · simp [hin, huid]
    · simp [hin, huid]
  · simp [hin]

theorem expected_eq_some {s : ChatServer} {uid : ℤ} {session : ℕ} :
    s.expected uid = some session ↔ s.lastLogin uid = some session ∧ session ∉ s.closed := by
  simp [expected, Option.filter_eq_some_iff]

theorem clearSession_lastLogin (s : ChatServer) (session : ℕ) : (s.clearSession session).lastLogin = s.lastLogin := by
  unfold clearSession rmUserSession
  split <;> rfl

/-- A close keeps the registry right exactly if it is tidy. -/
theorem exact_close {s : ChatServer} (h : s.Exact) (session : ℕ) :
    (s.after (.close session)).Exact ↔ s.Tidy (.close session) := by
  have hbound : ∀ {uid other}, s.uidToSession uid = some other ↔ s.lastLogin uid = some other ∧ other ∉ s.closed :=
    fun {uid other} => by rw [← expected_eq_some, ← h uid, getSession]
  -- What is right after the close: the users of other sessions that are open.
  have hafter : ∀ uid other, (s.after (.close session)).expected uid = some other ↔
      s.uidToSession uid = some other ∧ other ≠ session := by
    intro uid other
    rw [expected_eq_some, hbound]
    simp only [after, clearSession_lastLogin, Finset.mem_insert, not_or]
    tauto
  have hget : ∀ uid, (s.after (.close session)).getSession uid =
      if session ∈ s.sessions ∧ uid = s.userId session then none else s.uidToSession uid :=
    clearSession_uidToSession s session
  refine ⟨fun hx => ⟨fun uid hu => ?_, fun hin other ho => ?_⟩, fun hx uid => Option.ext fun other => ?_⟩
  · by_contra hno
    have hkept : s.uidToSession uid = some session ∧ session ≠ session := by
      rw [← hafter, ← hx uid, hget, if_neg (fun hc => hno ⟨hc.2, hc.1⟩), hu]
    exact hkept.2 rfl
  · by_contra hne
    have hkept := (hafter _ _).2 ⟨ho, hne⟩
    rw [← hx, hget, if_pos ⟨hin, rfl⟩] at hkept
    cases hkept
  · rw [hafter, hget]
    by_cases hc : session ∈ s.sessions ∧ uid = s.userId session
    · rw [if_pos hc]
      refine iff_of_false (fun hn => nomatch hn) fun ho => ?_
      obtain ⟨hin, rfl⟩ := hc
      exact ho.2 (hx.2 hin other ho.1)
    · rw [if_neg hc]
      refine ⟨fun ho => ⟨ho, fun he => ?_⟩, fun ho => ho.1⟩
      subst he
      obtain ⟨huid, hin⟩ := hx.1 uid ho
      exact hc ⟨hin, huid⟩

/-- The end of a login keeps the registry right exactly if its session is
open. -/
theorem exact_setUserSession {s : ChatServer} (h : s.Exact) (session : ℕ) (uid : ℤ) :
    (s.after (.setUserSession session uid)).Exact ↔ session ∉ s.closed := by
  have hself : (s.after (.setUserSession session uid)).getSession uid = some session := Function.update_self uid _ _
  have hlast : (s.after (.setUserSession session uid)).lastLogin uid = some session := Function.update_self uid _ _
  refine ⟨fun hx => ?_, fun hopen other => ?_⟩
  · rw [hx uid] at hself
    exact (expected_eq_some.1 hself).2
  · by_cases ho : other = uid
    · rw [ho, hself]
      exact (expected_eq_some.2 ⟨hlast, hopen⟩).symm
    · have hothers := h other
      simp only [getSession, expected, after, setUserSession, Function.update_of_ne ho] at hothers ⊢
      exact hothers

theorem start_exact (name : String) (redis : Redis) : (start name redis).Exact := fun _ => rfl

theorem step_exact_iff {s s' : ChatServer} {op : Op} (h : s.Exact) (hs : s.step op = some s') :
    s'.Exact ↔ s.Tidy op := by
  obtain ⟨-, rfl⟩ := step_cases hs
  cases op with
  | restart => exact iff_of_true (start_exact _ _) trivial
  | accept session userId => exact iff_of_true h trivial
  | insert session => exact iff_of_true h trivial
  | login session uid => exact iff_of_true h trivial
  | setUserSession session uid => exact exact_setUserSession h session uid
  | close session => exact exact_close h session

theorem undisturbed_of_tidy {s : ChatServer} {op : Op} (h : s.Tidy op) : s.Undisturbed op := by
  cases op with
  | close session =>
    intro uid other ho hne
    show (s.clearSession session).uidToSession uid = some other
    rw [clearSession_uidToSession, if_neg, ← ho]
    · rfl
    · intro hc
      obtain ⟨hin, rfl⟩ := hc
      exact hne (h.2 hin other ho)
  | _ => trivial

/-- **When the registry is right.** In a run from the start of the server,
`get_session` always answers the session on which the user logged in last, or
null if that session is closed, and no close takes away the entry of a user on
another session, if and only if every close of the run finds the session
entered, with its user id the only user bound to it and bound to no other
session, and no login ends on a closed session. -/
theorem registry_iff {name : String} {redis : Redis} {ops : List Op} {s : ChatServer}
    (h : Run.run step (start name redis) ops = some s) :
    Run.Along step (fun t op => t.Exact ∧ t.Undisturbed op) (start name redis) ops ∧ s.Exact ↔
      Run.Along step Tidy (start name redis) ops := by
  have hiff := Run.along_iff (C := Tidy) (fun _ => True) Exact (fun _ _ _ _ _ => trivial)
    (fun _ _ _ _ ht hs => step_exact_iff ht hs) trivial (start_exact name redis) h
  refine ⟨fun ha => ?_, fun ha => ?_⟩
  · exact hiff.1 ⟨Run.along_mono (fun _ _ hp => hp.1) ha.1, ha.2⟩
  · obtain ⟨hexact, hlast⟩ := hiff.2 ha
    exact ⟨Run.along_and hexact (Run.along_mono (fun _ _ ht => undisturbed_of_tidy ht) ha), hlast⟩

/-- A user who has left is not found. -/
theorem registry_iff_loginLogout :
    Run.run step server loginLogout = some (loginLogout.foldl after server) ∧
      (loginLogout.foldl after server).getSession 7 = (loginLogout.foldl after server).expected 7 := by
  have hrun := run_of_chain loginLogout_enabled
  have htidy : Chain Tidy server loginLogout := by
    refine ⟨trivial, trivial, trivial, Finset.notMem_empty 1, ⟨fun uid hu => ?_, fun _ other ho => ?_⟩, trivial⟩
    · by_cases huid : uid = 7
      · exact ⟨huid, by decide⟩
      · have hnone : Function.update (fun _ => none) 7 (some 1) uid = (none : Option ℕ) :=
          Function.update_of_ne huid _ _
        exact absurd (hu.symm.trans hnone) (by decide)
    · exact (Option.some.inj ho).symm
  exact ⟨hrun, ((registry_iff hrun).2 (along_of_chain htidy)).2 7⟩

/-- The user is logged in on the session 2, which is open, and is not found. -/
theorem second_login_lost :
    Run.run step server secondLogin = some (secondLogin.foldl after server) ∧
      (secondLogin.foldl after server).getSession 7 = none ∧
      (secondLogin.foldl after server).expected 7 = some 2 := by
  exact ⟨run_of_chain secondLogin_enabled, by decide, by decide⟩

/-! ## The count of logins -/

/-- The sessions that are connected and logged in. -/
def online (s : ChatServer) : Finset ℕ := s.loggedIn \ s.closed

/-- What `get_chatserver` compares is the number of them. -/
def Counted (s : ChatServer) : Prop := conCount s.redis s.name = s.online.card

/-- A login is on a session that is open and has none; a session that closes is
closed already or has none. -/
def Steady (s : ChatServer) : Op → Prop
  | .login session _ => session ∉ s.loggedIn ∧ session ∉ s.closed
  | .close session => session ∈ s.closed ∨ session ∉ s.loggedIn
  | _ => True

/-- Redis has a count for the server. -/
def HasCount (s : ChatServer) : Prop := s.redis.hget LOGINCOUNT s.name ≠ ""

theorem loginCount_eq {s : ChatServer} (h : s.HasCount) : s.loginCount = conCount s.redis s.name := by
  unfold loginCount conCount
  rw [if_neg h, if_neg h]

theorem conCount_hset (r : Redis) (name : String) (n : ℤ) :
    conCount (r.hset LOGINCOUNT name (toString n)) name = n := by
  unfold conCount
  rw [Redis.hget_hset, if_neg (toString_ne_empty n), stoi_toString]

theorem start_hasCount (name : String) (redis : Redis) : (start name redis).HasCount := by
  unfold HasCount start
  rw [Redis.hget_hset]
  decide

theorem start_counted (name : String) (redis : Redis) : (start name redis).Counted := conCount_hset redis name 0

theorem clearSession_redis (s : ChatServer) (session : ℕ) :
    (s.clearSession session).redis = s.redis ∧ (s.clearSession session).name = s.name ∧
      (s.clearSession session).loggedIn = s.loggedIn := by
  unfold clearSession rmUserSession
  split <;> exact ⟨rfl, rfl, rfl⟩

theorem step_hasCount {s s' : ChatServer} {op : Op} (h : s.HasCount) (hs : s.step op = some s') : s'.HasCount := by
  obtain ⟨-, rfl⟩ := step_cases hs
  cases op with
  | restart => exact start_hasCount _ _
  | accept session userId => exact h
  | insert session => exact h
  | login session uid =>
    unfold HasCount
    simp only [after, loginHandler, Redis.hget_set, Redis.hget_hset]
    exact toString_ne_empty _
  | setUserSession session uid => exact h
  | close session =>
    obtain ⟨hredis, hname, -⟩ := clearSession_redis s session
    unfold HasCount
    simp only [after, hredis, hname]
    exact h

/-- A login adds one to the count, and to the sessions online if it is the
first on an open session. -/
theorem counted_login {s : ChatServer} (hcount : s.HasCount) (h : s.Counted) (session : ℕ) (uid : ℤ) :
    (s.after (.login session uid)).Counted ↔ session ∉ s.loggedIn ∧ session ∉ s.closed := by
  have hconn : conCount (s.after (.login session uid)).redis s.name = s.online.card + 1 := by
    rw [← h, ← loginCount_eq hcount]
    exact conCount_hset s.redis s.name (s.loginCount + 1)
  have honline : (s.after (.login session uid)).online = insert session s.loggedIn \ s.closed := rfl
  show conCount (s.after (.login session uid)).redis s.name = _ ↔ _
  rw [hconn, honline]
  by_cases hclosed : session ∈ s.closed
  · rw [Finset.insert_sdiff_of_mem _ hclosed]
    refine iff_of_false (fun he => ?_) fun hn => hn.2 hclosed
    have : (s.online.card : ℤ) + 1 = s.online.card := he
    omega
  rw [Finset.insert_sdiff_of_notMem _ hclosed]
  by_cases hin : session ∈ s.loggedIn
  · rw [Finset.insert_eq_of_mem (Finset.mem_sdiff.2 ⟨hin, hclosed⟩)]
    refine iff_of_false (fun he => ?_) fun hn => hn.1 hin
    have : (s.online.card : ℤ) + 1 = s.online.card := he
    omega
  · rw [Finset.card_insert_of_notMem fun hm => hin (Finset.mem_sdiff.1 hm).1]
    refine iff_of_true ?_ ⟨hin, hclosed⟩
    show (s.online.card : ℤ) + 1 = (s.online.card + 1 : ℕ)
    omega

/-- A close leaves the count as it is, and takes the session from those online
if it was one. -/
theorem counted_close {s : ChatServer} (h : s.Counted) (session : ℕ) :
    (s.after (.close session)).Counted ↔ session ∈ s.closed ∨ session ∉ s.loggedIn := by
  obtain ⟨hredis, hname, hlogged⟩ := clearSession_redis s session
  have honline : (s.after (.close session)).online = s.online.erase session := by
    show (s.clearSession session).loggedIn \ insert session s.closed = _
    rw [hlogged, Finset.sdiff_insert]
    rfl
  show conCount (s.clearSession session).redis (s.clearSession session).name = _ ↔ _
  rw [hredis, hname, h, honline]
  by_cases hm : session ∈ s.online
  · obtain ⟨hin, hclosed⟩ := Finset.mem_sdiff.1 hm
    have hpos : 0 < s.online.card := Finset.card_pos.2 ⟨session, hm⟩
    rw [Finset.card_erase_of_mem hm]
    refine iff_of_false (fun he => ?_) fun hn => hn.elim hclosed fun hx => hx hin
    omega
  · rw [Finset.erase_eq_of_notMem hm]
    refine iff_of_true rfl ?_
    by_contra hno
    rw [not_or, not_not] at hno
    exact hm (Finset.mem_sdiff.2 ⟨hno.2, hno.1⟩)

theorem step_counted_iff {s s' : ChatServer} {op : Op} (hcount : s.HasCount) (h : s.Counted)
    (hs : s.step op = some s') : s'.Counted ↔ s.Steady op := by
  obtain ⟨-, rfl⟩ := step_cases hs
  cases op with
  | restart => exact iff_of_true (start_counted _ _) trivial
  | accept session userId => exact iff_of_true h trivial
  | insert session => exact iff_of_true h trivial
  | login session uid => exact counted_login hcount h session uid
  | setUserSession session uid => exact iff_of_true h trivial
  | close session => exact counted_close h session

/-- **When the count is right.** In a run from the start of the server the count
that `get_chatserver` reads is always the number of sessions that are
connected and logged in, if and only if no session that is logged in is ever
closed, and every login is the first on a session that is open. -/
theorem loginCount_iff {name : String} {redis : Redis} {ops : List Op} {s : ChatServer}
    (h : Run.run step (start name redis) ops = some s) :
    Run.Along step (fun t _ => t.Counted) (start name redis) ops ∧ s.Counted ↔
      Run.Along step Steady (start name redis) ops :=
  Run.along_iff HasCount Counted (fun _ _ _ ht hs => step_hasCount ht hs)
    (fun _ _ _ hc ht hs => step_counted_iff hc ht hs) (start_hasCount name redis) (start_counted name redis) h

theorem loginCount_iff_oneLogin :
    Run.run step server oneLogin = some (oneLogin.foldl after server) ∧ (oneLogin.foldl after server).Counted ∧
      (oneLogin.foldl after server).online = {1} := by
  have hrun := run_of_chain oneLogin_enabled
  have hsteady : Chain Steady server oneLogin :=
    ⟨trivial, trivial, ⟨Finset.notMem_empty 1, Finset.notMem_empty 1⟩, trivial, trivial⟩
  exact ⟨hrun, ((loginCount_iff hrun).2 (along_of_chain hsteady)).2, by decide⟩

/-- Nobody is online any more, and the count stays 1. -/
theorem logout_not_counted :
    Run.run step server loginLogout = some (loginLogout.foldl after server) ∧
      (loginLogout.foldl after server).online = ∅ ∧
      conCount (loginLogout.foldl after server).redis "chatserver1" = 1 := by
  refine ⟨run_of_chain loginLogout_enabled, by decide, ?_⟩
  have hcount : conCount (oneLogin.foldl after server).redis "chatserver1" = firstState.loginCount + 1 :=
    conCount_hset firstState.redis "chatserver1" (firstState.loginCount + 1)
  show conCount ((oneLogin.foldl after server).clearSession 1).redis "chatserver1" = 1
  rw [(clearSession_redis _ 1).1, hcount, firstLogin_count]
  rfl

end ChatServer

end Learncc
