/-
Who comes to speak for a user: the requests of the gate server, the verification server
(src/verify_server/server.js), `GetChatServer` of the status server
(src/status_server/status_service_impl.cc) and the logins of the chat servers
(src/chat_server/logic_system.cc), over the user table and the redis all of them share. A step
is one call to either, of any of them, and what its caller makes of the answer.

`redis_mgr` formats its keys with `%s`: e-mails and tokens hold no NUL.

`passwords_granted`: where the passwords in the table come from. `sessions_granted`: what the
sessions of the chat servers have shown for the uid they go by.
-/
import Learncc.GateServer.Requests
import Learncc.VerifyServer.VerifyCode
import Learncc.ChatServer.OnlineUsers

namespace Learncc.Accounts

open Json GateServer
open ProfileCache (User)
open StatusService (GetChatServerRsp getChatServer tokenTest)

/-- A request that came as far as the statement that writes a password, with the code it gave.
`known`: the row was there when its email was compared, or is the request's own. -/
structure Grant where
  email : String
  name : String
  pwd : String
  code : String
  known : Bool
deriving Repr, DecidableEq

/-- A call of `GetChatServer`: whom the gate server had let in, and the token. -/
structure Issue where
  uInfo : Mysql.UserInfo
  token : String
deriving Repr, DecidableEq

/-- A login at a chat server that gave the token redis has. -/
structure Pass where
  server : ℕ
  session : ℕ
  uid : ℤ
  token : String
deriving Repr, DecidableEq

/-- What is kept of the four kinds of servers, and records: the codes the verification server
has stored, and the lists above. -/
structure System where
  redis : Redis
  pool : List (Option ℕ)
  users : List User
  calls : List VerifyServer.Call
  mailed : List (String × String)
  requests : List (Except Thrown Phase)
  chats : ℕ → ChatServer
  stored : List (String × String)
  granted : List Grant
  issued : List Issue
  passed : List Pass

/-- How the call of the status server goes: the answer may be lost. -/
inductive Outcome
  | answered
  | lost
  | unreached
deriving Repr, DecidableEq

/-- The keys of cached profiles. -/
inductive CacheKey
  | uid (uidStr : String)
  | name (username : String)

def CacheKey.key : CacheKey → String
  | .uid uidStr => ProfileCache.uidKey uidStr
  | .name username => ProfileCache.nameKey username

/-- A code is six hundred seconds old; a request is read; a request makes a call of its own, or
calls the status server, which makes a token; a chat server compares a token, or does anything
else; a profile is put in redis. -/
inductive Event
  | verify (e : VerifyServer.Event)
  | expired (email : String)
  | post (path : Path) (srcRoot : Option Value)
  | serve (i : ℕ) (comes : ℕ → Bool)
  | rpc (i : ℕ) (outcome : Outcome) (token : String)
  | test (server session : ℕ) (uid : ℤ) (token : String)
  | chat (server : ℕ) (op : ChatServer.Op)
  | cache (key : CacheKey) (value : String)

/-- What the `SET` of a call stores. -/
def newCode (calls : List VerifyServer.Call) : VerifyServer.Event → List (String × String)
  | .set i =>
    match calls[i]? with
    | some ⟨email, .set code⟩ => [(email, code)]
    | _ => []
  | _ => []

/-- The requests that write a password next. -/
def grants : Phase → List Grant
  | .regUser email name pwd _ _ code => [⟨email, name, pwd, code, true⟩]
  | .updatePwd email name pwd code known => [⟨email, name, pwd, code, known⟩]
  | _ => []

namespace System

def gate (s : System) : Gate := ⟨s.pool, s.users, s.redis.strings⟩

/-- `login_handler` goes on only from a token that was right. -/
def mayDo (s : System) (k : ℕ) : ChatServer.Op → Bool
  | .login session uid => s.passed.any fun p => p.server = k && p.session = session && p.uid = uid
  | _ => true

variable (same : String → String → Bool) (fp : Doubles) (procedure : Procedure) (servers : List ChatServerInfo)

def step (s : System) : Event → Option System
  | .verify e =>
    (VerifyServer.Server.step ⟨s.redis.strings, s.calls, s.mailed⟩ e).map fun v =>
      { s with
        redis := { s.redis with strings := v.redis }
        calls := v.calls
        mailed := v.mailed
        stored := s.stored ++ newCode s.calls e }
  | .expired email =>
    some { s with redis := { s.redis with strings := Function.update s.redis.strings (codeKey email) none } }
  | .post path srcRoot => some { s with requests := s.requests ++ [.ok (path.begin srcRoot)] }
  | .serve i comes =>
    match s.requests[i]? with
    | some (.ok phase) =>
      (phase.serve same fp procedure comes s.gate).map fun p =>
        { s with
          pool := p.2.pool
          users := p.2.users
          requests := s.requests.set i p.1
          granted := s.granted ++ grants phase }
    | _ => none
  | .rpc i outcome token =>
    match s.requests[i]? with
    | some (.ok (.getChatServer email uInfo)) =>
      if outcome = .unreached then some { s with requests := s.requests.set i (.ok (.replied (refusal ERR_RPC))) }
      else
        (getChatServer servers s.redis uInfo.uid token).map fun p =>
          { s with
            redis := p.2
            requests := s.requests.set i
              (.ok (.replied (if outcome = .answered then GateServer.loginReply email uInfo p.1 else refusal ERR_RPC)))
            issued := s.issued ++ [⟨uInfo, token⟩] }
    | _ => none
  | .test server session uid token =>
    if tokenTest s.redis uid token = .success then
      some { s with passed := s.passed ++ [⟨server, session, uid, token⟩] }
    else some s
  | .chat k op =>
    if s.mayDo k op then
      (ChatServer.step { s.chats k with redis := s.redis } op).map fun c =>
        { s with redis := c.redis, chats := Function.update s.chats k c }
    else none
  | .cache key value => some { s with redis := s.redis.set key.key value }

/-- Before anybody has asked for anything. -/
def init (users : List User) (pool : List (Option ℕ)) (names : ℕ → String) : System :=
  { redis := .empty, pool, users, calls := [], mailed := [], requests := []
    chats := fun k => .start (names k) .empty
    stored := [], granted := [], issued := [], passed := [] }

/-! ## The keys -/

theorem append_ne {p q : String} (hp : 2 ≤ p.toList.length) (hq : 2 ≤ q.toList.length)
    (h : p.toList.take 2 ≠ q.toList.take 2) (a b : String) : p ++ a ≠ q ++ b := by
  intro he
  have hlists := congrArg (fun s => s.toList.take 2) he
  simp only [String.toList_append, List.take_append_of_le_length hp, List.take_append_of_le_length hq] at hlists
  exact h hlists

theorem codeKey_inj {a b : String} : codeKey a = codeKey b ↔ a = b := String.append_right_inj _

theorem codeKey_ne_tokenKey (email : String) (uid : ℤ) : codeKey email ≠ tokenKey uid :=
  append_ne (by decide) (by decide) (by decide) _ _

theorem codeKey_ne_ipKey (email : String) (uid : ℤ) : codeKey email ≠ ipKey uid :=
  append_ne (by decide) (by decide) (by decide) _ _

theorem tokenKey_ne_ipKey (uid uid' : ℤ) : tokenKey uid ≠ ipKey uid' :=
  append_ne (by decide) (by decide) (by decide) _ _

theorem codeKey_ne_key (email : String) (key : CacheKey) : codeKey email ≠ key.key := by
  cases key with
  | uid uidStr => exact append_ne (by decide) (by decide) (by decide) _ _
  | name username => exact append_ne (by decide) (by decide) (by decide) _ _

theorem tokenKey_ne_key (uid : ℤ) (key : CacheKey) : tokenKey uid ≠ key.key := by
  cases key with
  | uid uidStr => exact append_ne (by decide) (by decide) (by decide) _ _
  | name username => exact append_ne (by decide) (by decide) (by decide) _ _

theorem strings_set_ne {r : Redis} {key key' value : String} (h : key ≠ key') :
    (r.set key' value).strings key = r.strings key := Function.update_of_ne h _ _

/-! ## What is kept -/

variable {same fp procedure servers} {users₀ : List User} {s t : System}

/-- The password of the row is one of the first, or was given in a request, for the row's name
and email, or for the name alone when nobody had it yet. -/
def Owned (same : String → String → Bool) (users₀ : List User) (granted : List Grant) (u : User) : Prop :=
  (∃ v ∈ users₀, v.uid = u.uid ∧ v.name = u.name ∧ v.email = u.email ∧ v.pwd = u.pwd) ∨
    ∃ g ∈ granted, g.pwd = u.pwd ∧ same u.name g.name = true ∧ (g.email = u.email ∨ g.known = false)

/-- Who is let in gave the email and the password a row had then, and the row is still there. -/
def Admitted (same : String → String → Bool) (users₀ : List User) (s : System) (uInfo : Mysql.UserInfo) : Prop :=
  ∃ u : User, Owned same users₀ s.granted u ∧ u.uid = uInfo.uid ∧ u.pwd = uInfo.pwd ∧
    same u.email uInfo.email = true ∧ ∃ v ∈ s.users, v.uid = u.uid ∧ v.name = u.name ∧ v.email = u.email

/-- What a request has been through. -/
def RequestOk (same : String → String → Bool) (users₀ : List User) (s : System) : Phase → Prop
  | .regUser email _ _ _ _ code => (email, code) ∈ s.stored
  | .checkEmail email _ _ code => (email, code) ∈ s.stored
  | .updatePwd email name _ code known =>
    (email, code) ∈ s.stored ∧ (known = true → ∃ u ∈ s.users, same u.name name = true ∧ u.email = email)
  | .getChatServer _ uInfo => Admitted same users₀ s uInfo
  | _ => True

/-- No two rows have one name, and every password was given by who may. -/
structure Table (same : String → String → Bool) (users₀ : List User) (granted : List Grant) (users : List User) :
    Prop where
  names : ∀ u ∈ users, ∀ v ∈ users, same u.name v.name = true → u = v
  owned : ∀ u ∈ users, Owned same users₀ granted u

/-- A login of the uid on the session had the right token. -/
def HasPassed (s : System) (k session : ℕ) (uid : ℤ) : Prop :=
  ∃ p ∈ s.passed, p.server = k ∧ p.session = session ∧ p.uid = uid

/-- The sessions that have logged in are started, and each goes by the uid of a login that
`P` is known of. -/
structure Speaks (P : ℕ → ℤ → Prop) (c : ChatServer) : Prop where
  started : c.loggedIn ⊆ c.started
  loggedIn : ∀ session ∈ c.loggedIn, P session (c.userId session)

structure Inv (same : String → String → Bool) (users₀ : List User) (s : System) : Prop where
  table : Table same users₀ s.granted s.users
  granted : ∀ g ∈ s.granted, (g.email, g.code) ∈ s.stored
  code : ∀ email code, s.redis.strings (codeKey email) = some code → (email, code) ∈ s.stored
  request : ∀ phase, .ok phase ∈ s.requests → RequestOk same users₀ s phase
  issued : ∀ i ∈ s.issued, Admitted same users₀ s i.uInfo
  token : ∀ uid token, s.redis.strings (tokenKey uid) = some token → ∃ i ∈ s.issued, i.uInfo.uid = uid ∧ i.token = token
  passed : ∀ p ∈ s.passed, ∃ i ∈ s.issued, i.uInfo.uid = p.uid ∧ i.token = p.token
  chats : ∀ k, Speaks (s.HasPassed k) (s.chats k)

/-- Rows stay, whatever password they get. -/
structure Grows (s t : System) : Prop where
  stored : s.stored ⊆ t.stored
  granted : s.granted ⊆ t.granted
  rows : ∀ u ∈ s.users, ∃ v ∈ t.users, v.uid = u.uid ∧ v.name = u.name ∧ v.email = u.email

theorem Grows.of_eq (hstored : s.stored ⊆ t.stored) (hgranted : t.granted = s.granted) (husers : t.users = s.users) :
    Grows s t :=
  ⟨hstored, hgranted ▸ List.Subset.refl _, fun u hu => ⟨u, husers ▸ hu, rfl, rfl, rfl⟩⟩

theorem Owned.mono {granted granted' : List Grant} {u : User} (h : Owned same users₀ granted u)
    (hsub : granted ⊆ granted') : Owned same users₀ granted' u := by
  rcases h with hfirst | ⟨g, hg, hgrant⟩
  · exact .inl hfirst
  · exact .inr ⟨g, hsub hg, hgrant⟩

theorem Admitted.mono {uInfo : Mysql.UserInfo} (h : Admitted same users₀ s uInfo) (hgrows : Grows s t) :
    Admitted same users₀ t uInfo := by
  obtain ⟨u, howned, huid, hpwd, hemail, v, hv, hrow⟩ := h
  obtain ⟨w, hw, hsame⟩ := hgrows.rows v hv
  refine ⟨u, howned.mono hgrows.granted, huid, hpwd, hemail, w, hw, ?_, ?_, ?_⟩
  · exact hsame.1.trans hrow.1
  · exact hsame.2.1.trans hrow.2.1
  · exact hsame.2.2.trans hrow.2.2

theorem RequestOk.mono {phase : Phase} (h : RequestOk same users₀ s phase) (hgrows : Grows s t) :
    RequestOk same users₀ t phase := by
  cases phase with
  | regUser | checkEmail => exact hgrows.stored h
  | updatePwd email name pwd code known =>
    refine ⟨hgrows.stored h.1, fun hknown => ?_⟩
    obtain ⟨u, hu, hname, hemail⟩ := h.2 hknown
    obtain ⟨v, hv, -, hvname, hvemail⟩ := hgrows.rows u hu
    exact ⟨v, hv, hvname ▸ hname, hvemail.trans hemail⟩
  | getChatServer email uInfo => exact Admitted.mono h hgrows
  | register | reset | login | replied => trivial

theorem requestOk_begin (path : Path) (srcRoot : Option Value) : RequestOk same users₀ s (path.begin srcRoot) := by
  cases srcRoot with
  | none => trivial
  | some srcRoot => cases path <;> trivial

/-! ## The steps -/

/-- What is known of the stored procedure: the row it adds is what it was given, under a name
that nobody had. -/
structure Registers (same : String → String → Bool) (procedure : Procedure) : Prop where
  row : ∀ {users : List User} {name email pwd : String} {u : User}, (procedure users name email pwd).2 = some u →
    u.name = name ∧ u.email = email ∧ u.pwd = pwd ∧ Nobody same users name

theorem init_inv {pool : List (Option ℕ)} {names : ℕ → String}
    (hnames : ∀ u ∈ users₀, ∀ v ∈ users₀, same u.name v.name = true → u = v) :
    Inv same users₀ (init users₀ pool names) where
  table := ⟨hnames, fun u hu => .inl ⟨u, hu, rfl, rfl, rfl, rfl⟩⟩
  granted g hg := by cases hg
  code email code h := by cases h
  request phase hp := by cases hp
  issued i hi := by cases hi
  token uid token h := by cases h
  passed p hp := by cases hp
  chats k := ⟨Finset.empty_subset _, fun session hs => absurd hs (Finset.notMem_empty session)⟩

/-- Neither a code nor a token is written. -/
theorem Inv.setRedis (h : Inv same users₀ s) {r : Redis}
    (hcode : ∀ email, r.strings (codeKey email) = s.redis.strings (codeKey email))
    (htoken : ∀ uid, r.strings (tokenKey uid) = s.redis.strings (tokenKey uid)) :
    Inv same users₀ { s with redis := r } where
  table := h.table
  granted := h.granted
  code email code hc := h.code email code ((hcode email).symm.trans hc)
  request := h.request
  issued := h.issued
  token uid token ht := h.token uid token ((htoken uid).symm.trans ht)
  passed := h.passed
  chats := h.chats

/-- A request goes on to something it may do. -/
theorem Inv.setRequest (h : Inv same users₀ s) {i : ℕ} {phase : Phase} (hok : RequestOk same users₀ s phase) :
    Inv same users₀ { s with requests := s.requests.set i (.ok phase) } where
  table := h.table
  granted := h.granted
  code := h.code
  request p hp := by
    rcases List.mem_or_eq_of_mem_set hp with hp | hp
    · exact h.request p hp
    · cases hp
      exact hok
  issued := h.issued
  token := h.token
  passed := h.passed
  chats := h.chats

theorem verify_cases {r : String → Option String} {calls : List VerifyServer.Call} {mailed : List (String × String)}
    {e : VerifyServer.Event} {v : VerifyServer.Server}
    (h : VerifyServer.Server.step ⟨r, calls, mailed⟩ e = some v) :
    v.redis = r ∧ newCode calls e = [] ∨
      ∃ email code, v.redis = Function.update r (codeKey email) (some code) ∧ newCode calls e = [(email, code)] := by
  cases e with
  | call email =>
    cases h
    exact .inl ⟨rfl, rfl⟩
  | get i uuid =>
    simp only [VerifyServer.Server.step] at h
    split at h
    · split at h <;> cases h <;> exact .inl ⟨rfl, rfl⟩
    · cases h
  | set i =>
    simp only [VerifyServer.Server.step] at h
    split at h
    · rename_i email code hcall
      cases h
      refine .inr ⟨email, code, rfl, ?_⟩
      simp only [newCode, hcall]
    · cases h
  | expire i | mail i =>
    simp only [VerifyServer.Server.step] at h
    split at h
    · cases h
      exact .inl ⟨rfl, rfl⟩
    · cases h

theorem Inv.verify (h : Inv same users₀ s) {e : VerifyServer.Event} {v : VerifyServer.Server}
    (hs : VerifyServer.Server.step ⟨s.redis.strings, s.calls, s.mailed⟩ e = some v) :
    Inv same users₀ { s with
      redis := { s.redis with strings := v.redis }
      calls := v.calls
      mailed := v.mailed
      stored := s.stored ++ newCode s.calls e } := by
  have hgrows : Grows s { s with
      redis := { s.redis with strings := v.redis }
      calls := v.calls
      mailed := v.mailed
      stored := s.stored ++ newCode s.calls e } := .of_eq (List.subset_append_left _ _) rfl rfl
  refine ⟨h.table, fun g hg => List.mem_append_left _ (h.granted g hg), fun email code hc => ?_,
    fun phase hp => (h.request phase hp).mono hgrows, fun i hi => (h.issued i hi).mono hgrows, fun uid token ht => ?_,
    h.passed, h.chats⟩
  · rcases verify_cases hs with ⟨hredis, -⟩ | ⟨email', code', hredis, hnew⟩
    · rw [hredis] at hc
      exact List.mem_append_left _ (h.code email code hc)
    · rw [hredis] at hc
      by_cases hemail : email = email'
      · subst hemail
        cases (Function.update_self (codeKey email) _ _).symm.trans hc
        exact List.mem_append_right _ (hnew ▸ List.mem_singleton_self _)
      · have hkey : codeKey email ≠ codeKey email' := fun he => hemail (codeKey_inj.1 he)
        exact List.mem_append_left _ (h.code email code ((Function.update_of_ne hkey _ _).symm.trans hc))
  · rcases verify_cases hs with ⟨hredis, -⟩ | ⟨email, code, hredis, -⟩
    · rw [hredis] at ht
      exact h.token uid token ht
    · rw [hredis] at ht
      have hkeep : Function.update s.redis.strings (codeKey email) (some code) (tokenKey uid) =
          s.redis.strings (tokenKey uid) := Function.update_of_ne (codeKey_ne_tokenKey email uid).symm _ _
      exact h.token uid token (hkeep.symm.trans ht)

theorem Inv.expired (h : Inv same users₀ s) (email : String) :
    Inv same users₀
      { s with redis := { s.redis with strings := Function.update s.redis.strings (codeKey email) none } } := by
  refine ⟨h.table, h.granted, fun email' code hc => ?_, h.request, h.issued, fun uid token ht => ?_, h.passed,
    h.chats⟩
  · by_cases hemail : email' = email
    · subst hemail
      cases (Function.update_self (codeKey email') _ _).symm.trans hc
    · have hkey : codeKey email' ≠ codeKey email := fun he => hemail (codeKey_inj.1 he)
      exact h.code email' code ((Function.update_of_ne hkey _ _).symm.trans hc)
  · have hkeep : Function.update s.redis.strings (codeKey email) none (tokenKey uid) = s.redis.strings (tokenKey uid) :=
      Function.update_of_ne (codeKey_ne_tokenKey email uid).symm _ _
    exact h.token uid token (hkeep.symm.trans ht)

theorem Inv.post (h : Inv same users₀ s) (path : Path) (srcRoot : Option Value) :
    Inv same users₀ { s with requests := s.requests ++ [.ok (path.begin srcRoot)] } where
  table := h.table
  granted := h.granted
  code := h.code
  request p hp := by
    rcases List.mem_append.1 hp with hp | hp
    · exact h.request p hp
    · cases List.mem_singleton.1 hp
      exact requestOk_begin path srcRoot
  issued := h.issued
  token := h.token
  passed := h.passed
  chats := h.chats

/-- What a call of a request leads to is something the request may do. -/
theorem Inv.next (h : Inv same users₀ s) {phase p : Phase} (hok : RequestOk same users₀ s phase)
    (hnext : Next same s.gate phase p) : RequestOk same users₀ s p := by
  cases hnext with
  | replied => trivial
  | regUser _ name pwd confirm icon hcode => exact h.code _ _ hcode
  | checkEmail _ name pwd hcode => exact h.code _ _ hcode
  | updatePwd pwd code hnobody hknown => exact ⟨hok, hknown⟩
  | getChatServer _ hu hemail => exact ⟨_, h.table.owned _ hu, rfl, rfl, hemail, _, hu, rfl, rfl, rfl⟩

theorem Table.mono {granted granted' : List Grant} {users : List User} (h : Table same users₀ granted users)
    (hsub : granted ⊆ granted') : Table same users₀ granted' users :=
  ⟨h.names, fun u hu => (h.owned u hu).mono hsub⟩

/-- A row comes, with a name of its own. -/
theorem Table.add (hsame : Equivalence fun a b => same a b = true) {granted : List Grant} {users : List User} {u : User}
    (h : Table same users₀ granted users) (hno : Nobody same users u.name) (hu : Owned same users₀ granted u) :
    Table same users₀ granted (users ++ [u]) := by
  refine ⟨fun v hv w hw hvw => ?_, fun v hv => ?_⟩
  · rcases List.mem_append.1 hv with hv | hv <;> rcases List.mem_append.1 hw with hw | hw
    · exact h.names v hv w hw hvw
    · rw [List.mem_singleton.1 hw, hno v hv] at hvw
      cases hvw
    · rw [List.mem_singleton.1 hv] at hvw
      have hwu := hsame.symm hvw
      rw [hno w hw] at hwu
      cases hwu
    · rw [List.mem_singleton.1 hv, List.mem_singleton.1 hw]
  · rcases List.mem_append.1 hv with hv | hv
    · exact h.owned v hv
    · rwa [List.mem_singleton.1 hv]

theorem mem_setPwd {users : List User} {name newpwd : String} {u : User} (h : u ∈ setPwd same users name newpwd) :
    ∃ v ∈ users, u = { v with pwd := if same v.name name then newpwd else v.pwd } := by
  obtain ⟨v, hv, rfl⟩ := List.mem_map.1 h
  refine ⟨v, hv, ?_⟩
  split
  · rfl
  · rfl

/-- A password is set, and whose name it is set for was granted it. -/
theorem Table.setPwd {granted : List Grant} {users : List User} {name newpwd : String}
    (h : Table same users₀ granted users)
    (hgranted : ∀ v ∈ users, same v.name name = true → Owned same users₀ granted { v with pwd := newpwd }) :
    Table same users₀ granted (GateServer.setPwd same users name newpwd) := by
  refine ⟨fun u hu v hv huv => ?_, fun u hu => ?_⟩
  · obtain ⟨u', hu', rfl⟩ := mem_setPwd hu
    obtain ⟨v', hv', rfl⟩ := mem_setPwd hv
    rw [h.names u' hu' v' hv' huv]
  · obtain ⟨v, hv, rfl⟩ := mem_setPwd hu
    by_cases hname : same v.name name = true
    · rw [if_pos hname]
      exact hgranted v hv hname
    · rw [if_neg hname]
      exact h.owned v hv

/-- What a call of a request does to the table. -/
theorem Inv.served (hsame : Equivalence fun a b => same a b = true) (hreg : Registers same procedure)
    (h : Inv same users₀ s) {phase : Phase} {comes : ℕ → Bool} {r : Except Thrown Phase} {g : Gate}
    (hok : RequestOk same users₀ s phase) (hs : phase.serve same fp procedure comes s.gate = some (r, g)) :
    Table same users₀ (s.granted ++ grants phase) g.users ∧
      ∀ u ∈ s.users, ∃ v ∈ g.users, v.uid = u.uid ∧ v.name = u.name ∧ v.email = u.email := by
  have htable := h.table.mono (List.subset_append_left s.granted (grants phase))
  obtain ⟨-, -, husers | ⟨email, name, pwd, confirm, icon, code, rfl, husers⟩ |
    ⟨email, name, pwd, code, known, rfl, husers⟩⟩ := serve_cases hs
  · rw [husers]
    exact ⟨htable, fun u hu => ⟨u, hu, rfl, rfl, rfl⟩⟩
  · rw [husers]
    cases hrow : (procedure s.gate.users name email pwd).2 with
    | none =>
      rw [Option.toList_none, List.append_nil]
      exact ⟨htable, fun u hu => ⟨u, hu, rfl, rfl, rfl⟩⟩
    | some u =>
      obtain ⟨rfl, rfl, rfl, hno⟩ := hreg.row hrow
      have hgrant : Owned same users₀ (s.granted ++ grants (.regUser u.email u.name u.pwd confirm icon code)) u :=
        .inr ⟨_, List.mem_append_right _ (List.mem_singleton_self _), rfl, hsame.refl _, .inl rfl⟩
      exact ⟨htable.add hsame hno hgrant, fun v hv => ⟨v, List.mem_append_left _ hv, rfl, rfl, rfl⟩⟩
  · rw [husers]
    refine ⟨htable.setPwd fun v hv hname => ?_, fun u hu => ⟨_, List.mem_map_of_mem hu, ?_⟩⟩
    · refine .inr ⟨_, List.mem_append_right _ (List.mem_singleton_self _), rfl, hname, ?_⟩
      cases known with
      | false => exact .inr rfl
      | true =>
        -- The row that was found has the email, and the name is that of no other row.
        obtain ⟨u, hu, huname, huemail⟩ := hok.2 rfl
        have huv : u = v := h.table.names u hu v hv (hsame.trans huname (hsame.symm hname))
        exact .inl (huv ▸ huemail.symm)
    · split
      · exact ⟨rfl, rfl, rfl⟩
      · exact ⟨rfl, rfl, rfl⟩

theorem mem_grants {phase : Phase} {g : Grant} (hok : RequestOk same users₀ s phase) (hg : g ∈ grants phase) :
    (g.email, g.code) ∈ s.stored := by
  cases phase with
  | regUser =>
    cases List.mem_singleton.1 hg
    exact hok
  | updatePwd =>
    cases List.mem_singleton.1 hg
    exact hok.1
  | register | checkEmail | reset | login | getChatServer | replied => cases hg

theorem Inv.serve (hsame : Equivalence fun a b => same a b = true) (hreg : Registers same procedure)
    (h : Inv same users₀ s) {i : ℕ} {phase : Phase} {comes : ℕ → Bool} {r : Except Thrown Phase} {g : Gate}
    (hi : s.requests[i]? = some (.ok phase)) (hs : phase.serve same fp procedure comes s.gate = some (r, g)) :
    Inv same users₀ { s with
      pool := g.pool
      users := g.users
      requests := s.requests.set i r
      granted := s.granted ++ grants phase } := by
  have hok := h.request phase (List.mem_of_getElem? hi)
  obtain ⟨htable, hrows⟩ := h.served hsame hreg hok hs
  have hgrows : Grows s { s with
      pool := g.pool
      users := g.users
      requests := s.requests.set i r
      granted := s.granted ++ grants phase } := ⟨List.Subset.refl _, List.subset_append_left _ _, hrows⟩
  refine ⟨htable, fun g hg => ?_, h.code, fun p hp => ?_, fun i hi => (h.issued i hi).mono hgrows, h.token, h.passed,
    h.chats⟩
  · rcases List.mem_append.1 hg with hg | hg
    · exact h.granted g hg
    · exact mem_grants (s := s) hok hg
  · rcases List.mem_or_eq_of_mem_set hp with hp | hp
    · exact (h.request p hp).mono hgrows
    · obtain ⟨-, hgoes, -⟩ := serve_cases hs
      exact (h.next hok (hgoes p hp.symm)).mono hgrows

theorem getChatServer_redis {r r' : Redis} {uid : ℤ} {token : String} {rsp : GetChatServerRsp}
    (h : getChatServer servers r uid token = some (rsp, r')) : r' = r.set (tokenKey uid) token := by
  obtain ⟨server, -, h⟩ := Option.bind_eq_some_iff.1 h
  cases h
  rfl

/-- The status server issues a token. -/
theorem Inv.issue (h : Inv same users₀ s) {uInfo : Mysql.UserInfo} (token : String)
    (hadmitted : Admitted same users₀ s uInfo) :
    Inv same users₀ { s with
      redis := s.redis.set (tokenKey uInfo.uid) token
      issued := s.issued ++ [⟨uInfo, token⟩] } := by
  have hgrows : Grows s { s with
      redis := s.redis.set (tokenKey uInfo.uid) token
      issued := s.issued ++ [⟨uInfo, token⟩] } := .of_eq (List.Subset.refl _) rfl rfl
  refine ⟨h.table, h.granted, fun email code hc => ?_, fun phase hp => (h.request phase hp).mono hgrows,
    fun i hi => ?_, fun uid token' ht => ?_, fun p hp => ?_, h.chats⟩
  · exact h.code email code ((strings_set_ne (codeKey_ne_tokenKey email uInfo.uid)).symm.trans hc)
  · rcases List.mem_append.1 hi with hi | hi
    · exact (h.issued i hi).mono hgrows
    · rw [List.mem_singleton.1 hi]
      exact hadmitted.mono hgrows
  · by_cases huid : uid = uInfo.uid
    · subst huid
      cases (Function.update_self (tokenKey uInfo.uid) _ _).symm.trans ht
      exact ⟨_, List.mem_append_right _ (List.mem_singleton_self _), rfl, rfl⟩
    · have hkey : tokenKey uid ≠ tokenKey uInfo.uid := fun he => huid (tokenKey_inj.1 he)
      obtain ⟨i, hi, hissue⟩ := h.token uid token' ((strings_set_ne hkey).symm.trans ht)
      exact ⟨i, List.mem_append_left _ hi, hissue⟩
  · obtain ⟨i, hi, hissue⟩ := h.passed p hp
    exact ⟨i, List.mem_append_left _ hi, hissue⟩

/-- The token of a login is the one that was issued. -/
theorem Inv.test (h : Inv same users₀ s) {server session : ℕ} {uid : ℤ} {token : String}
    (htest : tokenTest s.redis uid token = .success) :
    Inv same users₀ { s with passed := s.passed ++ [⟨server, session, uid, token⟩] } := by
  refine ⟨h.table, h.granted, h.code, h.request, h.issued, h.token, fun p hp => ?_,
    fun k => ⟨(h.chats k).started, fun session hs => ?_⟩⟩
  · rcases List.mem_append.1 hp with hp | hp
    · exact h.passed p hp
    · rw [List.mem_singleton.1 hp]
      exact h.token uid token (StatusService.tokenTest_success.1 htest)
  · obtain ⟨p, hp, hpass⟩ := (h.chats k).loggedIn session hs
    exact ⟨p, List.mem_append_left _ hp, hpass⟩

/-- A chat server writes no key but those of its users' servers. -/
theorem chat_strings {c : ChatServer} (op : ChatServer.Op) :
    (c.after op).redis.strings = c.redis.strings ∨
      ∃ uid value, (c.after op).redis.strings = Function.update c.redis.strings (ipKey uid) (some value) := by
  cases op with
  | restart | accept | insert | setUserSession => exact .inl rfl
  | login session uid => exact .inr ⟨uid, c.name, rfl⟩
  | close session =>
    refine .inl ?_
    show (c.clearSession session).redis.strings = _
    unfold ChatServer.clearSession
    split
    · rfl
    · rfl

theorem Speaks.after {P : ℕ → ℤ → Prop} {c : ChatServer} {op : ChatServer.Op} (h : Speaks P c) (he : c.Enabled op)
    (hlogin : ∀ session uid, op = .login session uid → P session uid) : Speaks P (c.after op) := by
  cases op with
  | restart => exact ⟨Finset.empty_subset _, fun session hs => absurd hs (Finset.notMem_empty session)⟩
  | accept session userId =>
    refine ⟨h.started.trans (Finset.subset_insert _ _), fun other hs => ?_⟩
    have hne : other ≠ session := fun heq => he.1 (heq ▸ h.started hs)
    have hkeep : (c.after (.accept session userId)).userId other = c.userId other := Function.update_of_ne hne _ _
    rw [hkeep]
    exact h.loggedIn other hs
  | insert session => exact ⟨h.started, h.loggedIn⟩
  | setUserSession session uid => exact ⟨h.started, h.loggedIn⟩
  | login session uid =>
    refine ⟨Finset.insert_subset he.1 h.started, fun other hs => ?_⟩
    by_cases heq : other = session
    · subst heq
      have hself : (c.after (.login other uid)).userId other = uid := Function.update_self _ _ _
      rw [hself]
      exact hlogin other uid rfl
    · have hkeep : (c.after (.login session uid)).userId other = c.userId other := Function.update_of_ne heq _ _
      rw [hkeep]
      exact h.loggedIn other ((Finset.mem_insert.1 hs).resolve_left heq)
  | close session =>
    have hsame : (c.clearSession session).started = c.started ∧ (c.clearSession session).loggedIn = c.loggedIn ∧
        (c.clearSession session).userId = c.userId := by
      unfold ChatServer.clearSession
      split
      · exact ⟨rfl, rfl, rfl⟩
      · exact ⟨rfl, rfl, rfl⟩
    obtain ⟨hstarted, hloggedIn, huserId⟩ := hsame
    refine ⟨?_, fun other hs => ?_⟩
    · show (c.clearSession session).loggedIn ⊆ (c.clearSession session).started
      rw [hstarted, hloggedIn]
      exact h.started
    · have hs' : other ∈ (c.clearSession session).loggedIn := hs
      rw [hloggedIn] at hs'
      show P other ((c.clearSession session).userId other)
      rw [huserId]
      exact h.loggedIn other hs'

theorem Inv.chat (h : Inv same users₀ s) {k : ℕ} {op : ChatServer.Op} {c : ChatServer} (hmay : s.mayDo k op = true)
    (hs : ChatServer.step { s.chats k with redis := s.redis } op = some c) :
    Inv same users₀ { s with redis := c.redis, chats := Function.update s.chats k c } := by
  obtain ⟨he, rfl⟩ := ChatServer.step_cases hs
  have hkeys : ∀ key, (∀ uid, key ≠ ipKey uid) →
      (ChatServer.after { s.chats k with redis := s.redis } op).redis.strings key = s.redis.strings key := by
    intro key hkey
    rcases chat_strings (c := { s.chats k with redis := s.redis }) op with hsame | ⟨uid, value, hset⟩
    · rw [hsame]
    · rw [hset]
      exact Function.update_of_ne (hkey uid) _ _
  have hredis := h.setRedis (fun email => hkeys _ (codeKey_ne_ipKey email)) (fun uid => hkeys _ (tokenKey_ne_ipKey uid))
  refine ⟨h.table, h.granted, hredis.code, h.request, h.issued, hredis.token, h.passed, fun k' => ?_⟩
  by_cases hk : k' = k
  · subst hk
    dsimp only
    rw [Function.update_self]
    have hspeaks : Speaks (s.HasPassed k') { s.chats k' with redis := s.redis } :=
      ⟨(h.chats k').started, (h.chats k').loggedIn⟩
    refine hspeaks.after he fun session uid hop => ?_
    subst hop
    obtain ⟨p, hp, hpass⟩ := List.any_eq_true.1 hmay
    simp only [Bool.and_eq_true, decide_eq_true_eq] at hpass
    exact ⟨p, hp, hpass.1.1, hpass.1.2, hpass.2⟩
  · dsimp only
    rw [Function.update_of_ne hk]
    exact h.chats k'

theorem step_inv (hsame : Equivalence fun a b => same a b = true) (hreg : Registers same procedure) {e : Event}
    (h : Inv same users₀ s) (hs : s.step same fp procedure servers e = some t) : Inv same users₀ t := by
  cases e with
  | verify e =>
    obtain ⟨v, hv, rfl⟩ := Option.map_eq_some_iff.1 hs
    exact h.verify hv
  | expired email =>
    cases hs
    exact h.expired email
  | post path srcRoot =>
    cases hs
    exact h.post path srcRoot
  | serve i comes =>
    simp only [step] at hs
    split at hs
    · rename_i phase hi
      obtain ⟨⟨r, g⟩, hg, rfl⟩ := Option.map_eq_some_iff.1 hs
      exact h.serve hsame hreg hi hg
    · cases hs
  | rpc i outcome token =>
    simp only [step] at hs
    split at hs
    · rename_i email uInfo hi
      split at hs
      · cases hs
        exact h.setRequest trivial
      · obtain ⟨⟨rsp, r⟩, hr, rfl⟩ := Option.map_eq_some_iff.1 hs
        obtain rfl := getChatServer_redis hr
        have hadmitted : RequestOk same users₀ s (.getChatServer email uInfo) :=
          h.request _ (List.mem_of_getElem? hi)
        exact (h.issue token hadmitted).setRequest trivial
    · cases hs
  | test server session uid token =>
    simp only [step] at hs
    split at hs
    · rename_i htest
      cases hs
      exact h.test htest
    · cases hs
      exact h
  | chat k op =>
    simp only [step] at hs
    split at hs
    · rename_i hmay
      obtain ⟨c, hc, rfl⟩ := Option.map_eq_some_iff.1 hs
      exact h.chat hmay hc
    · cases hs
  | cache key value =>
    cases hs
    exact h.setRedis (fun email => strings_set_ne (codeKey_ne_key email key))
      (fun uid => strings_set_ne (tokenKey_ne_key uid key))

/-! ## Names that somebody has -/

/-- Only names that somebody has are checked. -/
def Claimed (same : String → String → Bool) (s : System) : Event → Prop
  | .serve i _ => ∀ email name pwd code, s.requests[i]? = some (.ok (.checkEmail email name pwd code)) →
      ¬ Nobody same s.users name
  | _ => True

/-- Every email that was compared was compared to one of the table. -/
structure Known (s : System) : Prop where
  request : ∀ email name pwd code known, .ok (.updatePwd email name pwd code known) ∈ s.requests → known = true
  granted : ∀ g ∈ s.granted, g.known = true

theorem Known.of_requests (h : Known s) (hgranted : t.granted = s.granted)
    (hrequests : ∀ email name pwd code known, .ok (.updatePwd email name pwd code known) ∈ t.requests →
      .ok (.updatePwd email name pwd code known) ∈ s.requests) : Known t :=
  ⟨fun email name pwd code known hp => h.request email name pwd code known (hrequests _ _ _ _ _ hp),
    fun g hg => h.granted g (hgranted ▸ hg)⟩

theorem Known.serve (h : Known s) {i : ℕ} {phase : Phase} {comes : ℕ → Bool} {r : Except Thrown Phase} {g : Gate}
    (hi : s.requests[i]? = some (.ok phase)) (hclaimed : Claimed same s (.serve i comes))
    (hs : phase.serve same fp procedure comes s.gate = some (r, g)) :
    Known { s with
      pool := g.pool
      users := g.users
      requests := s.requests.set i r
      granted := s.granted ++ grants phase } := by
  refine ⟨fun email name pwd code known hp => ?_, fun g hg => ?_⟩
  · rcases List.mem_or_eq_of_mem_set hp with hp | hp
    · exact h.request email name pwd code known hp
    · obtain ⟨-, hgoes, -⟩ := serve_cases hs
      cases hgoes _ hp.symm with
      | updatePwd _ _ hnobody hknown =>
        cases known with
        | true => rfl
        | false => exact absurd (hnobody rfl) (hclaimed _ _ _ _ hi)
  · rcases List.mem_append.1 hg with hg | hg
    · exact h.granted g hg
    · cases phase with
      | regUser =>
        cases List.mem_singleton.1 hg
        rfl
      | updatePwd email name pwd code known =>
        cases List.mem_singleton.1 hg
        exact h.request email name pwd code known (List.mem_of_getElem? hi)
      | register | checkEmail | reset | login | getChatServer | replied => cases hg

theorem step_known {e : Event} (h : Known s) (hclaimed : Claimed same s e)
    (hs : s.step same fp procedure servers e = some t) : Known t := by
  cases e with
  | verify e =>
    obtain ⟨v, -, rfl⟩ := Option.map_eq_some_iff.1 hs
    exact h.of_requests rfl fun _ _ _ _ _ hp => hp
  | expired email | cache key value =>
    cases hs
    exact h.of_requests rfl fun _ _ _ _ _ hp => hp
  | post path srcRoot =>
    cases hs
    refine h.of_requests rfl fun email name pwd code known hp => ?_
    rcases List.mem_append.1 hp with hp | hp
    · exact hp
    · have hbegin := List.mem_singleton.1 hp
      cases srcRoot with
      | none => cases hbegin
      | some srcRoot => cases path <;> cases hbegin
  | serve i comes =>
    simp only [step] at hs
    split at hs
    · rename_i phase hi
      obtain ⟨⟨r, g⟩, hg, rfl⟩ := Option.map_eq_some_iff.1 hs
      exact h.serve hi hclaimed hg
    · cases hs
  | rpc i outcome token =>
    have hreplied : ∀ {t : System} {root : Value}, t.granted = s.granted →
        t.requests = s.requests.set i (.ok (.replied root)) → Known t := by
      intro t root hgranted hrequests
      refine h.of_requests hgranted fun email name pwd code known hp => ?_
      rw [hrequests] at hp
      rcases List.mem_or_eq_of_mem_set hp with hp | hp
      · exact hp
      · cases hp
    simp only [step] at hs
    split at hs
    · split at hs
      · cases hs
        exact hreplied rfl rfl
      · obtain ⟨p, -, rfl⟩ := Option.map_eq_some_iff.1 hs
        exact hreplied rfl rfl
    · cases hs
  | test server session uid token =>
    simp only [step] at hs
    split at hs <;> cases hs <;> exact h.of_requests rfl fun _ _ _ _ _ hp => hp
  | chat k op =>
    simp only [step] at hs
    split at hs
    · obtain ⟨c, -, rfl⟩ := Option.map_eq_some_iff.1 hs
      exact h.of_requests rfl fun _ _ _ _ _ hp => hp
    · cases hs

/-! ## Runs -/

section Runs

variable {pool : List (Option ℕ)} {names : ℕ → String} {events : List Event}

theorem run_inv (hsame : Equivalence fun a b => same a b = true) (hreg : Registers same procedure)
    (hnames : ∀ u ∈ users₀, ∀ v ∈ users₀, same u.name v.name = true → u = v)
    (h : Run.run (step same fp procedure servers) (init users₀ pool names) events = some s) : Inv same users₀ s :=
  Run.run_invariant (Inv same users₀) (fun _ _ _ hi hs => step_inv hsame hreg hi hs) (init_inv hnames) h

/-- **Where the passwords come from.** In every run each password in the table is one of the
first, or was given in a request with a code that the verification server had stored for the
email of the request, and with the row's name. The email is the row's, or else nobody had the
name when it was checked; and where only names that somebody has are checked, it is the row's. -/
theorem passwords_granted (hsame : Equivalence fun a b => same a b = true) (hreg : Registers same procedure)
    (hnames : ∀ u ∈ users₀, ∀ v ∈ users₀, same u.name v.name = true → u = v)
    (h : Run.run (step same fp procedure servers) (init users₀ pool names) events = some s) :
    (∀ u ∈ s.users, (∃ v ∈ users₀, v.uid = u.uid ∧ v.name = u.name ∧ v.email = u.email ∧ v.pwd = u.pwd) ∨
      ∃ g ∈ s.granted, g.pwd = u.pwd ∧ same u.name g.name = true ∧ (g.email, g.code) ∈ s.stored ∧
        (g.email = u.email ∨ g.known = false)) ∧
      (Run.Along (step same fp procedure servers) (Claimed same) (init users₀ pool names) events →
        ∀ g ∈ s.granted, g.known = true) := by
  have hinv := run_inv hsame hreg hnames h
  refine ⟨fun u hu => ?_, fun hclaimed => ?_⟩
  · rcases hinv.table.owned u hu with hfirst | ⟨g, hg, hpwd, hname, hemail⟩
    · exact .inl hfirst
    · exact .inr ⟨g, hg, hpwd, hname, hinv.granted g hg, hemail⟩
  · have hinit : Known (init users₀ pool names) := ⟨fun _ _ _ _ _ hp => (by cases hp), fun g hg => by cases hg⟩
    exact (Run.run_along_invariant Known (fun _ _ _ hi hc hs => step_known hi hc hs) hinit hclaimed h).granted

theorem beq_equivalence : Equivalence fun a b : String => (a == b) = true := by
  refine ⟨fun a => beq_self_eq_true a, fun h => ?_, fun h h' => ?_⟩
  · rw [beq_iff_eq] at h ⊢
    exact h.symm
  · rw [beq_iff_eq] at h h' ⊢
    exact h.trans h'

theorem sex_unset : -(2 ^ 31) ≤ (0 : ℤ) ∧ (0 : ℤ) < 2 ^ 31 := by decide

/-- A procedure that refuses a name that somebody has. -/
def addUser : Procedure := fun users name email pwd =>
  if users.any fun u => u.name == name then (0, none)
  else
    let uid : ℤ := users.length % 1000 + 1
    (uid, some { uid, name, email, pwd, nick := "", desc := "", sex := 0
                 uid_int := by omega
                 sex_int := sex_unset })

theorem addUser_registers : Registers (· == ·) addUser where
  row {users name email pwd u} h := by
    unfold addUser at h
    split at h
    · cases h
    · rename_i hany
      cases h
      refine ⟨rfl, rfl, rfl, fun v hv => ?_⟩
      simp only [List.any_eq_true, not_exists, not_and, Bool.not_eq_true] at hany
      exact hany v hv

/-- A code is asked for and sent. -/
def letter (i : ℕ) (email uuid : String) : List Event :=
  [.verify (.call email), .verify (.get i uuid), .verify (.set i), .verify (.expire i), .verify (.mail i)]

def comes : ℕ → Bool := fun _ => true

/-- A request for a new password for "eve". -/
def reset : Value :=
  .obj [("email", .str "mallory@m"), ("pwd", .str "mine"), ("user", .str "eve"), ("verify_code", .str "1234")]

def registration : Value :=
  .obj [("confirm", .str "hers"), ("email", .str "eve@e"), ("icon", .str ""), ("pwd", .str "hers"),
    ("user", .str "eve"), ("verifycode", .str "5678")]

def credentials : Value :=
  .obj [("email", .str "eve@e"), ("pwd", .str "mine")]

/-- The password of "eve" is to be reset when she registers, and it is after that: who asked
for it logs in as her. -/
def takeover : List Event :=
  List.flatten [letter 0 "mallory@m" "1234-",
    [.post .resetPwd (some reset), .serve 0 comes, .serve 0 comes],
    letter 1 "eve@e" "5678-",
    [.post .userRegister (some registration), .serve 1 comes, .serve 1 comes, .serve 0 comes],
    [.post .userLogin (some credentials), .serve 2 comes, .rpc 2 .answered "5f3a", .chat 0 (.accept 4 0),
      .chat 0 (.insert 4), .test 0 4 1 "5f3a", .chat 0 (.login 4 1)]]

/-- The servers before anybody has registered. -/
def empty : System := init [] [some 0, some 1] fun _ => "chatserver1"

theorem takeover_runs : ∃ s, Run.run (step (· == ·) noDoubles addUser StatusService.oneServer) empty takeover = some s ∧
    s.users.map (fun u => (u.email, u.pwd)) = [("eve@e", "mine")] ∧ 4 ∈ (s.chats 0).loggedIn := by
  have heval : (Run.run (step (· == ·) noDoubles addUser StatusService.oneServer) empty takeover).map
      (fun s => (s.users.map (fun u => (u.email, u.pwd)), decide (4 ∈ (s.chats 0).loggedIn))) =
        some ([("eve@e", "mine")], true) := by decide +kernel
  obtain ⟨s, hs, hall⟩ := Option.map_eq_some_iff.1 heval
  obtain ⟨husers, hloggedIn⟩ := Prod.mk.inj hall
  exact ⟨s, hs, husers, of_decide_eq_true hloggedIn⟩

theorem passwords_granted_takeover :
    ∃ s, Run.run (step (· == ·) noDoubles addUser StatusService.oneServer) empty takeover = some s ∧
      s.users.map (fun u => (u.email, u.pwd)) = [("eve@e", "mine")] ∧
      ∀ u ∈ s.users, (∃ v ∈ ([] : List User), v.uid = u.uid ∧ v.name = u.name ∧ v.email = u.email ∧ v.pwd = u.pwd) ∨
        ∃ g ∈ s.granted, g.pwd = u.pwd ∧ (u.name == g.name) = true ∧ (g.email, g.code) ∈ s.stored ∧
          (g.email = u.email ∨ g.known = false) := by
  obtain ⟨s, hs, husers, -⟩ := takeover_runs
  exact ⟨s, hs, husers, (passwords_granted beq_equivalence addUser_registers (fun u hu => by cases hu) hs).1⟩

/-- **What a session has shown.** In every run a session that has logged in at a chat server
goes by the uid of a row, and it gave the token that the status server had made for a request
with the row's email and the password the row had then, which had come there as said above. -/
theorem sessions_granted (hsame : Equivalence fun a b => same a b = true) (hreg : Registers same procedure)
    (hnames : ∀ u ∈ users₀, ∀ v ∈ users₀, same u.name v.name = true → u = v)
    (h : Run.run (step same fp procedure servers) (init users₀ pool names) events = some s) (k : ℕ) :
    ∀ session ∈ (s.chats k).loggedIn, ∃ i ∈ s.issued, i.uInfo.uid = (s.chats k).userId session ∧
      ⟨k, session, i.uInfo.uid, i.token⟩ ∈ s.passed ∧ Admitted same users₀ s i.uInfo := by
  intro session hs
  have hinv := run_inv hsame hreg hnames h
  obtain ⟨⟨server, session', uid, token⟩, hp, rfl, rfl, huid⟩ := (hinv.chats k).loggedIn session hs
  obtain ⟨i, hi, hissue, htoken⟩ := hinv.passed _ hp
  dsimp only at hissue htoken huid
  subst hissue
  subst htoken
  exact ⟨i, hi, huid, hp, hinv.issued i hi⟩

theorem sessions_granted_takeover :
    ∃ s, Run.run (step (· == ·) noDoubles addUser StatusService.oneServer) empty takeover = some s ∧
      4 ∈ (s.chats 0).loggedIn ∧ ∃ i ∈ s.issued, i.uInfo.uid = (s.chats 0).userId 4 ∧
        ⟨0, 4, i.uInfo.uid, i.token⟩ ∈ s.passed ∧ Admitted (· == ·) [] s i.uInfo := by
  obtain ⟨s, hs, -, hmem⟩ := takeover_runs
  exact ⟨s, hs, hmem, sessions_granted beq_equivalence addUser_registers (fun u hu => by cases hu) hs 0 4 hmem⟩

end Runs

end System

end Learncc.Accounts
