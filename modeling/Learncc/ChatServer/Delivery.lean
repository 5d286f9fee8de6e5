/-
Whether a user is told the same on the server of the sender and on another
(src/chat_server/logic_system.cc, chat_service_impl.cc).

A friend request has three members more when it comes through the other
server. A grant is read there with the icon, by a function that does not say
what it returns. A message has its texts rebuilt there, each as two strings.
`notified_iff` says for each of the three when the two ways agree.
-/
import Learncc.ChatServer.Notify

namespace Learncc.Notify

open Json Command

/-! ## What reaches a session -/

inductive Kind
  | addFriend
  | authFriend
  | textChat
deriving Repr, DecidableEq

/-- What the user is told with. -/
def Kind.notifyId : Kind → MsgId
  | .addFriend => .notifyAddFriendReq
  | .authFriend => .notifyAuthFriendReq
  | .textChat => .notifyTextChatMsgReq

def Kind.handler (cfg : Config) : Kind → ℕ → Value → Chat Unit
  | .addFriend => addFriendApply cfg
  | .authFriend => authFriendApply cfg
  | .textChat => dealChatTextMsg cfg

/-- The messages with this id among those sent to a session. -/
def delivered (id : MsgId) (sid : ℕ) (out : Option (Except LogicError Unit × Cluster)) : List Value :=
  out.elim [] fun p => (p.2.sent.filter fun m => m.session = sid ∧ m.id = id).map Sent.value

/-- The user is on the server, in a session. -/
def Cluster.online (c : Cluster) (uid : ℤ) (server : String) (sid : ℕ) : Cluster :=
  { c with
    redis := c.redis.set (ipKey uid) server
    sessions := Function.update c.sessions server (Function.update (c.sessions server) uid (some sid)) }

/-- What the session `sid` is told when the request comes in. -/
def notified (cfg : Config) (kind : Kind) (session : ℕ) (root : Value) (sid : ℕ) (c : Cluster) : List Value :=
  delivered kind.notifyId sid (kind.handler cfg session root { c with sent := [] })

structure Online (c : Cluster) (uid : ℤ) (server : String) (sid : ℕ) : Prop where
  ip : c.redis.get (ipKey uid) = (true, server)
  session : c.sessions server uid = some sid
  sent : c.sent = []

variable {cfg : Config} {c d : Cluster} {id : MsgId} {sid session : ℕ} {root : Value} {uid touid : ℤ}
  {server away : String}

theorem online_online (c : Cluster) (uid : ℤ) (server : String) (sid : ℕ) :
    Online { c.online uid server sid with sent := [] } uid server sid := by
  refine ⟨?_, ?_, rfl⟩
  · simp [Cluster.online, Redis.get, Redis.set]
  · simp [Cluster.online]

theorem delivered_nothing (h : c.sent = []) (r : Except LogicError Unit) : delivered id sid (some (r, c)) = [] := by
  simp [delivered, h]

theorem delivered_send (h : c.sent = []) (value : Value) : delivered id sid (send sid id value c) = [value] := by
  simp [delivered, send, Command.modify, h]

/-- The reply to the sender is another message. -/
theorem delivered_reply {x : Chat Unit} {reply : MsgId} (h : reply ≠ id) (session : ℕ) (value : Value) :
    delivered id sid ((x >>= fun _ => send session reply value) c) = delivered id sid (x c) := by
  cases hx : x c with
  | none => rw [bind_of_none hx]
  | some p =>
    obtain ⟨r, d⟩ := p
    cases r with
    | error e => rw [bind_of_error hx]
    | ok u =>
      rw [bind_of_ok hx]
      simp [delivered, send, Command.modify, h]

theorem read_ok {α β : Type} {x : Except LogicError α} {a : α} (h : x = .ok a) (f : α → Chat β) :
    (read x >>= f) c = f a c := by
  rw [h]
  rfl

theorem read_error {α β : Type} {x : Except LogicError α} {e : LogicError} (h : x = .error e) (f : α → Chat β) :
    (read x >>= f) c = some (.error e, c) := by
  rw [h]
  rfl

theorem Online.getIp_eq (h : Online c uid server sid) : getIp uid c = some (.ok (true, server), c) := by
  unfold getIp
  rw [h.ip]

theorem Online.getSession_eq (h : Online c uid server sid) :
    getSession server uid c = some (.ok (some sid), c) := by
  unfold getSession
  rw [h.session]

theorem route_here (h : Online c touid cfg.selfName sid) (here : ℕ → Chat Unit) (away : String → Chat Unit) :
    route cfg touid here away c = here sid c := by
  unfold route
  rw [bind_of_ok h.getIp_eq]
  simp only [if_true]
  rw [bind_of_ok h.getSession_eq]

theorem route_away (h : Online c touid server sid) (hne : server ≠ cfg.selfName) (here : ℕ → Chat Unit)
    (away : String → Chat Unit) : route cfg touid here away c = away server c := by
  unfold route
  rw [bind_of_ok h.getIp_eq]
  simp only [if_true, if_neg hne]

/-- What the call of a service delivers is what the service does. -/
theorem delivered_call (hpeer : server ∈ cfg.peers) (service : String → Chat Unit) :
    delivered id sid (call cfg server service c) = delivered id sid (service server c) := by
  unfold call
  rw [if_pos hpeer]
  show delivered id sid ((service server c).bind _) = _
  cases service server c with
  | none => rfl
  | some p =>
    obtain ⟨r, d⟩ := p
    cases r <;> rfl

/-! ## A friend request -/

/-- The parts of the request that are read before anything is done. -/
structure AddFriendRead (cfg : Config) (root : Value) (uid touid : ℤ) (applyname bakname : String) : Prop where
  uid : root.intAt cfg.fp "uid" = .ok uid
  applyname : root.stringAt cfg.fp "applyname" = .ok applyname
  bakname : root.stringAt cfg.fp "bakname" = .ok bakname
  touid : root.intAt cfg.fp "touid" = .ok touid

/-- A call to the database changes nothing that is read here. -/
theorem Online.mysql (h : Online c touid server sid) (calls : List Mysql.Call) :
    Online { c with mysql := calls } touid server sid := ⟨h.ip, h.session, h.sent⟩

theorem mysql_bind {β : Type} (x : Mysql.Call) (f : Unit → Chat β) :
    (mysql x >>= f) c = f () { c with mysql := c.mysql ++ [x] } := rfl

theorem addFriend_local {applyname bakname : String} (hr : AddFriendRead cfg root uid touid applyname bakname)
    (h : Online c touid cfg.selfName sid) :
    delivered .notifyAddFriendReq sid (addFriendApply cfg session root c) =
      [.assigned [("err", .int SUCCESS), ("applyuid", .int uid), ("name", .str applyname), ("desc", .str "")]] := by
  unfold addFriendApply
  rw [read_ok hr.uid, read_ok hr.applyname, read_ok hr.bakname, read_ok hr.touid, mysql_bind,
    delivered_reply (by decide), route_here (h.mysql _)]
  exact delivered_send h.sent _

theorem getBaseInfo_eq (cfg : Config) (key : String) (uid : ℤ) (c : Cluster) :
    getBaseInfo cfg key uid c =
      match c.profiles key with
      | some root => some ((profileOf cfg root).map fun info => (true, info), c)
      | none =>
        match c.users uid with
        | none => some (.ok (false, {}), { c with mysql := c.mysql ++ [.getUser uid] })
        | some row => some (.ok (true, row.info uid), { c with
            mysql := c.mysql ++ [.getUser uid]
            profiles := Function.update c.profiles key (some (.assigned (profileMembers uid (row.info uid)))) }) := by
  unfold getBaseInfo
  rw [bind_of_ok (show getProfile key c = some (.ok (c.profiles key), c) from rfl)]
  cases c.profiles key with
  | some root =>
    dsimp only
    cases hp : profileOf cfg root with
    | ok info => rfl
    | error e => rfl
  | none =>
    dsimp only
    rw [bind_of_ok (show getUser uid c = some (.ok ((c.users uid).map (UserRow.info uid)), _) from rfl)]
    cases c.users uid with
    | none => rfl
    | some row => rfl

/-- Reading a profile leaves the sessions and what was sent as they are. -/
theorem getBaseInfo_online {key : String} {r : Except LogicError (Bool × Mysql.UserInfo)}
    (h : Online c touid server sid) (hb : getBaseInfo cfg key uid c = some (r, d)) : Online d touid server sid := by
  rw [getBaseInfo_eq] at hb
  split at hb
  · cases hb
    exact h
  · split at hb
    · cases hb
      exact h.mysql _
    · cases hb
      exact ⟨h.ip, h.session, h.sent⟩

theorem addFriend_remote (session : ℕ) {applyname bakname : String}
    (hr : AddFriendRead cfg root uid touid applyname bakname) (h : Online c touid server sid)
    (hne : server ≠ cfg.selfName) (hpeer : server ∈ cfg.peers) :
    delivered .notifyAddFriendReq sid (addFriendApply cfg session root c) = [] ∨
      ∃ request : AddFriendReq, delivered .notifyAddFriendReq sid (addFriendApply cfg session root c) =
        [.assigned [("err", .int SUCCESS), ("applyuid", .int request.applyuid), ("name", .str request.name),
          ("desc", .str request.desc), ("icon", .str request.icon), ("sex", .int request.sex),
          ("nick", .str request.nick)]] := by
  unfold addFriendApply
  rw [read_ok hr.uid, read_ok hr.applyname, read_ok hr.bakname, read_ok hr.touid, mysql_bind,
    delivered_reply (by decide), route_away (h.mysql _) hne]
  generalize hc : { c with mysql := c.mysql ++ [Mysql.Call.addFriendApply uid touid] } = c'
  have h' : Online c' touid server sid := hc ▸ h.mysql _
  cases hb : getBaseInfo cfg (baseKey uid) uid c' with
  | none =>
    rw [bind_of_none hb]
    exact .inl rfl
  | some p =>
    obtain ⟨r, d⟩ := p
    have hd : Online d touid server sid := getBaseInfo_online h' hb
    cases r with
    | error e =>
      rw [bind_of_error hb]
      exact .inl (delivered_nothing hd.sent _)
    | ok found =>
      rw [bind_of_ok hb]
      obtain ⟨found, info⟩ := found
      have hto : (addFriendReq uid touid applyname found info).touid = touid := by
        unfold addFriendReq
        split <;> rfl
      refine .inr ⟨addFriendReq uid touid applyname found info, ?_⟩
      dsimp only
      rw [delivered_call hpeer]
      unfold notifyAddFriend
      rw [hto, bind_of_ok hd.getSession_eq]
      exact delivered_send hd.sent _

theorem assigned_apply (err applyuid name desc : Value) :
    Value.assigned [("err", err), ("applyuid", applyuid), ("name", name), ("desc", desc)] =
      .obj [("applyuid", applyuid), ("desc", desc), ("err", err), ("name", name)] := by
  simp [Value.assigned, Value.insert, List.cons_lt_cons_iff]

theorem assigned_request (err applyuid name desc icon sex nick : Value) :
    Value.assigned [("err", err), ("applyuid", applyuid), ("name", name), ("desc", desc), ("icon", icon), ("sex", sex),
        ("nick", nick)] =
      .obj [("applyuid", applyuid), ("desc", desc), ("err", err), ("icon", icon), ("name", name), ("nick", nick),
        ("sex", sex)] := by
  simp [Value.assigned, Value.insert, List.cons_lt_cons_iff]

/-- A request that cannot be read is not passed on. -/
theorem addFriend_unread (h : c.sent = []) (hto : root.intAt cfg.fp "touid" = .ok touid)
    (hr : ∀ uid applyname bakname, ¬ AddFriendRead cfg root uid touid applyname bakname) :
    delivered .notifyAddFriendReq sid (addFriendApply cfg session root c) = [] := by
  unfold addFriendApply
  cases huid : root.intAt cfg.fp "uid" with
  | error e =>
    rw [read_error rfl]
    exact delivered_nothing h _
  | ok uid =>
    rw [read_ok rfl]
    cases hname : root.stringAt cfg.fp "applyname" with
    | error e =>
      rw [read_error rfl]
      exact delivered_nothing h _
    | ok applyname =>
      rw [read_ok rfl]
      cases hbak : root.stringAt cfg.fp "bakname" with
      | error e =>
        rw [read_error rfl]
        exact delivered_nothing h _
      | ok bakname => exact absurd ⟨huid, hname, hbak, hto⟩ (hr uid applyname bakname)

theorem addFriend_iff (h₁ : Online c touid cfg.selfName sid) (h₂ : Online d touid server sid)
    (hne : server ≠ cfg.selfName) (hpeer : server ∈ cfg.peers) (hto : root.intAt cfg.fp "touid" = .ok touid) :
    delivered .notifyAddFriendReq sid (addFriendApply cfg session root c) =
        delivered .notifyAddFriendReq sid (addFriendApply cfg session root d) ↔
      ∀ uid applyname bakname, ¬ AddFriendRead cfg root uid touid applyname bakname := by
  refine ⟨fun he uid applyname bakname hr => ?_, fun hr => ?_⟩
  · rw [addFriend_local hr h₁, assigned_apply] at he
    rcases addFriend_remote session hr h₂ hne hpeer with hd | ⟨request, hd⟩
    · rw [hd] at he
      cases he
    · rw [hd, assigned_request] at he
      simp at he
  · rw [addFriend_unread h₁.sent hto hr, addFriend_unread h₂.sent hto hr]

/-! ## A grant -/

theorem serviceBaseInfo_eq (key : String) (uid : ℤ) (c : Cluster) :
    serviceBaseInfo cfg key uid c =
      match c.profiles key with
      | some root =>
        match profileOf cfg root with
        | .error e => some (.error e, c)
        | .ok info =>
          match root.stringAt cfg.fp "icon" with
          | .error e => some (.error e, c)
          | .ok icon => cfg.fallsOff.map fun b => (.ok (b, { info with icon }), c)
      | none =>
        match c.users uid with
        | none => some (.ok (false, {}), { c with mysql := c.mysql ++ [.getUser uid] })
        | some row => cfg.fallsOff.map fun b => (.ok (b, row.info uid), { c with
            mysql := c.mysql ++ [.getUser uid]
            profiles := Function.update c.profiles key
              (some (.assigned (profileMembers uid (row.info uid) ++ [("icon", .str (row.info uid).icon)]))) }) := by
  unfold serviceBaseInfo
  rw [bind_of_ok (show getProfile key c = some (.ok (c.profiles key), c) from rfl)]
  cases c.profiles key with
  | some root =>
    dsimp only
    cases profileOf cfg root with
    | error e => rfl
    | ok info =>
      rw [read_ok rfl]
      cases root.stringAt cfg.fp "icon" with
      | error e => rfl
      | ok icon => rfl
  | none =>
    dsimp only
    rw [bind_of_ok (show getUser uid c = some (.ok ((c.users uid).map (UserRow.info uid)), _) from rfl)]
    cases c.users uid with
    | none => rfl
    | some row => rfl

/-- The two servers read the same about the user. -/
def SameProfile (cfg : Config) (profiles : String → Option Value) (users : ℤ → Option UserRow) (uid : ℤ) : Prop :=
  match profiles (baseKey uid) with
  | some root =>
    (∃ e, profileOf cfg root = .error e) ∨ cfg.fallsOff = some true ∧ root.stringAt cfg.fp "icon" = .ok ""
  | none => users uid = none ∨ cfg.fallsOff = some true

theorem assigned_found (uid touid : ℤ) (info : Mysql.UserInfo) :
    Value.assigned (authMembers uid touid true info) =
      .obj [("err", .int SUCCESS), ("fromuid", .int uid), ("icon", .str info.icon), ("name", .str info.name),
        ("nick", .str info.nick), ("sex", .int info.sex), ("touid", .int touid)] := by
  simp [authMembers, Value.assigned, Value.insert, List.cons_lt_cons_iff]

theorem assigned_missing (uid touid : ℤ) (info : Mysql.UserInfo) :
    Value.assigned (authMembers uid touid false info) =
      .obj [("err", .int ERRUID), ("fromuid", .int uid), ("touid", .int touid)] := by
  simp [authMembers, Value.assigned, Value.insert, List.cons_lt_cons_iff]

/-- What is announced, from what was read of the user. -/
def announced (uid touid : ℤ) : Option (Except LogicError (Bool × Mysql.UserInfo)) → List Value
  | some (.ok (found, info)) => [.assigned (authMembers uid touid found info)]
  | _ => []

theorem delivered_announced {x : Chat (Bool × Mysql.UserInfo)} (hsent : ∀ r d, x c = some (r, d) → d.sent = []) :
    delivered .notifyAuthFriendReq sid ((do
        let (found, info) ← x
        send sid .notifyAuthFriendReq (.assigned (authMembers uid touid found info)) : Chat Unit) c) =
      announced uid touid ((x c).map Prod.fst) := by
  cases hx : x c with
  | none =>
    rw [bind_of_none hx]
    rfl
  | some p =>
    obtain ⟨r, d⟩ := p
    cases r with
    | error e =>
      rw [bind_of_error hx]
      exact delivered_nothing (hsent _ _ hx) _
    | ok p =>
      rw [bind_of_ok hx]
      exact delivered_send (hsent _ _ hx) _

theorem getBaseInfo_sent {key : String} (h : c.sent = []) :
    ∀ r d, getBaseInfo cfg key uid c = some (r, d) → d.sent = [] := by
  intro r d hb
  rw [getBaseInfo_eq] at hb
  split at hb
  · cases hb
    exact h
  · split at hb
    · cases hb
      exact h
    · cases hb
      exact h

theorem serviceBaseInfo_sent {key : String} (h : c.sent = []) :
    ∀ r d, serviceBaseInfo cfg key uid c = some (r, d) → d.sent = [] := by
  intro r d hb
  rw [serviceBaseInfo_eq] at hb
  cases hf : cfg.fallsOff with
  | none =>
    rw [hf] at hb
    repeat' split at hb
    all_goals cases hb
    all_goals exact h
  | some b =>
    rw [hf] at hb
    repeat' split at hb
    all_goals cases hb
    all_goals exact h

/-- The sender's server does not read the icon. -/
theorem profileOf_icon {info : Mysql.UserInfo} (h : profileOf cfg root = .ok info) : info.icon = "" := by
  simp only [profileOf, bind, Except.bind, pure, Except.pure] at h
  repeat' split at h
  all_goals cases h
  rfl

theorem announced_found (uid touid : ℤ) (b : Bool) (info info' : Mysql.UserInfo) :
    announced uid touid (some (.ok (true, info))) = announced uid touid (some (.ok (b, info'))) ↔
      b = true ∧ info.icon = info'.icon ∧ info.name = info'.name ∧ info.nick = info'.nick ∧ info.sex = info'.sex := by
  cases b with
  | true => simp [announced, assigned_found]
  | false => simp [announced, assigned_found, assigned_missing]

/-- The grant announced on the sender's server and on the other, from the same
profiles. -/
theorem announced_iff (hprofiles : c.profiles = d.profiles) (husers : c.users = d.users) :
    announced uid touid ((getBaseInfo cfg (baseKey uid) uid c).map Prod.fst) =
        announced uid touid ((serviceBaseInfo cfg (baseKey uid) uid d).map Prod.fst) ↔
      SameProfile cfg d.profiles d.users uid := by
  unfold SameProfile
  rw [getBaseInfo_eq, serviceBaseInfo_eq, hprofiles, husers]
  cases d.profiles (baseKey uid) with
  | some root =>
    dsimp only
    cases hp : profileOf cfg root with
    | error e => exact iff_of_true rfl (.inl ⟨e, rfl⟩)
    | ok info =>
      dsimp only
      cases root.stringAt cfg.fp "icon" with
      | error e => simp [announced, Except.map]
      | ok icon =>
        cases cfg.fallsOff with
        | none => simp [announced, Except.map]
        | some b =>
          refine (announced_found uid touid b info { info with icon }).trans ?_
          simp [profileOf_icon hp, eq_comm]
  | none =>
    dsimp only
    cases d.users uid with
    | none => simp [announced]
    | some row =>
      cases cfg.fallsOff with
      | none => simp [announced]
      | some b =>
        refine (announced_found uid touid b (row.info uid) (row.info uid)).trans ?_
        simp

structure AuthFriendRead (cfg : Config) (root : Value) (uid touid : ℤ) (backName : String) : Prop where
  uid : root.intAt cfg.fp "fromuid" = .ok uid
  touid : root.intAt cfg.fp "touid" = .ok touid
  backName : root.stringAt cfg.fp "back" = .ok backName

theorem authFriend_local {backName : String} {c' : Cluster} {p : Bool × Mysql.UserInfo}
    (hr : AuthFriendRead cfg root uid touid backName)
    (hb : getBaseInfo cfg (baseKey touid) touid c = some (.ok p, c')) (h : Online c' touid cfg.selfName sid) :
    delivered .notifyAuthFriendReq sid (authFriendApply cfg session root c) =
      announced uid touid ((getBaseInfo cfg (baseKey uid) uid
        { c' with mysql := c'.mysql ++ [.authFriendApply uid touid] ++ [.addFriend uid touid backName] }).map
          Prod.fst) := by
  unfold authFriendApply
  rw [read_ok hr.uid, read_ok hr.touid, read_ok hr.backName, bind_of_ok hb]
  dsimp only
  rw [mysql_bind, mysql_bind, delivered_reply (by decide), route_here (h.mysql _)]
  exact delivered_announced (getBaseInfo_sent h.sent)

theorem authFriend_remote {backName : String} {c' : Cluster} {p : Bool × Mysql.UserInfo}
    (hr : AuthFriendRead cfg root uid touid backName)
    (hb : getBaseInfo cfg (baseKey touid) touid c = some (.ok p, c')) (h : Online c' touid server sid)
    (hne : server ≠ cfg.selfName) (hpeer : server ∈ cfg.peers) :
    delivered .notifyAuthFriendReq sid (authFriendApply cfg session root c) =
      announced uid touid ((serviceBaseInfo cfg (baseKey uid) uid
        { c' with mysql := c'.mysql ++ [.authFriendApply uid touid] ++ [.addFriend uid touid backName] }).map
          Prod.fst) := by
  unfold authFriendApply
  rw [read_ok hr.uid, read_ok hr.touid, read_ok hr.backName, bind_of_ok hb]
  dsimp only
  rw [mysql_bind, mysql_bind, delivered_reply (by decide), route_away (h.mysql _) hne, delivered_call hpeer]
  unfold notifyAuthFriend
  rw [bind_of_ok (h.mysql _).getSession_eq]
  exact delivered_announced (serviceBaseInfo_sent h.sent)

theorem authFriend_unread (h : c.sent = []) (hto : root.intAt cfg.fp "touid" = .ok touid)
    (hr : ∀ uid backName, ¬ AuthFriendRead cfg root uid touid backName) :
    delivered .notifyAuthFriendReq sid (authFriendApply cfg session root c) = [] := by
  unfold authFriendApply
  cases huid : root.intAt cfg.fp "fromuid" with
  | error e =>
    rw [read_error rfl]
    exact delivered_nothing h _
  | ok uid =>
    rw [read_ok rfl, read_ok hto]
    cases hback : root.stringAt cfg.fp "back" with
    | error e =>
      rw [read_error rfl]
      exact delivered_nothing h _
    | ok backName => exact absurd ⟨huid, hto, hback⟩ (hr uid backName)

/-- The handler reads the profile of the user it will tell, and that fails. -/
theorem authFriend_fails {backName : String} {e : LogicError} (h : c.sent = [])
    (hr : AuthFriendRead cfg root uid touid backName)
    (hb : getBaseInfo cfg (baseKey touid) touid c = some (.error e, c)) :
    delivered .notifyAuthFriendReq sid (authFriendApply cfg session root c) = [] := by
  unfold authFriendApply
  rw [read_ok hr.uid, read_ok hr.touid, read_ok hr.backName, bind_of_error hb]
  exact delivered_nothing h _

/-- The user has a profile in redis that cannot be read. -/
def Unreadable (cfg : Config) (profiles : String → Option Value) (uid : ℤ) : Prop :=
  ∃ root e, profiles (baseKey uid) = some root ∧ profileOf cfg root = .error e

theorem baseKey_inj {a b : ℤ} : baseKey a = baseKey b ↔ a = b := by
  unfold baseKey
  rw [String.append_right_inj]
  exact Int.repr_inj

/-- What a server writes about a user is read back, and has no icon. -/
theorem profileOf_written (cfg : Config) (hrange : -(2 ^ 31) ≤ uid ∧ uid < 2 ^ 31) (row : UserRow) :
    profileOf cfg (.assigned (profileMembers uid (row.info uid))) = .ok (row.info uid) ∧
      (Value.assigned (profileMembers uid (row.info uid))).stringAt cfg.fp "icon" = .ok "" := by
  have hmembers : Value.assigned (profileMembers uid (row.info uid)) =
      .obj [("desc", .str ""), ("email", .str row.email), ("name", .str row.name), ("nick", .str ""),
        ("pwd", .str row.pwd), ("sex", .int 0), ("uid", .int uid)] := by
    simp [profileMembers, UserRow.info, Value.assigned, Value.insert, List.cons_lt_cons_iff]
  rw [hmembers]
  refine ⟨?_, rfl⟩
  have huid : Value.intAt cfg.fp "uid" (.obj [("desc", .str ""), ("email", .str row.email), ("name", .str row.name),
      ("nick", .str ""), ("pwd", .str row.pwd), ("sex", .int 0), ("uid", .int uid)]) = .ok uid := if_pos hrange
  unfold profileOf
  rw [huid]
  rfl

/-- The profiles after the server has read that of a user. -/
def learned (profiles : String → Option Value) (users : ℤ → Option UserRow) (uid : ℤ) : String → Option Value :=
  match profiles (baseKey uid), users uid with
  | none, some row =>
    Function.update profiles (baseKey uid) (some (.assigned (profileMembers uid (row.info uid))))
  | _, _ => profiles

/-- What it has learned does not matter for what the servers read later. -/
theorem sameProfile_learned {profiles : String → Option Value} {users : ℤ → Option UserRow}
    (hrange : -(2 ^ 31) ≤ touid ∧ touid < 2 ^ 31) :
    SameProfile cfg (learned profiles users touid) users uid ↔ SameProfile cfg profiles users uid := by
  unfold learned
  split
  · rename_i row hnone hrow
    by_cases hu : uid = touid
    · subst hu
      obtain ⟨hread, hicon⟩ := profileOf_written cfg hrange row
      simp [SameProfile, Function.update_self, hread, hicon, hnone, hrow]
    · have hkey : baseKey uid ≠ baseKey touid := fun he => hu (baseKey_inj.1 he)
      unfold SameProfile
      rw [Function.update_of_ne hkey]
  · rfl

/-- The handler's first step, on either server. -/
theorem getBaseInfo_learned (who : ℤ) (h : Online c touid server sid)
    (hread : ¬ Unreadable cfg c.profiles who) :
    ∃ p c', getBaseInfo cfg (baseKey who) who c = some (.ok p, c') ∧ Online c' touid server sid ∧
      c'.profiles = learned c.profiles c.users who ∧ c'.users = c.users := by
  have heq := getBaseInfo_eq cfg (baseKey who) who c
  unfold learned
  cases hp : c.profiles (baseKey who) with
  | some root =>
    cases hinfo : profileOf cfg root with
    | error e => exact absurd ⟨root, e, hp, hinfo⟩ hread
    | ok info =>
      rw [hp] at heq
      dsimp only at heq
      rw [hinfo] at heq
      exact ⟨(true, info), c, heq, h, rfl, rfl⟩
  | none =>
    rw [hp] at heq
    cases hu : c.users who with
    | none =>
      rw [hu] at heq
      exact ⟨_, _, heq, h.mysql _, rfl, rfl⟩
    | some row =>
      rw [hu] at heq
      exact ⟨_, _, heq, ⟨h.ip, h.session, h.sent⟩, rfl, rfl⟩

theorem authFriend_iff (h₁ : Online c touid cfg.selfName sid) (h₂ : Online d touid server sid)
    (hne : server ≠ cfg.selfName) (hpeer : server ∈ cfg.peers) (hto : root.intAt cfg.fp "touid" = .ok touid)
    (hprofiles : c.profiles = d.profiles) (husers : c.users = d.users) :
    delivered .notifyAuthFriendReq sid (authFriendApply cfg session root c) =
        delivered .notifyAuthFriendReq sid (authFriendApply cfg session root d) ↔
      ∀ uid backName, AuthFriendRead cfg root uid touid backName →
        Unreadable cfg d.profiles touid ∨ SameProfile cfg d.profiles d.users uid := by
  by_cases hr : ∃ uid backName, AuthFriendRead cfg root uid touid backName
  · obtain ⟨uid, backName, hr⟩ := hr
    have hone : (∀ u b, AuthFriendRead cfg root u touid b →
        Unreadable cfg d.profiles touid ∨ SameProfile cfg d.profiles d.users u) ↔
        (Unreadable cfg d.profiles touid ∨ SameProfile cfg d.profiles d.users uid) := by
      refine ⟨fun hall => hall uid backName hr, fun hx u b hu => ?_⟩
      cases hr.uid.symm.trans hu.uid
      exact hx
    rw [hone]
    by_cases hread : Unreadable cfg d.profiles touid
    · obtain ⟨profile, e, hp, he⟩ := hread
      have hfails : ∀ {c' : Cluster}, c'.profiles (baseKey touid) = some profile →
          getBaseInfo cfg (baseKey touid) touid c' = some (.error e, c') := by
        intro c' hp'
        rw [getBaseInfo_eq, hp']
        dsimp only
        rw [he]
        rfl
      rw [authFriend_fails h₁.sent hr (hfails (hprofiles ▸ hp)), authFriend_fails h₂.sent hr (hfails hp)]
      exact iff_of_true rfl (.inl ⟨profile, e, hp, he⟩)
    · obtain ⟨p₁, c', hb₁, ho₁, hc₁, hu₁⟩ := getBaseInfo_learned touid h₁ (hprofiles ▸ hread)
      obtain ⟨p₂, d', hb₂, ho₂, hc₂, hu₂⟩ := getBaseInfo_learned touid h₂ hread
      rw [authFriend_local hr hb₁ ho₁, authFriend_remote hr hb₂ ho₂ hne hpeer]
      refine (announced_iff ?_ ?_).trans ?_
      · show c'.profiles = d'.profiles
        rw [hc₁, hc₂, hprofiles, husers]
      · show c'.users = d'.users
        rw [hu₁, hu₂, husers]
      · show SameProfile cfg d'.profiles d'.users uid ↔ _
        rw [hc₂, hu₂, sameProfile_learned (Value.intAt_range hto)]
        exact ⟨.inr, fun hx => hx.resolve_left hread⟩
  · have hnone : ∀ uid backName, ¬ AuthFriendRead cfg root uid touid backName :=
      fun uid backName hx => hr ⟨uid, backName, hx⟩
    rw [authFriend_unread h₁.sent hto hnone, authFriend_unread h₂.sent hto hnone]
    exact iff_of_true rfl fun uid backName hx => absurd hx (hnone uid backName)

/-! ## A message -/

/-- What the texts of a message are rebuilt to: each an object of two strings. -/
def textObject (msg : TextChatData) : Value := .obj [("content", .str msg.msgcontent), ("msgid", .str msg.msgid)]

/-- There are no texts, or only such objects. -/
def Plain (arrays : Value) : Prop :=
  arrays = .null ∨ ∃ textmsgs : List TextChatData, textmsgs ≠ [] ∧ arrays = .arr (textmsgs.map textObject)

theorem textElement_eq (msg : TextChatData) : textElement msg = textObject msg := by
  simp [textElement, textObject, Value.assigned, Value.insert, List.cons_lt_cons_iff]

theorem assigned_message (err textArray fromuid touid : Value) :
    Value.assigned [("err", err), ("text_array", textArray), ("fromuid", fromuid), ("touid", touid)] =
        .obj [("err", err), ("fromuid", fromuid), ("text_array", textArray), ("touid", touid)] ∧
      Value.assigned [("err", err), ("fromuid", fromuid), ("touid", touid), ("text_array", textArray)] =
        .obj [("err", err), ("fromuid", fromuid), ("text_array", textArray), ("touid", touid)] := by
  refine ⟨?_, ?_⟩
  · simp [Value.assigned, Value.insert, List.cons_lt_cons_iff]
  · simp [Value.assigned, Value.insert, List.cons_lt_cons_iff]

/-- The array the other server sends. -/
theorem rebuilt_eq (textmsgs : List TextChatData) :
    (textmsgs.map textElement).foldl (fun acc element => Value.append element acc) .null =
      if textmsgs = [] then .null else .arr (textmsgs.map textObject) := by
  rw [Value.foldl_append_null, List.map_congr_left fun msg _ => textElement_eq msg]
  simp only [List.map_eq_nil_iff]

theorem mapM_textObject (textmsgs : List TextChatData) :
    (textmsgs.map textObject).mapM (textData cfg) = .ok textmsgs := by
  induction textmsgs with
  | nil => rfl
  | cons msg textmsgs ih =>
    rw [List.map_cons, List.mapM_cons, ih]
    rfl

/-- The texts survive the detour exactly when they are plain. -/
theorem rebuilt_iff (cfg : Config) {arrays : Value} :
    (∃ textmsgs, arrays.items.mapM (textData cfg) = .ok textmsgs ∧
      arrays = if textmsgs = [] then .null else .arr (textmsgs.map textObject)) ↔ Plain arrays := by
  refine ⟨fun hx => ?_, fun hx => ?_⟩
  · obtain ⟨textmsgs, -, heq⟩ := hx
    by_cases hnil : textmsgs = []
    · rw [if_pos hnil] at heq
      exact .inl heq
    · rw [if_neg hnil] at heq
      exact .inr ⟨textmsgs, hnil, heq⟩
  · rcases hx with rfl | ⟨textmsgs, hnil, rfl⟩
    · exact ⟨[], rfl, rfl⟩
    · refine ⟨textmsgs, mapM_textObject textmsgs, ?_⟩
      rw [if_neg hnil]

structure TextRead (cfg : Config) (root : Value) (uid touid : ℤ) (arrays : Value) : Prop where
  uid : root.intAt cfg.fp "fromuid" = .ok uid
  touid : root.intAt cfg.fp "touid" = .ok touid
  arrays : root.member "text_array" = .ok arrays

theorem text_local {arrays : Value} (hr : TextRead cfg root uid touid arrays) (h : Online c touid cfg.selfName sid) :
    delivered .notifyTextChatMsgReq sid (dealChatTextMsg cfg session root c) =
      [.obj [("err", .int SUCCESS), ("fromuid", .int uid), ("text_array", arrays), ("touid", .int touid)]] := by
  unfold dealChatTextMsg
  rw [read_ok hr.uid, read_ok hr.touid, read_ok hr.arrays, delivered_reply (by decide), route_here h,
    delivered_send h.sent, (assigned_message _ _ _ _).1]

theorem text_remote {arrays : Value} (hr : TextRead cfg root uid touid arrays) (h : Online c touid server sid)
    (hne : server ≠ cfg.selfName) (hpeer : server ∈ cfg.peers) :
    delivered .notifyTextChatMsgReq sid (dealChatTextMsg cfg session root c) =
      match arrays.items.mapM (textData cfg) with
      | .error _ => []
      | .ok textmsgs => [.obj [("err", .int SUCCESS), ("fromuid", .int uid),
          ("text_array", if textmsgs = [] then .null else .arr (textmsgs.map textObject)), ("touid", .int touid)]] := by
  unfold dealChatTextMsg
  rw [read_ok hr.uid, read_ok hr.touid, read_ok hr.arrays, delivered_reply (by decide), route_away h hne]
  cases harr : arrays.items.mapM (textData cfg) with
  | error e =>
    rw [read_error rfl]
    exact delivered_nothing h.sent _
  | ok textmsgs =>
    rw [read_ok rfl, delivered_call hpeer]
    unfold notifyTextChatMsg
    rw [bind_of_ok h.getSession_eq]
    dsimp only
    rw [delivered_send h.sent, (assigned_message _ _ _ _).2, rebuilt_eq]

theorem text_unread (h : c.sent = []) (hto : root.intAt cfg.fp "touid" = .ok touid)
    (hr : ∀ uid arrays, ¬ TextRead cfg root uid touid arrays) :
    delivered .notifyTextChatMsgReq sid (dealChatTextMsg cfg session root c) = [] := by
  unfold dealChatTextMsg
  cases huid : root.intAt cfg.fp "fromuid" with
  | error e =>
    rw [read_error rfl]
    exact delivered_nothing h _
  | ok uid =>
    rw [read_ok rfl, read_ok hto]
    cases harr : root.member "text_array" with
    | error e =>
      rw [read_error rfl]
      exact delivered_nothing h _
    | ok arrays => exact absurd ⟨huid, hto, harr⟩ (hr uid arrays)

theorem text_iff (h₁ : Online c touid cfg.selfName sid) (h₂ : Online d touid server sid) (hne : server ≠ cfg.selfName)
    (hpeer : server ∈ cfg.peers) (hto : root.intAt cfg.fp "touid" = .ok touid) :
    delivered .notifyTextChatMsgReq sid (dealChatTextMsg cfg session root c) =
        delivered .notifyTextChatMsgReq sid (dealChatTextMsg cfg session root d) ↔
      ∀ uid arrays, TextRead cfg root uid touid arrays → Plain arrays := by
  by_cases hr : ∃ uid arrays, TextRead cfg root uid touid arrays
  · obtain ⟨uid, arrays, hr⟩ := hr
    have hone : (∀ u a, TextRead cfg root u touid a → Plain a) ↔ Plain arrays := by
      refine ⟨fun hall => hall uid arrays hr, fun hx u a hu => ?_⟩
      cases hr.arrays.symm.trans hu.arrays
      exact hx
    rw [hone, ← rebuilt_iff cfg, text_local hr h₁, text_remote hr h₂ hne hpeer]
    cases arrays.items.mapM (textData cfg) with
    | error e => simp
    | ok textmsgs => simp
  · have hnone : ∀ uid arrays, ¬ TextRead cfg root uid touid arrays := fun uid arrays hx => hr ⟨uid, arrays, hx⟩
    rw [text_unread h₁.sent hto hnone, text_unread h₂.sent hto hnone]
    exact iff_of_true rfl fun uid arrays hx => absurd hx (hnone uid arrays)

/-! ## Agreement -/

/-- When the two ways agree: a friend request that can be read never does; the
user behind a grant is unknown, or read the same; the texts are plain. -/
def Agrees (cfg : Config) (c : Cluster) (root : Value) (touid : ℤ) : Kind → Prop
  | .addFriend => ∀ uid applyname bakname, ¬ AddFriendRead cfg root uid touid applyname bakname
  | .authFriend => ∀ uid backName, AuthFriendRead cfg root uid touid backName →
      Unreadable cfg c.profiles touid ∨ SameProfile cfg c.profiles c.users uid
  | .textChat => ∀ uid arrays, TextRead cfg root uid touid arrays → Plain arrays

/-- **When delivery does not depend on the place.** For every request and every
state of redis and the database, the session of the user it is for is told the
same whether the session is on the sender's server or on one it has stubs for,
if and only if `Agrees`. -/
theorem notified_iff {cfg : Config} (c : Cluster) (kind : Kind) (session : ℕ) {root : Value} {touid : ℤ}
    (hto : root.intAt cfg.fp "touid" = .ok touid) {away : String} (hne : away ≠ cfg.selfName)
    (hpeer : away ∈ cfg.peers) (sid : ℕ) :
    notified cfg kind session root sid (c.online touid cfg.selfName sid) =
        notified cfg kind session root sid (c.online touid away sid) ↔
      Agrees cfg c root touid kind := by
  have h₁ := online_online c touid cfg.selfName sid
  have h₂ := online_online c touid away sid
  cases kind with
  | addFriend => exact addFriend_iff h₁ h₂ hne hpeer hto
  | authFriend => exact authFriend_iff h₁ h₂ hne hpeer hto rfl rfl
  | textChat => exact text_iff h₁ h₂ hne hpeer hto

/-- Two servers, where no double is read. -/
def twoServers : Config :=
  { selfName := "chat1", peers := ["chat2"], fallsOff := some true
    fp := { text := fun _ => "", toInt := fun _ => none, toInt_range := fun _ _ h => by cases h } }

/-- Nothing is in redis, and nobody in the database. -/
def noUsers : Cluster :=
  { redis := .empty, profiles := fun _ => none, users := fun _ => none, sessions := fun _ _ => none, sent := []
    mysql := [] }

/-- A message of one text from user 1 to user 2. -/
def oneText : Value :=
  .obj [("fromuid", .int 1), ("text_array", .arr [textObject ⟨"m1", "hello"⟩]), ("touid", .int 2)]

theorem notified_iff_oneText :
    notified twoServers .textChat 7 oneText 9 (noUsers.online 2 "chat1" 9) =
        notified twoServers .textChat 7 oneText 9 (noUsers.online 2 "chat2" 9) ∧
      notified twoServers .textChat 7 oneText 9 (noUsers.online 2 "chat1" 9) =
        [.obj [("err", .int SUCCESS), ("fromuid", .int 1), ("text_array", .arr [textObject ⟨"m1", "hello"⟩]),
          ("touid", .int 2)]] := by
  refine ⟨(notified_iff noUsers .textChat 7 rfl (by decide) (by decide) 9).2 fun uid arrays hr => ?_, ?_⟩
  · cases hr.arrays
    exact .inr ⟨[⟨"m1", "hello"⟩], by decide, rfl⟩
  · exact text_local ⟨rfl, rfl, rfl⟩ (online_online noUsers 2 "chat1" 9)

/-- The request of user 1, ann, to become a friend of user 2. -/
def annsRequest : Value :=
  .obj [("applyname", .str "ann"), ("bakname", .str ""), ("touid", .int 2), ("uid", .int 1)]

/-- On the sender's server it is passed on without icon, sex and nick. -/
theorem icon_missing :
    notified twoServers .addFriend 7 annsRequest 9 (noUsers.online 2 "chat1" 9) ≠
      notified twoServers .addFriend 7 annsRequest 9 (noUsers.online 2 "chat2" 9) := by
  intro he
  have h₁ := online_online noUsers 2 "chat1" 9
  have h₂ := online_online noUsers 2 "chat2" 9
  have hread : AddFriendRead twoServers annsRequest 1 2 "ann" "" := ⟨rfl, rfl, rfl, rfl⟩
  exact (addFriend_iff h₁ h₂ (by decide) (by decide) rfl).1 he 1 "ann" "" hread

end Learncc.Notify
