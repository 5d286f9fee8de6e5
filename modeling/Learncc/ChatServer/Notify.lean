/-
How a chat server tells a user about a friend request, a grant or a message
(src/chat_server/logic_system.cc): itself, if the user's session is its own, or
through the server that has it (chat_grpc_client.cc, chat_service_impl.cc).

A text in redis or on the wire stands for the value it is parsed to. A throw
ends the handler with nothing more sent; in a remote call it ends the call.
-/
import Learncc.ChatServer.Redis
import Learncc.Lib.Command
import Learncc.Lib.Json
import Learncc.Mysql.Dao

namespace Learncc.Notify

open Json

/-- `enum MSG_IDS`, as far as it is sent here. -/
inductive MsgId
  | addFriendRsp
  | notifyAddFriendReq
  | authFriendRsp
  | notifyAuthFriendReq
  | textChatMsgRsp
  | notifyTextChatMsgReq
deriving Repr, DecidableEq

structure Sent where
  session : ℕ
  id : MsgId
  value : Value

def SUCCESS : ℤ := 0

def ERRUID : ℤ := -11

/-- `USER_BASE_INFO + std::to_string(uid)`. -/
def baseKey (uid : ℤ) : String := "ubaseinfo_" ++ toString uid

/-- What `get_user` reads of a user. -/
structure UserRow where
  pwd : String
  email : String
  name : String
deriving Repr, DecidableEq

/-- The servers, redis and the database: the profiles under the base keys, the
users by uid, and the sessions each server has. `sent` and `mysql` are
records of what was sent and of the calls made. -/
structure Cluster where
  redis : Redis
  profiles : String → Option Value
  users : ℤ → Option UserRow
  sessions : String → ℤ → Option ℕ
  sent : List Sent
  mysql : List Mysql.Call

/-- The server's own name, and the names it has a pool of stubs for. `fallsOff`
is what the caller finds when a `bool` function ends without a `return`, which
C++ leaves open: a value, or it does not come back. -/
structure Config where
  selfName : String
  peers : List String
  fp : Doubles
  fallsOff : Option Bool

abbrev Chat (α : Type) : Type := Command Cluster LogicError α

def read {α : Type} (x : Except LogicError α) : Chat α := fun c => some (x, c)

def send (session : ℕ) (id : MsgId) (value : Value) : Chat Unit :=
  Command.modify fun c => { c with sent := c.sent ++ [⟨session, id, value⟩] }

/-- A call through `mysql_mgr` whose result is not looked at. -/
def mysql (call : Mysql.Call) : Chat Unit := Command.modify fun c => { c with mysql := c.mysql ++ [call] }

/-- What `get_user` makes of the row; the other fields are not set. -/
def UserRow.info (uid : ℤ) (row : UserRow) : Mysql.UserInfo :=
  { pwd := row.pwd, email := row.email, name := row.name, uid }

def getUser (uid : ℤ) : Chat (Option Mysql.UserInfo) := fun c =>
  some (.ok ((c.users uid).map (UserRow.info uid)), { c with mysql := c.mysql ++ [.getUser uid] })

def getProfile (key : String) : Chat (Option Value) := fun c => some (.ok (c.profiles key), c)

def setProfile (key : String) (value : Value) : Chat Unit :=
  Command.modify fun c => { c with profiles := Function.update c.profiles key (some value) }

/-- `redis_mgr::get` of the server a user is on. -/
def getIp (uid : ℤ) : Chat (Bool × String) := fun c => some (.ok (c.redis.get (ipKey uid)), c)

/-- `user_mgr::get_session` on a server. -/
def getSession (server : String) (uid : ℤ) : Chat (Option ℕ) := fun c => some (.ok (c.sessions server uid), c)

/-! ## Profiles -/

variable (cfg : Config)

/-- The fields of a profile both servers read. -/
def profileOf (root : Value) : Except LogicError Mysql.UserInfo := do
  let uid ← root.intAt cfg.fp "uid"
  let name ← root.stringAt cfg.fp "name"
  let pwd ← root.stringAt cfg.fp "pwd"
  let email ← root.stringAt cfg.fp "email"
  let nick ← root.stringAt cfg.fp "nick"
  let desc ← root.stringAt cfg.fp "desc"
  let sex ← root.intAt cfg.fp "sex"
  return { uid, name, pwd, email, nick, desc, sex }

/-- The fields both write. -/
def profileMembers (uid : ℤ) (info : Mysql.UserInfo) : List (String × Value) :=
  [("uid", .int uid), ("pwd", .str info.pwd), ("name", .str info.name), ("email", .str info.email),
    ("nick", .str info.nick), ("desc", .str info.desc), ("sex", .int info.sex)]

/-- `logic_system::get_base_info`: the `bool` and what `userinfo` is then. -/
def getBaseInfo (key : String) (uid : ℤ) : Chat (Bool × Mysql.UserInfo) := do
  match ← getProfile key with
  | some root =>
    let info ← read (profileOf cfg root)
    return (true, info)
  | none =>
    match ← getUser uid with
    | none => return (false, {})
    | some info =>
      setProfile key (.assigned (profileMembers uid info))
      return (true, info)

/-- The end of a function that should have returned a `bool`. -/
def fallOff (info : Mysql.UserInfo) : Chat (Bool × Mysql.UserInfo) := fun c =>
  cfg.fallsOff.map fun b => (.ok (b, info), c)

/-- `ChatServiceImpl::get_base_info`: it has the icon too, and no `return` after
the two ways to succeed. -/
def serviceBaseInfo (key : String) (uid : ℤ) : Chat (Bool × Mysql.UserInfo) := do
  match ← getProfile key with
  | some root =>
    let info ← read (profileOf cfg root)
    let icon ← read (root.stringAt cfg.fp "icon")
    fallOff cfg { info with icon }
  | none =>
    match ← getUser uid with
    | none => return (false, {})
    | some info =>
      setProfile key (.assigned (profileMembers uid info ++ [("icon", .str info.icon)]))
      fallOff cfg info

/-! ## The remote side -/

structure AddFriendReq where
  applyuid : ℤ
  touid : ℤ
  name : String
  desc : String
  icon : String := ""
  sex : ℤ := 0
  nick : String := ""
deriving Repr, DecidableEq

structure AuthFriendReq where
  fromuid : ℤ
  touid : ℤ
deriving Repr, DecidableEq

structure TextChatData where
  msgid : String
  msgcontent : String
deriving Repr, DecidableEq

structure TextChatMsgReq where
  fromuid : ℤ
  touid : ℤ
  textmsgs : List TextChatData
deriving Repr, DecidableEq

def notifyAddFriend (server : String) (request : AddFriendReq) : Chat Unit := do
  match ← getSession server request.touid with
  | none => return ()
  | some session =>
    send session .notifyAddFriendReq (.assigned
      [("err", .int SUCCESS), ("applyuid", .int request.applyuid), ("name", .str request.name),
        ("desc", .str request.desc), ("icon", .str request.icon), ("sex", .int request.sex),
        ("nick", .str request.nick)])

/-- What a grant is announced with. -/
def authMembers (fromuid touid : ℤ) (found : Bool) (info : Mysql.UserInfo) : List (String × Value) :=
  [("err", .int SUCCESS), ("fromuid", .int fromuid), ("touid", .int touid)] ++
    if found then
      [("name", .str info.name), ("nick", .str info.nick), ("icon", .str info.icon), ("sex", .int info.sex)]
    else [("err", .int ERRUID)]

def notifyAuthFriend (server : String) (request : AuthFriendReq) : Chat Unit := do
  match ← getSession server request.touid with
  | none => return ()
  | some session =>
    let (found, info) ← serviceBaseInfo cfg (baseKey request.fromuid) request.fromuid
    send session .notifyAuthFriendReq (.assigned (authMembers request.fromuid request.touid found info))

/-- The elements of `text_array`, made again from the request. -/
def textElement (msg : TextChatData) : Value :=
  .assigned [("content", .str msg.msgcontent), ("msgid", .str msg.msgid)]

def notifyTextChatMsg (server : String) (request : TextChatMsgReq) : Chat Unit := do
  match ← getSession server request.touid with
  | none => return ()
  | some session =>
    let textArray := (request.textmsgs.map textElement).foldl (fun acc element => Value.append element acc) .null
    send session .notifyTextChatMsgReq (.assigned
      [("err", .int SUCCESS), ("fromuid", .int request.fromuid), ("touid", .int request.touid),
        ("text_array", textArray)])

/-- `chat_grpc_client`: a call of a service of the server, if there is a pool of
stubs for it. The reply is not looked at. -/
def call (server : String) (service : String → Chat Unit) : Chat Unit :=
  if server ∈ cfg.peers then tryCatch (service server) fun _ => return () else return ()

/-! ## The handlers -/

/-- Where the user is: on this server, on another, or on none. -/
def route (touid : ℤ) (here : ℕ → Chat Unit) (away : String → Chat Unit) : Chat Unit := do
  let (found, server) ← getIp touid
  if found then
    if server = cfg.selfName then
      match ← getSession cfg.selfName touid with
      | some session => here session
      | none => return ()
    else away server
  else return ()

/-- The request sent to the other server. -/
def addFriendReq (uid touid : ℤ) (applyname : String) (found : Bool) (info : Mysql.UserInfo) : AddFriendReq :=
  if found then { applyuid := uid, touid, name := applyname, desc := "", icon := info.icon, sex := info.sex,
                  nick := info.nick }
  else { applyuid := uid, touid, name := applyname, desc := "" }

def addFriendApply (session : ℕ) (root : Value) : Chat Unit := do
  let uid ← read (root.intAt cfg.fp "uid")
  let applyname ← read (root.stringAt cfg.fp "applyname")
  let _ ← read (root.stringAt cfg.fp "bakname")
  let touid ← read (root.intAt cfg.fp "touid")
  mysql (.addFriendApply uid touid)
  route cfg touid
    (fun target => send target .notifyAddFriendReq (.assigned
      [("err", .int SUCCESS), ("applyuid", .int uid), ("name", .str applyname), ("desc", .str "")]))
    (fun server => do
      let (found, info) ← getBaseInfo cfg (baseKey uid) uid
      call cfg server fun server => notifyAddFriend server (addFriendReq uid touid applyname found info))
  send session .addFriendRsp (.assigned [("err", .int SUCCESS)])

/-- What the user who granted is answered. -/
def authReply (touid : ℤ) (found : Bool) (info : Mysql.UserInfo) : List (String × Value) :=
  ("err", .int SUCCESS) ::
    if found then
      [("name", .str info.name), ("nick", .str info.nick), ("icon", .str info.icon), ("sex", .int info.sex),
        ("uid", .int touid)]
    else [("err", .int ERRUID)]

def authFriendApply (session : ℕ) (root : Value) : Chat Unit := do
  let uid ← read (root.intAt cfg.fp "fromuid")
  let touid ← read (root.intAt cfg.fp "touid")
  let backName ← read (root.stringAt cfg.fp "back")
  let (found, info) ← getBaseInfo cfg (baseKey touid) touid
  mysql (.authFriendApply uid touid)
  mysql (.addFriend uid touid backName)
  route cfg touid
    (fun target => do
      let (found, info) ← getBaseInfo cfg (baseKey uid) uid
      send target .notifyAuthFriendReq (.assigned (authMembers uid touid found info)))
    (fun server => call cfg server fun server => notifyAuthFriend cfg server { fromuid := uid, touid })
  send session .authFriendRsp (.assigned (authReply touid found info))

/-- One element of `text_array`, for the request. -/
def textData (txtObj : Value) : Except LogicError TextChatData := do
  let content ← txtObj.stringAt cfg.fp "content"
  let msgid ← txtObj.stringAt cfg.fp "msgid"
  return { msgid, msgcontent := content }

def dealChatTextMsg (session : ℕ) (root : Value) : Chat Unit := do
  let uid ← read (root.intAt cfg.fp "fromuid")
  let touid ← read (root.intAt cfg.fp "touid")
  let arrays ← read (root.member "text_array")
  let rtvalue : Value := .assigned
    [("err", .int SUCCESS), ("text_array", arrays), ("fromuid", .int uid), ("touid", .int touid)]
  route cfg touid (fun target => send target .notifyTextChatMsgReq rtvalue)
    (fun server => do
      let textmsgs ← read (arrays.items.mapM (textData cfg))
      call cfg server fun server => notifyTextChatMsg server { fromuid := uid, touid, textmsgs })
  send session .textChatMsgRsp rtvalue

end Learncc.Notify
