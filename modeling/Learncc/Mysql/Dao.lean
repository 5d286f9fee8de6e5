/-
The methods of `mysql_dao` (src/chat_server/mysql_dao.cc). `reg_user`,
`check_email`, `update_pwd` and `check_pwd` are the same in src/gateserver and
src/status_server.

Three of them return the connection by hand at each exit, the others through a
`Defer`. `executeUpdate` answers with a count, which is never negative: where
the source tests `rowAffected < 0`, that branch is never taken. A run is a sequence of calls and of passes of `check_connection`;
`results` is a record of it.
-/
import Learncc.Lib.Run
import Learncc.Mysql.Pool

namespace Learncc.Mysql

structure UserInfo where
  name : String := ""
  pwd : String := ""
  uid : ℤ := 0
  email : String := ""
  nick : String := ""
  desc : String := ""
  icon : String := ""
  sex : ℤ := 0
  back : String := ""
deriving Repr, DecidableEq

structure ApplyInfo where
  uid : ℤ
  name : String
  desc : String
  icon : String
  nick : String
  sex : ℤ
  status : ℤ
deriving Repr, DecidableEq

/-! ## Connections returned by hand -/

def regUser (name email pwd : String) : Dao ℤ := method <| withConn 0 <|
  tryCatch
    (do
      prepareStatement "CALL reg_user(?,?,?,@result)"
      setString 1 name
      setString 2 email
      setString 3 pwd
      let _ ← executeUpdate (.regUser name email pwd)
      createStatement
      let rows ← executeQuery
      if ← next rows then
        let result ← getInt "result"
        returnConn
        return result
      else
        returnConn
        return -1)
    fun _ => do
      returnConn
      return -1

/-- The query of `check_email`, up to whether there is a row. -/
def emailRow (name : String) : Dao Bool := do
  prepareStatement "SELECT email FROM user WHERE name = ?"
  setString 1 name
  let rows ← executeQuery
  next rows

/-- The body of its `while`, which never comes to a second row. -/
def compareEmail (email : String) : Dao Bool := do
  let _ ← getString "email"
  let found ← getString "email"
  returnConn
  return email == found

/-- Without a row the method ends and does not return the connection. -/
def checkEmail (name email : String) : Dao Bool := method <| withConn false <|
  tryCatch (do if ← emailRow name then compareEmail email else return true)
    fun _ => do
      returnConn
      return false

def updatePwd (name newpwd : String) : Dao Bool := method <| withConn false <|
  tryCatch
    (do
      prepareStatement "UPDATE user SET pwd = ? WHERE name = ?"
      setString 2 name
      setString 1 newpwd
      let _ ← executeUpdate (.updatePwd name newpwd)
      returnConn
      return true)
    fun _ => do
      returnConn
      return false

/-! ## Connections returned by a guard -/

/-- The rest of most methods: the guard, and the same answer to any
exception. -/
def guarded {α : Type} (ifNull ifThrown : α) (block : Dao α) : Dao α :=
  method <| withConn ifNull <| deferReturn <| tryCatch block fun _ => return ifThrown

/-- A column where there is no row. -/
def column {α : Type} (row : Bool) (get : Dao α) : Dao α := if row then get else throw ⟨⟩

/-- The password in the row, if there is one. -/
def rowPwd (row : Bool) : Dao String := if row then getString "pwd" else return ""

def checkPwd (email pwd : String) : Dao (Option UserInfo) := guarded none none do
  prepareStatement "SELECT * FROM user WHERE email = ?"
  setString 1 email
  let rows ← executeQuery
  let row ← next rows
  let originPwd ← rowPwd row
  if pwd ≠ originPwd then return none
  else
    let name ← column row (getString "name")
    let uid ← column row (getInt "uid")
    return some { name, email, uid, pwd := originPwd }

/-- The guard is inside the `try`. -/
def testProcedure (email : String) : Dao (Option (ℤ × String)) := method <| withConn none <|
  tryCatch
    (deferReturn do
      prepareStatement "CALL test_procedure(?,@userId,@userName)"
      setString 1 email
      let _ ← executeUpdate (.testProcedure email)
      createStatement
      let rows ← executeQuery
      if ← next rows then
        let uid ← getInt "uid"
        createStatement
        let rows ← executeQuery
        if ← next rows then
          let name ← getString "name"
          return some (uid, name)
        else return none
      else return none)
    fun _ => return none

def getUser (uid : ℤ) : Dao (Option UserInfo) := guarded none none do
  prepareStatement "SELECT * FROM user WHERE uid = ?"
  setInt 1 uid
  let rows ← executeQuery
  if ← next rows then
    let pwd ← getString "pwd"
    let email ← getString "email"
    let name ← getString "name"
    return some { pwd, email, name, uid }
  else return none

def getUserByName (name : String) : Dao (Option UserInfo) := guarded none none do
  prepareStatement "SELECT * FROM user WHERE name = ?"
  setString 1 name
  let rows ← executeQuery
  if ← next rows then
    let pwd ← getString "pwd"
    let email ← getString "email"
    let name ← getString "name"
    let nick ← getString "nick"
    let desc ← getString "desc"
    let sex ← getInt "sex"
    let uid ← getInt "uid"
    return some { pwd, email, name, nick, desc, sex, uid }
  else return none

/-- The answer is from_uid and to_uid the other way round. -/
def authFriendApply (fromUid toUid : ℤ) : Dao Bool := guarded false false do
  prepareStatement "UPDATE friend_apply SET status = 1 WHERE from_uid = ? AND to_uid = ?"
  setInt 1 toUid
  setInt 2 fromUid
  let rowAffected ← executeUpdate (.authApply toUid fromUid)
  if (rowAffected : ℤ) < 0 then return false else return true

def addFriendApply (fromUid toUid : ℤ) : Dao Bool := guarded false false do
  prepareStatement ("INSERT INTO friend_apply (from_uid, to_uid) values (?,?) " ++
    "ON DUPLICATE KEY UPDATE from_uid = from_uid, to_uid = to_uid")
  setInt 1 fromUid
  setInt 2 toUid
  let rowAffected ← executeUpdate (.addApply fromUid toUid)
  if (rowAffected : ℤ) < 0 then return false else return true

/-- One of the two statements of `add_friend`. -/
def insertFriend (selfId friendId : ℤ) (back : String) : Dao ℕ := do
  prepareStatement "INSERT IGNORE INTO friend(self_id, friend_id, back) VALUES (?, ?, ?) "
  setInt 1 selfId
  setInt 2 friendId
  setString 3 back
  executeUpdate (.addFriend selfId friendId back)

/-- The transaction. Nothing switches `autocommit` on again. -/
def addFriendBlock (fromUid toUid : ℤ) (backName : String) : Dao Bool := do
  setAutoCommitFalse
  let rowAffected ← insertFriend fromUid toUid backName
  if (rowAffected : ℤ) < 0 then
    rollback
    return false
  else
    let rowAffected2 ← insertFriend toUid fromUid ""
    if (rowAffected2 : ℤ) < 0 then
      rollback
      return false
    else
      commit
      return true

def addFriend (fromUid toUid : ℤ) (backName : String) : Dao Bool := method <| withConn false <| deferReturn <|
  tryCatch (addFriendBlock fromUid toUid backName) fun _ => do
    rollback
    return false

/-- The rows of an answer, one by one. -/
def applyRows : ℕ → List ApplyInfo → Dao (List ApplyInfo)
  | 0, applyList => do
    let _ ← next 0
    return applyList
  | n + 1, applyList => do
    let _ ← next (n + 1)
    let name ← getString "name"
    let uid ← getInt "from_uid"
    let status ← getInt "status"
    let nick ← getString "nick"
    let sex ← getInt "sex"
    applyRows n (applyList ++ [{ uid, name, desc := "", icon := "", nick, sex, status }])

def getApplyList (touid first limit : ℤ) : Dao (Option (List ApplyInfo)) := guarded none none do
  prepareStatement ("select apply.from_uid, apply.status, user.name, user.nick, user.sex from friend_apply as apply " ++
    "join user on apply.from_uid = user.uid where apply.to_uid = ? and apply.id > ? order by apply.id ASC LIMIT ? ")
  setInt 1 touid
  setInt 2 first
  setInt 3 limit
  let rows ← executeQuery
  return some (← applyRows rows [])

/-- For each row another method runs, with a connection of its own. -/
def friendRows : ℕ → List UserInfo → Dao (List UserInfo)
  | 0, userInfoList => do
    let _ ← next 0
    return userInfoList
  | n + 1, userInfoList => do
    let _ ← next (n + 1)
    let friendId ← getInt "friend_id"
    let _ ← getString "back"
    match ← getUser friendId with
    | none => friendRows n userInfoList
    | some userInfo => friendRows n (userInfoList ++ [{ userInfo with back := userInfo.name }])

def getFriendList (selfId : ℤ) : Dao (Option (List UserInfo)) := guarded none none do
  prepareStatement "select * from friend where self_id = ? "
  setInt 1 selfId
  let rows ← executeQuery
  return some (← friendRows rows [])

/-! ## Runs -/

inductive Call
  | regUser (name email pwd : String)
  | checkEmail (name email : String)
  | updatePwd (name newpwd : String)
  | checkPwd (email pwd : String)
  | testProcedure (email : String)
  | getUser (uid : ℤ)
  | getUserByName (name : String)
  | authFriendApply (fromUid toUid : ℤ)
  | addFriend (fromUid toUid : ℤ) (backName : String)
  | addFriendApply (fromUid toUid : ℤ)
  | getApplyList (touid first limit : ℤ)
  | getFriendList (selfId : ℤ)
deriving Repr, DecidableEq

/-- A method run for its effects and the `bool` it returns; for the others the
question is whether there is a result. -/
def Call.run : Call → Dao Bool
  | .regUser name email pwd => do return 0 < (← Mysql.regUser name email pwd)
  | .checkEmail name email => Mysql.checkEmail name email
  | .updatePwd name newpwd => Mysql.updatePwd name newpwd
  | .checkPwd email pwd => do return (← Mysql.checkPwd email pwd).isSome
  | .testProcedure email => do return (← Mysql.testProcedure email).isSome
  | .getUser uid => do return (← Mysql.getUser uid).isSome
  | .getUserByName name => do return (← Mysql.getUserByName name).isSome
  | .authFriendApply fromUid toUid => Mysql.authFriendApply fromUid toUid
  | .addFriend fromUid toUid backName => Mysql.addFriend fromUid toUid backName
  | .addFriendApply fromUid toUid => Mysql.addFriendApply fromUid toUid
  | .getApplyList touid first limit => do return (← Mysql.getApplyList touid first limit).isSome
  | .getFriendList selfId => do return (← Mysql.getFriendList selfId).isSome

/-- The calls so far and how they ended are kept beside the world; a call's
number is its place among them. -/
structure State where
  world : World
  results : List (Call × Except SQLException Bool)

inductive Op
  | call (call : Call) (sql : ℕ → Option Reply) (tx : ℕ → Bool)
  | checkConnection (timestamp : ℤ) (alive : ℕ → Bool)

/-- A call begins: it has a number, and the driver's answers are to come. -/
def State.begin (s : State) (sql : ℕ → Option Reply) (tx : ℕ → Bool) : World :=
  { s.world with call := s.results.length, sql, asked := 0, tx, txAsked := 0 }

def State.step (s : State) : Op → Option State
  | .call call sql tx =>
    (call.run (s.begin sql tx)).map fun p => { world := p.2, results := s.results ++ [(call, p.1)] }
  | .checkConnection timestamp alive =>
    (Mysql.checkConnection timestamp alive s.world.pool.length s.world).map fun w => { s with world := w }

/-- The pool as it is made, of `n` connections. -/
def State.init (n : ℕ) : State :=
  { world := { pool := (List.range n).map some
               conns := fun _ => { autocommit := true, pending := [], lastOperTime := 0 }
               batches := [], con := none, call := 0, sql := fun _ => none, asked := 0
               tx := fun _ => true, txAsked := 0 }
    results := [] }

/-- A driver that answers every call, with one row. -/
def oneRow : ℕ → Option Reply := fun _ => some ⟨1, "ann"⟩

end Learncc.Mysql
