/-
The requests of the gate server (src/gateserver/logic_system.cc) call by call: what
`/user_register`, `/reset_pwd` and `/user_login` do from one of their calls, to redis, to the
database or to the status server, to the next. What the stored procedure `reg_user` does to the
table is a parameter.

`serveAlone_reset`: when nothing comes between its calls, a request to `/reset_pwd` is `resetPwd`.
-/
import Learncc.GateServer.ResetPwd
import Learncc.StatusServer.StatusService

namespace Learncc.GateServer

open Json Command
open ProfileCache (User)

/-! ## Two more methods of the DAO over the table -/

/-- `CALL reg_user(name, email, pwd, @result)`: the result, and the row that is added. -/
abbrev Procedure : Type := List User → String → String → String → ℤ × Option User

/-- A method of the DAO with an answer to each call of the driver. -/
def daoBy {α : Type} (procedure : Procedure) (method : Mysql.Dao α) (answer : List User → ℕ → Mysql.Reply)
    (comes : ℕ → Bool) : Handler α := fun g =>
  let sql := fun i => if comes i then some (answer g.users i) else none
  (method { g.world ⟨0, ""⟩ comes with sql }).map fun p =>
    (p.1.mapError .sql,
      { g with
        pool := p.2.pool
        users := (p.2.batches.flatten.map Mysql.Entry.write).foldl (fun users write =>
          match write with
          | .regUser name email pwd => users ++ (procedure users name email pwd).2.toList
          | _ => users) g.users })

/-- `SELECT @result` has one row. -/
def regAnswers (result : ℤ) (i : ℕ) : Mysql.Reply := if i = 8 then ⟨result, ""⟩ else ⟨1, ""⟩

def regUser (procedure : Procedure) (comes : ℕ → Bool) (name email pwd : String) : Handler ℤ :=
  daoBy procedure (Mysql.regUser name email pwd) (fun users => regAnswers (procedure users name email pwd).1) comes

variable (same : String → String → Bool)

/-- `WHERE email = ?`. -/
def withEmail (users : List User) (email : String) : List User := users.filter fun u => same u.email email

/-- The rows of the query in `check_pwd`, and what is read of the first. -/
def pwdAnswers (email : String) (users : List User) (i : ℕ) : Mysql.Reply :=
  let rows := withEmail same users email
  { num := if i = 6 then (rows.head?.map User.uid).getD 0 else rows.length
    text := (rows.head?.map fun u => if i = 4 then u.pwd else u.name).getD "" }

def checkPwd (procedure : Procedure) (comes : ℕ → Bool) (email pwd : String) : Handler (Option Mysql.UserInfo) :=
  daoBy procedure (Mysql.checkPwd email pwd) (pwdAnswers same email) comes

/-! ## The requests -/

def ERR_RPC : ℤ := -2

def ERR_VER_EXPIRED : ℤ := -3

def ERR_EXIST : ℤ := -5

def ERR_PWD_INVAILD : ℤ := -9

/-- The handlers that change the table or let a user in. -/
inductive Path
  | userRegister
  | resetPwd
  | userLogin
deriving Repr, DecidableEq

/-- What a request is about to do. `known` is a record: the check found a row with the name. -/
inductive Phase
  | register (srcRoot : Value)
  | regUser (email name pwd confirm icon verifyCode : String)
  | reset (srcRoot : Value)
  | checkEmail (email name pwd verifyCode : String)
  | updatePwd (email name pwd verifyCode : String) (known : Bool)
  | login (srcRoot : Value)
  | getChatServer (email : String) (uInfo : Mysql.UserInfo)
  | replied (root : Value)

/-- The body was read. -/
def Path.begin (path : Path) : Option Value → Phase
  | none => .replied (refusal ERR_JSON)
  | some srcRoot =>
    match path with
    | .userRegister => .register srcRoot
    | .resetPwd => .reset srcRoot
    | .userLogin => .login srcRoot

def registerReply (uid : ℤ) (email name pwd confirm icon verifyCode : String) : Value :=
  .assigned [("err", .int 0), ("uid", .int uid), ("email", .str email), ("user", .str name), ("pwd", .str pwd),
    ("confirm", .str confirm), ("verifycode", .str verifyCode), ("icon", .str icon)]

def loginReply (email : String) (uInfo : Mysql.UserInfo) (reply : StatusService.GetChatServerRsp) : Value :=
  .assigned [("err", .int 0), ("email", .str email), ("uid", .int uInfo.uid), ("token", .str reply.token),
    ("host", .str reply.host), ("port", .str reply.port)]

/-- `/user_register` up to `reg_user`. The fields are read after the code was right. -/
def registerCode (fp : Doubles) (srcRoot : Value) : Handler Phase := do
  let email ← read (srcRoot.stringAt fp "email")
  match ← getCode (codeKey email) with
  | none => return .replied (refusal ERR_VER_EXPIRED)
  | some verifyCode =>
    let given ← read (srcRoot.stringAt fp "verifycode")
    if verifyCode ≠ given then return .replied (refusal ERR_VER_CODE)
    else
      let name ← read (srcRoot.stringAt fp "user")
      let pwd ← read (srcRoot.stringAt fp "pwd")
      let confirm ← read (srcRoot.stringAt fp "confirm")
      let icon ← read (srcRoot.stringAt fp "icon")
      return .regUser email name pwd confirm icon verifyCode

/-- `/reset_pwd` up to `check_email`. -/
def resetCode (fp : Doubles) (srcRoot : Value) : Handler Phase := do
  let email ← read (srcRoot.stringAt fp "email")
  let name ← read (srcRoot.stringAt fp "user")
  let pwd ← read (srcRoot.stringAt fp "pwd")
  match ← getCode (codeKey email) with
  | none => return .replied (refusal ERR_VER_CODE)
  | some verifyCode =>
    let given ← read (srcRoot.stringAt fp "verify_code")
    if verifyCode ≠ given then return .replied (refusal ERR_VER_CODE)
    else return .checkEmail email name pwd verifyCode

/-- Whether somebody has the name. -/
def isKnown (name : String) : Handler Bool := fun g => some (.ok !(named same g.users name).isEmpty, g)

/-- One call of a request and what the request makes of the answer. The call of the status
server is not one of the gate server's own. -/
def Phase.serve (fp : Doubles) (procedure : Procedure) (comes : ℕ → Bool) : Phase → Handler Phase
  | .register srcRoot => registerCode fp srcRoot
  | .regUser email name pwd confirm icon verifyCode => do
    let uid ← GateServer.regUser procedure comes name email pwd
    if uid = 0 ∨ uid = -1 then return .replied (refusal ERR_EXIST)
    else return .replied (registerReply uid email name pwd confirm icon verifyCode)
  | .reset srcRoot => resetCode fp srcRoot
  | .checkEmail email name pwd verifyCode => do
    let known ← isKnown same name
    let emailValid ← GateServer.checkEmail same ⟨comes, comes⟩ name email
    if !emailValid then return .replied (refusal ERR_EMAIL)
    else return .updatePwd email name pwd verifyCode known
  | .updatePwd email name pwd verifyCode _ => do
    let bUp ← GateServer.updatePwd same ⟨comes, comes⟩ name pwd
    if !bUp then return .replied (refusal ERR_PWD_UPDATE)
    else return .replied (resetReply email name pwd verifyCode)
  | .login srcRoot => do
    let email ← read (srcRoot.stringAt fp "email")
    let pwd ← read (srcRoot.stringAt fp "pwd")
    match ← checkPwd same procedure comes email pwd with
    | none => return .replied (refusal ERR_PWD_INVAILD)
    | some uInfo => return .getChatServer email uInfo
  | .getChatServer .. => fun _ => none
  | .replied _ => fun _ => none

variable {same : String → String → Bool} {fp : Doubles} {procedure : Procedure} {comes : ℕ → Bool} {driver : Driver}
  {g g' : Gate}

/-- A request with an answer has no call to make. -/
def Phase.goOn (same : String → String → Bool) (fp : Doubles) (procedure : Procedure) (comes : ℕ → Bool) :
    Phase → Handler Phase
  | .replied root => return .replied root
  | phase => phase.serve same fp procedure comes

/-- The three calls of `/reset_pwd` one after the other are the handler. -/
theorem serveAlone_reset (srcRoot : Option Value) :
    (do
      let phase ← (Path.resetPwd.begin srcRoot).goOn same fp procedure comes
      let phase ← phase.goOn same fp procedure driver.checks
      phase.goOn same fp procedure driver.updates) =
      resetPwd same fp driver srcRoot >>= fun root => return .replied root := by
  cases srcRoot with
  | none => rfl
  | some srcRoot =>
    show (resetCode fp srcRoot >>= _) = _
    unfold resetCode resetPwd
    simp only [bind_bind]
    refine congrArg _ (funext fun email => ?_)
    refine congrArg _ (funext fun name => ?_)
    refine congrArg _ (funext fun pwd => ?_)
    refine congrArg _ (funext fun code => ?_)
    cases code with
    | none => rfl
    | some verifyCode =>
      simp only [bind_bind]
      refine congrArg _ (funext fun given => ?_)
      by_cases hcode : verifyCode ≠ given
      · rw [if_pos hcode, if_pos hcode]
        rfl
      · rw [if_neg hcode, if_neg hcode]
        funext g
        let known := !(named same g.users name).isEmpty
        -- What the record is does not matter to what is called after it.
        show ((checkEmail same driver name email >>= fun emailValid =>
            (if (!emailValid) = true then return .replied (refusal ERR_EMAIL)
              else return .updatePwd email name pwd verifyCode known : Handler Phase)) >>= fun phase =>
          phase.goOn same fp procedure driver.updates) g = _
        simp only [resetVerified, bind_bind]
        refine congrFun (congrArg _ (funext fun emailValid => ?_)) g
        cases emailValid with
        | false => rfl
        | true =>
          show (updatePwd same driver name pwd >>= fun bUp =>
            (if (!bUp) = true then return .replied (refusal ERR_PWD_UPDATE)
              else return .replied (resetReply email name pwd verifyCode) : Handler Phase)) = (_ >>= _) >>= _
          rw [bind_bind]
          refine congrArg _ (funext fun bUp => ?_)
          cases bUp with
          | false => rfl
          | true => rfl

/-! ## What the two methods do -/

section Dao

open Mysql (World Reply SQLException Still Wrote Dao bind_reply_cases)

variable {w w' : World} {c : ℕ}

/-- `reg_user` after the `CALL`. -/
def regResult : Dao ℤ := do
  Mysql.createStatement
  let rows ← Mysql.executeQuery
  if ← Mysql.next rows then
    let result ← Mysql.getInt "result"
    Mysql.returnConn
    return result
  else
    Mysql.returnConn
    return -1

theorem regResult_still {r : Except SQLException ℤ} (h : regResult w = some (r, w')) : Still w w' := by
  unfold regResult at h
  rcases bind_reply_cases h with ⟨-, -, rfl⟩ | ⟨-, -, h⟩
  · exact ⟨rfl, rfl⟩
  rcases bind_reply_cases h with ⟨-, -, rfl⟩ | ⟨rows, -, h⟩
  · exact ⟨rfl, rfl⟩
  rcases bind_reply_cases h with ⟨-, -, rfl⟩ | ⟨-, -, h⟩
  · exact ⟨rfl, rfl⟩
  by_cases hrow : decide (0 < rows.num.toNat) = true
  · rw [if_pos hrow] at h
    rcases bind_reply_cases h with ⟨-, -, rfl⟩ | ⟨result, -, h⟩
    · exact ⟨rfl, rfl⟩
    · cases h
      exact ⟨rfl, rfl⟩
  · rw [if_neg hrow] at h
    cases h
    exact ⟨rfl, rfl⟩

theorem Wrote.still {write : Mysql.Write} {w v : World} (h : Wrote c write w v) (hs : Still v w') :
    Wrote c write w w' := by
  obtain ⟨hconns, hbatches⟩ := hs
  unfold Wrote at h ⊢
  rwa [hconns, hbatches]

/-- `reg_user` answers, and has made its one write or none. -/
theorem regUser_cases {name email pwd : String} {r : Except SQLException ℤ}
    (h : Mysql.regUser name email pwd w = some (r, w')) :
    (∃ n, r = .ok n) ∧ (Still w w' ∨ ∃ c, Wrote c (.regUser name email pwd) w w') := by
  rcases Mysql.withConn_cases h with ⟨pool, -, rfl, rfl⟩ | ⟨c, pool, t, -, hrest, rfl⟩
  · exact ⟨⟨0, rfl⟩, .inl ⟨rfl, rfl⟩⟩
  -- Up to the `CALL` nothing is written, and after it nothing more.
  have hblock : ∀ {q : Except SQLException ℤ} {u : World},
      (do
        Mysql.prepareStatement "CALL reg_user(?,?,?,@result)"
        Mysql.setString 1 name
        Mysql.setString 2 email
        Mysql.setString 3 pwd
        let _ ← Mysql.executeUpdate (.regUser name email pwd)
        regResult : Dao ℤ) { w with pool, con := some c } = some (q, u) →
      Still w u ∨ Wrote c (.regUser name email pwd) w u := by
    intro q u hq
    rcases bind_reply_cases hq with ⟨-, -, rfl⟩ | ⟨-, -, hq⟩
    · exact .inl ⟨rfl, rfl⟩
    rcases bind_reply_cases hq with ⟨-, -, rfl⟩ | ⟨-, -, hq⟩
    · exact .inl ⟨rfl, rfl⟩
    rcases bind_reply_cases hq with ⟨-, -, rfl⟩ | ⟨-, -, hq⟩
    · exact .inl ⟨rfl, rfl⟩
    rcases bind_reply_cases hq with ⟨-, -, rfl⟩ | ⟨-, -, hq⟩
    · exact .inl ⟨rfl, rfl⟩
    rcases bind_eq_some_iff.1 hq with ⟨n, v, hupdate, hq⟩ | ⟨e, hupdate, -⟩
    · rcases Mysql.executeUpdate_cases rfl hupdate with ⟨-, he, -⟩ | ⟨reply, -, -, rfl⟩
      · cases he
      · exact .inr (Wrote.still (Mysql.write_wrote (World.tick { w with pool, con := some c, asked := w.asked + 4 }) c
          (.regUser name email pwd)).2 (regResult_still hq))
    · rcases Mysql.executeUpdate_cases rfl hupdate with ⟨-, -, rfl⟩ | ⟨reply, -, he, -⟩
      · exact .inl ⟨rfl, rfl⟩
      · cases he
  rcases tryCatch_eq_some_iff.1 hrest with ⟨n, hn, rfl⟩ | ⟨e, u, hu, hcatch⟩
  · refine ⟨⟨n, rfl⟩, ?_⟩
    rcases hblock hn with hs | hw
    · exact .inl hs
    · exact .inr ⟨c, hw⟩
  · cases hcatch
    refine ⟨⟨-1, rfl⟩, ?_⟩
    rcases hblock hu with hs | hw
    · exact .inl hs
    · exact .inr ⟨c, hw⟩

/-- `check_pwd` writes nothing, and lets in who gives the password of the first row. -/
theorem checkPwd_cases {email pwd : String} {r : Except SQLException (Option Mysql.UserInfo)} (hasked : w.asked = 0)
    (h : Mysql.checkPwd email pwd w = some (r, w')) :
    Still w w' ∧ (r = .ok none ∨ ∃ rows origin name uid, w.sql 2 = some rows ∧ 0 < rows.num.toNat ∧
      w.sql 4 = some origin ∧ origin.text = pwd ∧ w.sql 5 = some name ∧ w.sql 6 = some uid ∧
      r = .ok (some { name := name.text, email, uid := uid.num, pwd })) := by
  rcases Mysql.withConn_cases h with ⟨pool, -, rfl, rfl⟩ | ⟨c, pool, t, -, hrest, rfl⟩
  · exact ⟨⟨rfl, rfl⟩, .inl rfl⟩
  obtain ⟨v, htry, rfl⟩ := ensure_eq_some_iff.1 hrest
  -- The block throws, lets nobody in, or has read the row.
  have hblock : ∀ {q : Except SQLException (Option Mysql.UserInfo)} {u : World},
      (do
        Mysql.prepareStatement "SELECT * FROM user WHERE email = ?"
        Mysql.setString 1 email
        let rows ← Mysql.executeQuery
        let row ← Mysql.next rows
        let originPwd ← Mysql.rowPwd row
        if pwd ≠ originPwd then return none
        else
          let name ← Mysql.column row (Mysql.getString "name")
          let uid ← Mysql.column row (Mysql.getInt "uid")
          return some { name, email, uid, pwd := originPwd } : Dao (Option Mysql.UserInfo))
        { w with pool, con := some c } = some (q, u) →
      Still w u ∧ ((∃ e, q = .error e) ∨ q = .ok none ∨ ∃ rows origin name uid, w.sql 2 = some rows ∧
        0 < rows.num.toNat ∧ w.sql 4 = some origin ∧ origin.text = pwd ∧ w.sql 5 = some name ∧ w.sql 6 = some uid ∧
        q = .ok (some { name := name.text, email, uid := uid.num, pwd })) := by
    intro q u hq
    rcases bind_reply_cases hq with ⟨-, rfl, rfl⟩ | ⟨-, -, hq⟩
    · exact ⟨⟨rfl, rfl⟩, .inl ⟨_, rfl⟩⟩
    rcases bind_reply_cases hq with ⟨-, rfl, rfl⟩ | ⟨-, -, hq⟩
    · exact ⟨⟨rfl, rfl⟩, .inl ⟨_, rfl⟩⟩
    rcases bind_reply_cases hq with ⟨-, rfl, rfl⟩ | ⟨rows, hrows, hq⟩
    · exact ⟨⟨rfl, rfl⟩, .inl ⟨_, rfl⟩⟩
    rcases bind_reply_cases hq with ⟨-, rfl, rfl⟩ | ⟨-, -, hq⟩
    · exact ⟨⟨rfl, rfl⟩, .inl ⟨_, rfl⟩⟩
    by_cases hpos : 0 < rows.num.toNat
    · rw [decide_eq_true hpos] at hq
      rcases bind_reply_cases hq with ⟨-, rfl, rfl⟩ | ⟨origin, horigin, hq⟩
      · exact ⟨⟨rfl, rfl⟩, .inl ⟨_, rfl⟩⟩
      by_cases hpwd : pwd ≠ origin.text
      · rw [if_pos hpwd] at hq
        cases hq
        exact ⟨⟨rfl, rfl⟩, .inr (.inl rfl)⟩
      rw [if_neg hpwd] at hq
      rcases bind_reply_cases hq with ⟨-, rfl, rfl⟩ | ⟨name, hname, hq⟩
      · exact ⟨⟨rfl, rfl⟩, .inl ⟨_, rfl⟩⟩
      rcases bind_reply_cases hq with ⟨-, rfl, rfl⟩ | ⟨uid, huid, hq⟩
      · exact ⟨⟨rfl, rfl⟩, .inl ⟨_, rfl⟩⟩
      cases hq
      simp only [World.tick, hasked] at hrows horigin hname huid
      obtain rfl := not_ne_iff.1 hpwd
      exact ⟨⟨rfl, rfl⟩, .inr (.inr ⟨rows, origin, name, uid, hrows, hpos, horigin, rfl, hname, huid, rfl⟩)⟩
    · rw [decide_eq_false hpos, bind_of_ok (show Mysql.rowPwd false _ = some (.ok "", _) from rfl)] at hq
      -- Without a row the empty password is right, but there is no name to read.
      by_cases hpwd : pwd ≠ ""
      · rw [if_pos hpwd] at hq
        cases hq
        exact ⟨⟨rfl, rfl⟩, .inr (.inl rfl)⟩
      · rw [if_neg hpwd] at hq
        cases hq
        exact ⟨⟨rfl, rfl⟩, .inl ⟨_, rfl⟩⟩
  rcases tryCatch_eq_some_iff.1 htry with ⟨a, ha, rfl⟩ | ⟨e, u, hu, hcatch⟩
  · obtain ⟨hstill, ⟨e, he⟩ | hcases⟩ := hblock ha
    · cases he
    · exact ⟨hstill, hcases⟩
  · cases hcatch
    exact ⟨(hblock hu).1, .inl rfl⟩

end Dao

/-- **`reg_user` over the table.** It adds the row of the procedure, or nothing. -/
theorem regUser_spec {name email pwd : String} {r : Except Thrown ℤ}
    (h : regUser procedure comes name email pwd g = some (r, g')) :
    g'.codes = g.codes ∧ (∃ n, r = .ok n) ∧
      (g'.users = g.users ∨ g'.users = g.users ++ (procedure g.users name email pwd).2.toList) := by
  obtain ⟨⟨q, w⟩, hq, hp⟩ := Option.map_eq_some_iff.1 h
  cases hp
  obtain ⟨⟨n, rfl⟩, hwrites⟩ := regUser_cases hq
  refine ⟨rfl, ⟨n, rfl⟩, ?_⟩
  rcases hwrites with ⟨-, hbatches⟩ | ⟨c, hwrote⟩
  · refine .inl ?_
    dsimp only
    rw [hbatches]
    rfl
  · rw [Mysql.Wrote, if_pos (by rfl)] at hwrote
    refine .inr ?_
    dsimp only
    rw [hwrote.2]
    rfl

/-- **`check_pwd` over the table.** It lets in as the first user with the email who gives that
user's password, and the table stays as it is. -/
theorem checkPwd_spec {email pwd : String} {r : Except Thrown (Option Mysql.UserInfo)}
    (h : checkPwd same procedure comes email pwd g = some (r, g')) :
    g'.codes = g.codes ∧ g'.users = g.users ∧ (r = .ok none ∨ ∃ u ∈ g.users, same u.email email = true ∧ u.pwd = pwd ∧
      r = .ok (some { name := u.name, email, uid := u.uid, pwd })) := by
  obtain ⟨⟨q, w⟩, hq, hp⟩ := Option.map_eq_some_iff.1 h
  cases hp
  obtain ⟨⟨-, hbatches⟩, hcases⟩ := checkPwd_cases rfl hq
  refine ⟨rfl, ?_, ?_⟩
  · dsimp only
    rw [hbatches]
    rfl
  · rcases hcases with rfl | ⟨rows, origin, name, uid, hrows, hpos, horigin, hpwd, hname, huid, rfl⟩
    · exact .inl rfl
    have hanswer : ∀ {i : ℕ} {reply : Mysql.Reply},
        (if comes i then some (pwdAnswers same email g.users i) else none) = some reply →
          reply = pwdAnswers same email g.users i := by
      intro i reply hreply
      split at hreply
      · exact (Option.some.inj hreply).symm
      · cases hreply
    obtain rfl := hanswer hrows
    obtain rfl := hanswer horigin
    obtain rfl := hanswer hname
    obtain rfl := hanswer huid
    cases hemail : withEmail same g.users email with
    | nil =>
      simp only [pwdAnswers, hemail] at hpos
      exact absurd hpos (by decide)
    | cons u rest =>
      have hu : u ∈ withEmail same g.users email := hemail ▸ List.mem_cons_self
      obtain ⟨hmem, hsame⟩ := List.mem_filter.1 hu
      refine .inr ⟨u, hmem, hsame, ?_, ?_⟩
      · rw [← hpwd, pwdAnswers, hemail]
        rfl
      · rw [pwdAnswers, pwdAnswers, hemail]
        rfl

/-! ## One call of a request -/

/-- What a request may be about to do after a call that leaves the table as it is. -/
inductive Next (same : String → String → Bool) (g : Gate) : Phase → Phase → Prop
  | replied (phase : Phase) (root : Value) : Next same g phase (.replied root)
  | regUser {email code : String} (phase : Phase) (name pwd confirm icon : String)
      (hcode : g.codes (codeKey email) = some code) : Next same g phase (.regUser email name pwd confirm icon code)
  | checkEmail {email code : String} (phase : Phase) (name pwd : String) (hcode : g.codes (codeKey email) = some code) :
      Next same g phase (.checkEmail email name pwd code)
  | updatePwd {email name : String} {known : Bool} (pwd code : String)
      (hnobody : known = false → Nobody same g.users name)
      (hknown : known = true → ∃ u ∈ g.users, same u.name name = true ∧ u.email = email) :
      Next same g (.checkEmail email name pwd code) (.updatePwd email name pwd code known)
  | getChatServer {email : String} {u : User} (phase : Phase) (hu : u ∈ g.users) (hemail : same u.email email = true) :
      Next same g phase (.getChatServer email { name := u.name, email, uid := u.uid, pwd := u.pwd })

/-- The same of a call that may throw. -/
def Goes (same : String → String → Bool) (g : Gate) (phase : Phase) (r : Except Thrown Phase) : Prop :=
  ∀ p, r = .ok p → Next same g phase p

theorem Goes.threw (phase : Phase) (e : Thrown) : Goes same g phase (.error e) := by
  intro p hp
  cases hp

theorem Goes.on {phase p : Phase} (h : Next same g phase p) : Goes same g phase (.ok p) := by
  intro q hq
  cases hq
  exact h

theorem registerCode_goes (same : String → String → Bool) {srcRoot : Value} {r : Except Thrown Phase} (phase : Phase)
    (h : registerCode fp srcRoot g = some (r, g')) : g' = g ∧ Goes same g phase r := by
  unfold registerCode at h
  rcases read_bind_cases h with ⟨-, ⟨e, rfl⟩, rfl⟩ | ⟨email, -, h⟩
  · exact ⟨rfl, .threw _ _⟩
  rw [bind_of_ok (show getCode (codeKey email) g = some (.ok (g.codes (codeKey email)), g) from rfl)] at h
  cases hcode : g.codes (codeKey email) with
  | none =>
    rw [hcode] at h
    cases h
    exact ⟨rfl, .on (.replied _ _)⟩
  | some verifyCode =>
    rw [hcode] at h
    rcases read_bind_cases h with ⟨-, ⟨e, rfl⟩, rfl⟩ | ⟨given, -, h⟩
    · exact ⟨rfl, .threw _ _⟩
    by_cases hne : verifyCode ≠ given
    · rw [if_pos hne] at h
      cases h
      exact ⟨rfl, .on (.replied _ _)⟩
    rw [if_neg hne] at h
    rcases read_bind_cases h with ⟨-, ⟨e, rfl⟩, rfl⟩ | ⟨name, -, h⟩
    · exact ⟨rfl, .threw _ _⟩
    rcases read_bind_cases h with ⟨-, ⟨e, rfl⟩, rfl⟩ | ⟨pwd, -, h⟩
    · exact ⟨rfl, .threw _ _⟩
    rcases read_bind_cases h with ⟨-, ⟨e, rfl⟩, rfl⟩ | ⟨confirm, -, h⟩
    · exact ⟨rfl, .threw _ _⟩
    rcases read_bind_cases h with ⟨-, ⟨e, rfl⟩, rfl⟩ | ⟨icon, -, h⟩
    · exact ⟨rfl, .threw _ _⟩
    cases h
    exact ⟨rfl, .on (.regUser _ _ _ _ _ hcode)⟩

theorem resetCode_goes (same : String → String → Bool) {srcRoot : Value} {r : Except Thrown Phase} (phase : Phase)
    (h : resetCode fp srcRoot g = some (r, g')) : g' = g ∧ Goes same g phase r := by
  unfold resetCode at h
  rcases read_bind_cases h with ⟨-, ⟨e, rfl⟩, rfl⟩ | ⟨email, -, h⟩
  · exact ⟨rfl, .threw _ _⟩
  rcases read_bind_cases h with ⟨-, ⟨e, rfl⟩, rfl⟩ | ⟨name, -, h⟩
  · exact ⟨rfl, .threw _ _⟩
  rcases read_bind_cases h with ⟨-, ⟨e, rfl⟩, rfl⟩ | ⟨pwd, -, h⟩
  · exact ⟨rfl, .threw _ _⟩
  rw [bind_of_ok (show getCode (codeKey email) g = some (.ok (g.codes (codeKey email)), g) from rfl)] at h
  cases hcode : g.codes (codeKey email) with
  | none =>
    rw [hcode] at h
    cases h
    exact ⟨rfl, .on (.replied _ _)⟩
  | some verifyCode =>
    rw [hcode] at h
    rcases read_bind_cases h with ⟨-, ⟨e, rfl⟩, rfl⟩ | ⟨given, -, h⟩
    · exact ⟨rfl, .threw _ _⟩
    by_cases hne : verifyCode ≠ given
    · rw [if_pos hne] at h
      cases h
      exact ⟨rfl, .on (.replied _ _)⟩
    · rw [if_neg hne] at h
      cases h
      exact ⟨rfl, .on (.checkEmail _ _ _ hcode)⟩

theorem dao_codes {α : Type} {method : Mysql.Dao α} {answer : List User → Mysql.Reply} {r : Except Thrown α}
    (h : dao same method answer comes g = some (r, g')) : g'.codes = g.codes := by
  obtain ⟨⟨q, w⟩, -, hp⟩ := Option.map_eq_some_iff.1 h
  cases hp
  rfl

theorem isEmpty_named_iff {name : String} : (named same g.users name).isEmpty = true ↔ Nobody same g.users name :=
  List.isEmpty_iff.trans named_eq_nil_iff

/-- **One call of a request.** It leaves the table alone, and the request goes on as it may; or
it is the call that adds a row; or the one that sets a password. -/
theorem serve_cases {phase : Phase} {r : Except Thrown Phase}
    (h : phase.serve same fp procedure comes g = some (r, g')) :
    g'.codes = g.codes ∧ Goes same g phase r ∧
      (g'.users = g.users ∨
        (∃ email name pwd confirm icon code, phase = .regUser email name pwd confirm icon code ∧
          g'.users = g.users ++ (procedure g.users name email pwd).2.toList) ∨
        ∃ email name pwd code known, phase = .updatePwd email name pwd code known ∧
          g'.users = setPwd same g.users name pwd) := by
  cases phase with
  | register srcRoot =>
    obtain ⟨rfl, hgoes⟩ := registerCode_goes same (.register srcRoot) h
    exact ⟨rfl, hgoes, .inl rfl⟩
  | reset srcRoot =>
    obtain ⟨rfl, hgoes⟩ := resetCode_goes same (.reset srcRoot) h
    exact ⟨rfl, hgoes, .inl rfl⟩
  | regUser email name pwd confirm icon code =>
    rcases bind_eq_some_iff.1 h with ⟨uid, g₁, hreg, h⟩ | ⟨e, hreg, rfl⟩
    · obtain ⟨hcodes, -, husers⟩ := regUser_spec hreg
      have hends : g' = g₁ ∧ Goes same g (.regUser email name pwd confirm icon code) r := by
        by_cases huid : uid = 0 ∨ uid = -1
        · rw [if_pos huid] at h
          cases h
          exact ⟨rfl, .on (.replied _ _)⟩
        · rw [if_neg huid] at h
          cases h
          exact ⟨rfl, .on (.replied _ _)⟩
      obtain ⟨rfl, hgoes⟩ := hends
      refine ⟨hcodes, hgoes, ?_⟩
      rcases husers with husers | husers
      · exact .inl husers
      · exact .inr (.inl ⟨_, _, _, _, _, _, rfl, husers⟩)
    · obtain ⟨-, ⟨n, hn⟩, -⟩ := regUser_spec hreg
      cases hn
  | checkEmail email name pwd code =>
    rw [Phase.serve, bind_of_ok (show isKnown same name g = some (.ok _, g) from rfl)] at h
    rcases bind_eq_some_iff.1 h with ⟨b, g₁, hcheck, h⟩ | ⟨e, hcheck, rfl⟩
    · obtain ⟨husers, b', hb, hcases⟩ := checkEmail_spec hcheck
      have hcodes : g₁.codes = g.codes := dao_codes hcheck
      cases hb
      cases b with
      | false =>
        cases h
        exact ⟨hcodes, .on (.replied _ _), .inl husers⟩
      | true =>
        cases h
        refine ⟨hcodes, .on (.updatePwd _ _ (fun hnobody => ?_) fun hknown => ?_), .inl husers⟩
        · exact isEmpty_named_iff.1 (by simpa using hnobody)
        · rcases hcases with ⟨-, -, hno, -⟩ | ⟨-, hrow⟩
          · rw [isEmpty_named_iff.2 hno] at hknown
            cases hknown
          · exact hrow rfl
    · obtain ⟨-, b', hb, -⟩ := checkEmail_spec hcheck
      cases hb
  | updatePwd email name pwd code known =>
    rcases bind_eq_some_iff.1 h with ⟨b, g₁, hup, h⟩ | ⟨e, hup, rfl⟩
    · have hcodes : g₁.codes = g.codes := dao_codes hup
      rcases updatePwd_spec hup with ⟨-, hb, husers⟩ | ⟨-, hb, husers⟩
      · cases hb
        cases h
        exact ⟨hcodes, .on (.replied _ _), .inl husers⟩
      · cases hb
        cases h
        exact ⟨hcodes, .on (.replied _ _), .inr (.inr ⟨_, _, _, _, _, rfl, husers⟩)⟩
    · rcases updatePwd_spec hup with ⟨-, hb, -⟩ | ⟨-, hb, -⟩
      · cases hb
      · cases hb
  | login srcRoot =>
    rcases read_bind_cases h with ⟨-, ⟨e, rfl⟩, rfl⟩ | ⟨email, -, h⟩
    · exact ⟨rfl, .threw _ _, .inl rfl⟩
    rcases read_bind_cases h with ⟨-, ⟨e, rfl⟩, rfl⟩ | ⟨pwd, -, h⟩
    · exact ⟨rfl, .threw _ _, .inl rfl⟩
    rcases bind_eq_some_iff.1 h with ⟨found, g₁, hcheck, h⟩ | ⟨e, hcheck, rfl⟩
    · obtain ⟨hcodes, husers, hfound | ⟨u, hu, hemail, rfl, hfound⟩⟩ := checkPwd_spec hcheck
      · cases hfound
        cases h
        exact ⟨hcodes, .on (.replied _ _), .inl husers⟩
      · cases hfound
        cases h
        exact ⟨hcodes, .on (.getChatServer _ hu hemail), .inl husers⟩
    · obtain ⟨-, -, hfound | ⟨u, -, -, -, hfound⟩⟩ := checkPwd_spec hcheck
      · cases hfound
      · cases hfound
  | getChatServer email uInfo => cases h
  | replied root => cases h

end Learncc.GateServer
