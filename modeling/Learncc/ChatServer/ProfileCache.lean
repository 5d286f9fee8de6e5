/-
The profiles the chat server keeps in redis beside the user table: the three
lookups that fill them (get_base_info, get_user_byuid, get_user_byname,
src/chat_server/logic_system.cc), and the registrations and password resets the
gate server makes in MySQL (src/gateserver/mysql_dao.cc), which leave redis as
it is.

`same` is MySQL's comparison of two names. `redis_mgr` formats its keys with
`%s`: names hold no NUL.
-/
import Learncc.ChatServer.Delivery

namespace Learncc.ProfileCache

open Json Notify

/-- A row of the user table. -/
structure User where
  uid : ℤ
  name : String
  email : String
  pwd : String
  nick : String
  desc : String
  sex : ℤ
  uid_int : -(2 ^ 31) ≤ uid ∧ uid < 2 ^ 31
  sex_int : -(2 ^ 31) ≤ sex ∧ sex < 2 ^ 31

/-- All that is shown of the row. -/
def User.info (u : User) : Mysql.UserInfo :=
  { uid := u.uid, name := u.name, email := u.email, pwd := u.pwd, nick := u.nick, desc := u.desc, sex := u.sex }

/-- What `get_user(int)` reads of it. -/
def User.row (u : User) : UserRow := { pwd := u.pwd, email := u.email, name := u.name }

/-- What a lookup asks for. -/
inductive Question
  | uid (uid : ℤ)
  | digits (uidStr : String)
  | name (name : String)

/-- `USER_BASE_INFO + uid_str`. -/
def uidKey (uidStr : String) : String := "ubaseinfo_" ++ uidStr

/-- `NAME_INFO + name`. -/
def nameKey (name : String) : String := "nameinfo_" ++ name

/-- `std::stoi` of a text that may be no number, or no int. -/
def intOf (s : String) : Except LogicError ℤ :=
  match s.toInt? with
  | some n => if -(2 ^ 31) ≤ n ∧ n < 2 ^ 31 then .ok n else .error ⟨⟩
  | none => .error ⟨⟩

def isPureDigit (str : String) : Bool := str.toList.all Char.isDigit

/-- Redis, the table, and the last profile that was returned. -/
structure World where
  profiles : String → Option Value
  users : List User
  answer : Option (Question × Mysql.UserInfo)

variable (same : String → String → Bool) (cfg : Config)

namespace World

def byUid (w : World) (uid : ℤ) : Option User := w.users.find? (·.uid = uid)

def byName (w : World) (name : String) : Option User := w.users.find? (same ·.name name)

/-- The part of it that is there for every handler of the chat server. -/
def cluster (w : World) : Cluster :=
  { redis := .empty, profiles := w.profiles, users := fun uid => (w.byUid uid).map User.row,
    sessions := fun _ _ => none, sent := [], mysql := [] }

end World

def onCluster {α : Type} (x : Chat α) : Command World LogicError α := fun w =>
  (x w.cluster).map fun p => (p.1, { w with profiles := p.2.profiles })

/-- `mysql_dao::get_user(std::string)`. -/
def getUserNamed (name : String) : Command World LogicError (Option Mysql.UserInfo) := fun w =>
  some (.ok ((w.byName same name).map User.info), w)

/-- `none` is the answer `ERR_UID`. -/
def getUserByuid (uidStr : String) : Chat (Option Mysql.UserInfo) := do
  match ← getProfile (uidKey uidStr) with
  | some root =>
    let info ← read (profileOf cfg root)
    return some info
  | none =>
    let uid ← read (intOf uidStr)
    match ← getUser uid with
    | none => return none
    | some info =>
      setProfile (uidKey uidStr) (.assigned (profileMembers info.uid info))
      return some info

def getUserByname (name : String) : Command World LogicError (Option Mysql.UserInfo) := do
  match ← onCluster (getProfile (nameKey name)) with
  | some root =>
    let info ← onCluster (read (profileOf cfg root))
    return some info
  | none =>
    match ← getUserNamed same name with
    | none => return none
    | some info =>
      onCluster (setProfile (nameKey name) (.assigned (profileMembers info.uid info)))
      return some info

def searchInfo (uidStr : String) : Command World LogicError (Option Mysql.UserInfo) :=
  if isPureDigit uidStr then onCluster (getUserByuid cfg uidStr) else getUserByname same cfg uidStr

/-- The question `search_info` takes the text for. -/
def question (uidStr : String) : Question := if isPureDigit uidStr then .digits uidStr else .name uidStr

/-- `mysql_dao::check_email`: a name that nobody has passes. -/
def checkEmail (w : World) (name email : String) : Bool := ((w.byName same name).map (·.email)).all (· = email)

/-- `UPDATE user SET pwd = ? WHERE name = ?`. -/
def updatePwd (w : World) (name newpwd : String) : World :=
  { w with users := w.users.map fun u => if same u.name name then { u with pwd := newpwd } else u }

inductive Event
  | register (user : User)
  | reset (name email newpwd : String)
  | login (uid : ℤ)
  | search (uidStr : String)

/-- `reg_user` makes a row with a uid, a name and an email of its own. A reset
is one that succeeds. -/
def step (w : World) : Event → Option World
  | .register user =>
    if w.users.all fun u => u.uid ≠ user.uid && !same u.name user.name && u.email ≠ user.email then
      some { w with users := w.users ++ [user], answer := none }
    else none
  | .reset name email newpwd =>
    if checkEmail same w name email then some { updatePwd same w name newpwd with answer := none } else none
  | .login uid => (onCluster (getBaseInfo cfg (baseKey uid) uid) w).map fun p =>
    { p.2 with answer := match p.1 with
        | .ok (true, info) => some (.uid uid, info)
        | _ => none }
  | .search uidStr => (searchInfo same cfg uidStr w).map fun p =>
    { p.2 with answer := match p.1 with
        | .ok (some info) => some (question uidStr, info)
        | _ => none }

/-- Redis is empty, the table may have users. -/
def init (users : List User) : World := { profiles := fun _ => none, users, answer := none }

/-! ## What a lookup should return -/

def Question.key : Question → String
  | .uid n => baseKey n
  | .digits s => uidKey s
  | .name s => nameKey s

/-- The row is that of the user asked for. -/
def Question.Asks : Question → User → Prop
  | .uid n, u => u.uid = n
  | .digits s, u => intOf s = .ok u.uid
  | .name s, u => same u.name s = true

/-- The profile is the row, as it is now, of the user asked for. -/
def World.Current (w : World) (q : Question) (info : Mysql.UserInfo) : Prop :=
  ∃ u ∈ w.users, Question.Asks same q u ∧ u.info = info

/-- The last profile returned was current, and so is every one that redis would
be read for. -/
structure World.Coherent (w : World) : Prop where
  answer : ∀ q info, w.answer = some (q, info) → World.Current same w q info
  cached : ∀ q root info, w.profiles (Question.key q) = some root → profileOf cfg root = .ok info →
    World.Current same w q info

/-- The columns `get_user(int)` leaves out have their defaults. -/
def User.Plain (u : User) : Prop := u.nick = "" ∧ u.desc = "" ∧ u.sex = 0

instance (u : User) : Decidable u.Plain := inferInstanceAs (Decidable (_ ∧ _))

/-- Where redis and the table stay together: no password changes while redis
has the profile, and a user that is first looked up by uid has no nick, no
description and no sex. -/
def World.Steady (w : World) : Event → Prop
  | .register _ => True
  | .reset name _ newpwd => ∀ q root, w.profiles (Question.key q) = some root → ∀ u ∈ w.users,
    profileOf cfg root = .ok u.info → same u.name name = true → u.pwd = newpwd
  | .login uid => w.profiles (baseKey uid) = none → ∀ u ∈ w.users, u.uid = uid → u.Plain
  | .search uidStr => isPureDigit uidStr = true → w.profiles (uidKey uidStr) = none →
    ∀ u ∈ w.users, intOf uidStr = .ok u.uid → u.Plain

variable {same : String → String → Bool} {cfg : Config} {w t : World} {e : Event} {q q' : Question} {u : User}
  {info : Mysql.UserInfo}

/-! ## Keys -/

theorem uidKey_inj {a b : String} : uidKey a = uidKey b ↔ a = b := String.append_right_inj _

theorem nameKey_inj {a b : String} : nameKey a = nameKey b ↔ a = b := String.append_right_inj _

theorem uidKey_ne_nameKey (a b : String) : uidKey a ≠ nameKey b := by
  intro h
  have h := congrArg (fun s : String => s.toList.head?) h
  simp [uidKey, nameKey] at h

theorem baseKey_eq (n : ℤ) : baseKey n = uidKey (toString n) := rfl

/-- `std::stoi` of what `std::to_string` wrote for an int. -/
theorem intOf_toString {n : ℤ} (h : -(2 ^ 31) ≤ n ∧ n < 2 ^ 31) : intOf (toString n) = .ok n := by
  have hback : (toString n).toInt? = some n := Int.toInt?_repr n
  rw [intOf, hback]
  exact if_pos h

theorem intOf_toString_eq {n m : ℤ} (h : intOf (toString n) = .ok m) : m = n := by
  have hback : (toString n).toInt? = some n := Int.toInt?_repr n
  rw [intOf, hback] at h
  dsimp only at h
  split at h
  · cases h
    rfl
  · cases h

/-- Questions answered from one key ask for one user. -/
theorem asks_of_key (hkey : q.key = q'.key) (h : Question.Asks same q u) : Question.Asks same q' u := by
  cases q with
  | uid n =>
    cases q' with
    | uid m =>
      rw [show n = m from Int.repr_inj.1 (uidKey_inj.1 hkey)] at h
      exact h
    | digits s =>
      have h : u.uid = n := h
      show intOf s = _
      rw [← uidKey_inj.1 hkey, ← h]
      exact intOf_toString u.uid_int
    | name s => exact (uidKey_ne_nameKey _ _ hkey).elim
  | digits s =>
    cases q' with
    | uid m =>
      have h : intOf s = .ok u.uid := h
      rw [uidKey_inj.1 (hkey.trans (baseKey_eq m))] at h
      exact intOf_toString_eq h
    | digits s' =>
      rw [show s = s' from uidKey_inj.1 hkey] at h
      exact h
    | name s' => exact (uidKey_ne_nameKey _ _ hkey).elim
  | name s =>
    cases q' with
    | uid m => exact (uidKey_ne_nameKey _ _ hkey.symm).elim
    | digits s' => exact (uidKey_ne_nameKey _ _ hkey.symm).elim
    | name s' =>
      rw [show s = s' from nameKey_inj.1 hkey] at h
      exact h

theorem Current_of_key (hkey : q.key = q'.key) (h : World.Current same w q info) : World.Current same w q' info := by
  obtain ⟨u, hu, hasks, hinfo⟩ := h
  exact ⟨u, hu, asks_of_key hkey hasks, hinfo⟩

/-! ## Profiles written and read back -/

/-- What is read of the row can be written to redis and read back. -/
structure Readable (info : Mysql.UserInfo) : Prop where
  uid : -(2 ^ 31) ≤ info.uid ∧ info.uid < 2 ^ 31
  sex : -(2 ^ 31) ≤ info.sex ∧ info.sex < 2 ^ 31
  icon : info.icon = ""
  back : info.back = ""

theorem profileOf_written (h : Readable info) :
    profileOf cfg (.assigned (profileMembers info.uid info)) = .ok info := by
  have huid : (Value.int info.uid).asInt cfg.fp = .ok info.uid := if_pos h.uid
  have hsex : (Value.int info.sex).asInt cfg.fp = .ok info.sex := if_pos h.sex
  have hobj : Value.assigned (profileMembers info.uid info) =
      .obj [("desc", .str info.desc), ("email", .str info.email), ("name", .str info.name), ("nick", .str info.nick),
        ("pwd", .str info.pwd), ("sex", .int info.sex), ("uid", .int info.uid)] := by
    simp [profileMembers, Value.assigned, Value.insert, List.cons_lt_cons_iff]
  rw [hobj]
  simp [profileOf, Value.intAt, Value.stringAt, Value.member, Value.asString, List.lookup, huid, hsex, bind,
    Except.bind, pure, Except.pure]
  obtain ⟨-, -, hicon, hback⟩ := h
  cases info
  cases hicon
  cases hback
  rfl

theorem readable_info (u : User) : Readable u.info := ⟨u.uid_int, u.sex_int, rfl, rfl⟩

theorem readable_row (u : User) : Readable (u.row.info u.uid) := by
  have hzero : -(2 ^ 31) ≤ (0 : ℤ) ∧ (0 : ℤ) < 2 ^ 31 := by decide
  exact ⟨u.uid_int, hzero, rfl, rfl⟩

/-- The profile `get_user(int)` makes is the row if what it leaves out has the
defaults. -/
theorem row_info_eq_iff : u.row.info u.uid = u.info ↔ u.Plain := by
  simp only [User.row, User.info, UserRow.info, Mysql.UserInfo.mk.injEq, true_and, and_true, User.Plain]
  exact ⟨fun h => ⟨h.1.symm, h.2.1.symm, h.2.2.symm⟩, fun h => ⟨h.1.symm, h.2.1.symm, h.2.2.symm⟩⟩

/-! ## Reading through redis -/

/-- A lookup: redis first, and what was fetched is stored. -/
def readThrough (cfg : Config) (key : String) (fetched : Except LogicError (Option Mysql.UserInfo)) (w : World) :
    Except LogicError (Option Mysql.UserInfo) × World :=
  match w.profiles key with
  | some root => ((profileOf cfg root).map some, w)
  | none =>
    match fetched with
    | .ok (some info) => (.ok (some info),
        { w with profiles := Function.update w.profiles key (some (.assigned (profileMembers info.uid info))) })
    | _ => (fetched, w)

def answered (q : Question) (p : Except LogicError (Option Mysql.UserInfo) × World) : World :=
  { p.2 with answer := match p.1 with
      | .ok (some info) => some (q, info)
      | _ => none }

theorem step_login (w : World) (uid : ℤ) : step same cfg w (.login uid) =
    some (answered (.uid uid) (readThrough cfg (baseKey uid) (.ok ((w.byUid uid).map fun u => u.row.info uid)) w)) := by
  simp only [step, onCluster, getBaseInfo_eq]
  rw [show w.cluster.profiles = w.profiles from rfl, show w.cluster.users uid = (w.byUid uid).map User.row from rfl]
  unfold readThrough
  cases w.profiles (baseKey uid) with
  | some root =>
    dsimp only
    cases profileOf cfg root with
    | ok info => rfl
    | error e => rfl
  | none =>
    dsimp only
    cases w.byUid uid with
    | none => rfl
    | some u => rfl

theorem getUserByuid_eq (w : World) (s : String) : onCluster (getUserByuid cfg s) w =
    some (readThrough cfg (uidKey s) ((intOf s).map fun uid => (w.byUid uid).map fun u => u.row.info uid) w) := by
  unfold onCluster getUserByuid
  rw [Command.bind_of_ok (show getProfile (uidKey s) w.cluster = some (.ok (w.profiles (uidKey s)), w.cluster)
    from rfl)]
  unfold readThrough
  cases w.profiles (uidKey s) with
  | some root =>
    dsimp only
    cases hp : profileOf cfg root with
    | ok info =>
      rw [Command.bind_of_ok (show read (.ok info) w.cluster = some (.ok info, w.cluster) from rfl)]
      rfl
    | error e =>
      rw [Command.bind_of_error (show read (.error e) w.cluster = some (.error e, w.cluster) from rfl)]
      rfl
  | none =>
    dsimp only
    cases hi : intOf s with
    | ok uid =>
      rw [Command.bind_of_ok (show read (.ok uid) w.cluster = some (.ok uid, w.cluster) from rfl),
        Command.bind_of_ok (show getUser uid w.cluster =
          some (.ok (((w.byUid uid).map User.row).map (UserRow.info uid)), _) from rfl)]
      dsimp only [Except.map]
      cases w.byUid uid with
      | none => rfl
      | some u => rfl
    | error e =>
      rw [Command.bind_of_error (show read (.error e) w.cluster = some (.error e, w.cluster) from rfl)]
      rfl

theorem getUserByname_eq (w : World) (s : String) : getUserByname same cfg s w =
    some (readThrough cfg (nameKey s) (.ok ((w.byName same s).map User.info)) w) := by
  unfold getUserByname
  rw [Command.bind_of_ok (show onCluster (getProfile (nameKey s)) w = some (.ok (w.profiles (nameKey s)), w) from rfl)]
  unfold readThrough
  cases w.profiles (nameKey s) with
  | some root =>
    dsimp only
    cases hp : profileOf cfg root with
    | ok info =>
      rw [Command.bind_of_ok (show onCluster (read (.ok info)) w = some (.ok info, w) from rfl)]
      rfl
    | error e =>
      have hthrow : onCluster (read (.error e : Except LogicError Mysql.UserInfo)) w = some (.error e, w) := rfl
      rw [Command.bind_of_error hthrow]
      rfl
  | none =>
    dsimp only
    rw [Command.bind_of_ok (show getUserNamed same s w = some (.ok ((w.byName same s).map User.info), w) from rfl)]
    cases w.byName same s with
    | none => rfl
    | some u => rfl

/-- A lookup keeps redis and the table together exactly when what it fetches on
a miss is the row of the user asked for. -/
theorem coherent_answered_iff {fetched : Except LogicError (Option Mysql.UserInfo)}
    (hread : ∀ info, fetched = .ok (some info) → Readable info) (h : w.Coherent same cfg) :
    (answered q (readThrough cfg q.key fetched w)).Coherent same cfg ↔
      (w.profiles q.key = none → ∀ info, fetched = .ok (some info) → World.Current same w q info) := by
  unfold readThrough
  cases hroot : w.profiles q.key with
  | some root =>
    refine ⟨fun _ hnone => (by cases hnone), fun _ => ⟨fun q' info hans => ?_, h.cached⟩⟩
    cases hp : profileOf cfg root with
    | error e =>
      simp [answered, hp, Except.map] at hans
    | ok info' =>
      simp only [answered, hp, Except.map, Option.some.injEq, Prod.mk.injEq] at hans
      obtain ⟨rfl, rfl⟩ := hans
      exact h.cached q root info' hroot hp
  | none =>
    cases hf : fetched with
    | error e =>
      refine ⟨fun _ _ info hinfo => (by cases hinfo), fun _ => ⟨fun q' info hans => ?_, h.cached⟩⟩
      cases hans
    | ok found =>
      cases found with
      | none =>
        refine ⟨fun _ _ info hinfo => (by cases hinfo), fun _ => ⟨fun q' info hans => ?_, h.cached⟩⟩
        cases hans
      | some info =>
        refine ⟨fun ht _ info' hinfo' => ?_,
          fun hcur => ⟨fun q' info' hans => ?_, fun q' root info' hroot' hp => ?_⟩⟩
        · cases hinfo'
          exact ht.answer q info rfl
        · cases hans
          exact hcur rfl info rfl
        · by_cases hkey : q'.key = q.key
          · have hroot' : Function.update w.profiles q.key _ q'.key = some root := hroot'
            rw [hkey, Function.update_self] at hroot'
            cases hroot'
            rw [profileOf_written (hread info hf)] at hp
            cases hp
            exact Current_of_key hkey.symm (hcur rfl info rfl)
          · have hroot' : Function.update w.profiles q.key _ q'.key = some root := hroot'
            rw [Function.update_of_ne hkey] at hroot'
            exact h.cached q' root info' hroot' hp

/-! ## Steps -/

/-- `uid` is the primary key. -/
def World.Distinct (w : World) : Prop := (w.users.map User.uid).Nodup

theorem World.Distinct.eq {v : User} (h : w.Distinct) (hu : u ∈ w.users) (hv : v ∈ w.users) (huid : u.uid = v.uid) :
    u = v := List.inj_on_of_nodup_map h hu hv huid

theorem byUid_eq_some_iff {uid : ℤ} (h : w.Distinct) : w.byUid uid = some u ↔ u ∈ w.users ∧ u.uid = uid := by
  unfold World.byUid
  refine ⟨fun hf => ⟨List.mem_of_find?_eq_some hf, by simpa using List.find?_some hf⟩, fun hu => ?_⟩
  obtain ⟨hu, rfl⟩ := hu
  cases hf : w.users.find? (·.uid = u.uid) with
  | none =>
    have hne := List.find?_eq_none.1 hf u hu
    simp at hne
  | some v =>
    have hv : v.uid = u.uid := by simpa using List.find?_some hf
    rw [h.eq (List.mem_of_find?_eq_some hf) hu hv]

/-- What `get_user(int)` makes of the user is current if the row is plain. -/
theorem current_row_iff (h : w.Distinct) (hu : u ∈ w.users) (hasks : Question.Asks same q u) :
    World.Current same w q (u.row.info u.uid) ↔ u.Plain := by
  refine ⟨fun hcur => ?_, fun hplain => ⟨u, hu, hasks, (row_info_eq_iff.2 hplain).symm⟩⟩
  obtain ⟨v, hv, -, hinfo⟩ := hcur
  have huid : v.uid = u.uid := congrArg Mysql.UserInfo.uid hinfo
  rw [h.eq hv hu huid] at hinfo
  exact row_info_eq_iff.1 hinfo.symm

theorem current_named {name : String} (hf : w.byName same name = some u) :
    World.Current same w (.name name) u.info := by
  have hasks : same u.name name = true := by simpa using List.find?_some hf
  exact ⟨u, List.mem_of_find?_eq_some hf, hasks, rfl⟩

theorem updatePwd_uid (w : World) (name newpwd : String) :
    (updatePwd same w name newpwd).users.map User.uid = w.users.map User.uid := by
  rw [updatePwd, List.map_map]
  refine List.map_congr_left fun u _ => ?_
  dsimp only [Function.comp]
  split
  · rfl
  · rfl

theorem readThrough_users (key : String) (fetched : Except LogicError (Option Mysql.UserInfo)) (w : World) :
    (readThrough cfg key fetched w).2.users = w.users := by
  unfold readThrough
  split
  · rfl
  · split
    · rfl
    · rfl

theorem step_search (w : World) (s : String) : step same cfg w (.search s) =
    some (answered (question s) (readThrough cfg (question s).key
      (if isPureDigit s then (intOf s).map fun uid => (w.byUid uid).map fun u => u.row.info uid
        else .ok ((w.byName same s).map User.info)) w)) := by
  by_cases hd : isPureDigit s = true
  · simp only [step, searchInfo, question, if_pos hd, getUserByuid_eq, Option.map_some]
    rfl
  · simp only [step, searchInfo, question, if_neg hd, getUserByname_eq, Option.map_some]
    rfl

theorem step_distinct (h : w.Distinct) (hs : step same cfg w e = some t) : t.Distinct := by
  cases e with
  | register user =>
    simp only [step] at hs
    split at hs
    · rename_i hfresh
      cases hs
      show ((w.users ++ [user]).map User.uid).Nodup
      rw [List.map_append, List.map_cons, List.map_nil, List.nodup_append_comm]
      refine List.nodup_cons.2 ⟨fun hm => ?_, h⟩
      obtain ⟨u, hu, huid⟩ := List.mem_map.1 hm
      have := List.all_eq_true.1 hfresh u hu
      simp [huid] at this
    · cases hs
  | reset name email newpwd =>
    simp only [step] at hs
    split at hs
    · cases hs
      show (List.map User.uid (updatePwd same w name newpwd).users).Nodup
      rw [updatePwd_uid]
      exact h
    · cases hs
  | login uid =>
    rw [step_login] at hs
    cases hs
    unfold World.Distinct
    rw [show (answered _ _).users = _ from readThrough_users _ _ _]
    exact h
  | search s =>
    rw [step_search] at hs
    cases hs
    unfold World.Distinct
    rw [show (answered _ _).users = _ from readThrough_users _ _ _]
    exact h

/-- A new row takes no user away. -/
theorem coherent_register {user : User} (h : w.Coherent same cfg) :
    World.Coherent same cfg { w with users := w.users ++ [user], answer := none } := by
  refine ⟨fun q info hans => (by cases hans), fun q root info hroot hp => ?_⟩
  obtain ⟨u, hu, hasks, hinfo⟩ := h.cached q root info hroot hp
  exact ⟨u, List.mem_append_left _ hu, hasks, hinfo⟩

theorem coherent_reset_iff {name newpwd : String} (email : String) (hd : w.Distinct) (h : w.Coherent same cfg) :
    World.Coherent same cfg { updatePwd same w name newpwd with answer := none } ↔
      World.Steady same cfg w (.reset name email newpwd) := by
  constructor
  · intro ht q root hroot u hu hp hname
    -- The profile is of a row after the update, which can only be the one of `u`.
    obtain ⟨v, hv, -, hinfo⟩ := ht.cached q root u.info hroot hp
    obtain ⟨u', hu', rfl⟩ := List.mem_map.1 hv
    have huid : u'.uid = u.uid := by
      have := congrArg Mysql.UserInfo.uid hinfo
      split at this
      · exact this
      · exact this
    rw [hd.eq hu' hu huid, if_pos hname] at hinfo
    exact (congrArg Mysql.UserInfo.pwd hinfo).symm
  · intro hsteady
    refine ⟨fun q info hans => (by cases hans), fun q root info hroot hp => ?_⟩
    obtain ⟨u, hu, hasks, hinfo⟩ := h.cached q root info hroot hp
    refine ⟨_, List.mem_map_of_mem hu, ?_, ?_⟩
    · cases q with
      | uid n => split <;> exact hasks
      | digits s => split <;> exact hasks
      | name s => split <;> exact hasks
    · split
      · rename_i hname
        rw [← hinfo] at hp
        have hpwd := hsteady q root hroot u hu hp hname
        rw [← hinfo, ← hpwd]
      · exact hinfo

/-- What is fetched by a uid is current, for whoever asks for that uid, exactly
if the row is plain. -/
theorem current_fetched_iff {uid : ℤ} (hd : w.Distinct)
    (hasks : ∀ u : User, u.uid = uid → Question.Asks same q u) :
    (∀ info, (w.byUid uid).map (fun u => u.row.info uid) = some info → World.Current same w q info) ↔
      ∀ u ∈ w.users, u.uid = uid → u.Plain := by
  constructor
  · intro h u hu huid
    have hf : w.byUid uid = some u := (byUid_eq_some_iff hd).2 ⟨hu, huid⟩
    have hcur := h (u.row.info uid) (by rw [hf]; rfl)
    rw [← huid] at hcur
    exact (current_row_iff hd hu (hasks u huid)).1 hcur
  · intro h info hinfo
    obtain ⟨u, hf, rfl⟩ := Option.map_eq_some_iff.1 hinfo
    obtain ⟨hu, huid⟩ := (byUid_eq_some_iff hd).1 hf
    rw [← huid]
    exact (current_row_iff hd hu (hasks u huid)).2 (h u hu huid)

theorem readable_fetched {uid : ℤ} {info : Mysql.UserInfo} (hd : w.Distinct)
    (h : (w.byUid uid).map (fun u => u.row.info uid) = some info) : Readable info := by
  obtain ⟨u, hf, rfl⟩ := Option.map_eq_some_iff.1 h
  obtain ⟨-, rfl⟩ := (byUid_eq_some_iff hd).1 hf
  exact readable_row u

/-- What one step does to redis and the table. -/
theorem step_coherent_iff (hd : w.Distinct) (h : w.Coherent same cfg) (hs : step same cfg w e = some t) :
    t.Coherent same cfg ↔ World.Steady same cfg w e := by
  cases e with
  | register user =>
    simp only [step] at hs
    split at hs
    · cases hs
      exact ⟨fun _ => trivial, fun _ => coherent_register h⟩
    · cases hs
  | reset name email newpwd =>
    simp only [step] at hs
    split at hs
    · cases hs
      exact coherent_reset_iff email hd h
    · cases hs
  | login uid =>
    rw [step_login] at hs
    cases hs
    have hread : ∀ info, (.ok ((w.byUid uid).map fun u => u.row.info uid) : Except LogicError _) =
        .ok (some info) → Readable info := by
      intro info hinfo
      exact readable_fetched hd (Except.ok.inj hinfo)
    refine (coherent_answered_iff (q := .uid uid) hread h).trans (forall_congr' fun _ => ?_)
    have hasks : ∀ u : User, u.uid = uid → Question.Asks same (.uid uid) u := fun _ hu => hu
    refine Iff.trans ?_ (current_fetched_iff hd hasks)
    simp only [Except.ok.injEq]
  | search s =>
    rw [step_search] at hs
    cases hs
    by_cases hdig : isPureDigit s = true
    · rw [show question s = .digits s from if_pos hdig, if_pos hdig]
      refine Iff.trans ?_ (show _ ↔ World.Steady same cfg w (.search s) from ⟨fun ha _ => ha, fun ha => ha hdig⟩)
      cases hint : intOf s with
      | error err =>
        refine (coherent_answered_iff (q := .digits s) (fun info hinfo => (by cases hinfo)) h).trans
          (forall_congr' fun _ => ⟨fun _ u _ huid => ?_, fun _ info hinfo => (by cases hinfo)⟩)
        cases huid
      | ok uid =>
        have hread : ∀ info, (.ok ((w.byUid uid).map fun u => u.row.info uid) : Except LogicError _) =
            .ok (some info) → Readable info := by
          intro info hinfo
          exact readable_fetched hd (Except.ok.inj hinfo)
        refine (coherent_answered_iff (q := .digits s) hread h).trans (forall_congr' fun _ => ?_)
        have hasks : ∀ u : User, u.uid = uid → Question.Asks same (.digits s) u := by
          intro u hu
          rw [← hu] at hint
          exact hint
        rw [← show _ ↔ ∀ u ∈ w.users, (.ok uid : Except LogicError ℤ) = .ok u.uid → u.Plain from
          (current_fetched_iff hd hasks).trans (by simp only [Except.ok.injEq, eq_comm])]
        simp only [Except.ok.injEq]
    · rw [show question s = .name s from if_neg hdig, if_neg hdig]
      refine Iff.trans ?_ (show True ↔ World.Steady same cfg w (.search s) from
        ⟨fun _ hdig' => (hdig hdig').elim, fun _ => trivial⟩)
      have hread : ∀ info, (.ok ((w.byName same s).map User.info) : Except LogicError _) = .ok (some info) →
          Readable info := by
        intro info hinfo
        obtain ⟨u, -, rfl⟩ := Option.map_eq_some_iff.1 (Except.ok.inj hinfo)
        exact readable_info u
      refine (coherent_answered_iff (q := .name s) hread h).trans (iff_true_intro fun _ info hinfo => ?_)
      obtain ⟨u, hf, rfl⟩ := Option.map_eq_some_iff.1 (Except.ok.inj hinfo)
      exact current_named hf

/-- **The profiles in redis and the user table.** All along a run, every profile
returned and every one in redis is the current row of the user asked for,
exactly when no step of the run lets them part. -/
theorem coherent_iff {users : List User} {events : List Event} (hd : (users.map User.uid).Nodup)
    (h : Run.run (step same cfg) (init users) events = some w) :
    Run.Along (step same cfg) (fun v _ => v.Coherent same cfg) (init users) events ∧ w.Coherent same cfg ↔
      Run.Along (step same cfg) (World.Steady same cfg) (init users) events := by
  have hinit : (init users).Coherent same cfg :=
    ⟨fun _ _ hans => (by cases hans), fun _ _ _ hroot => (by cases hroot)⟩
  exact Run.along_iff World.Distinct (fun v => v.Coherent same cfg) (fun _ _ _ hv ht => step_distinct hv ht)
    (fun _ _ _ hv hc ht => step_coherent_iff hv hc ht) hd hinit h

theorem no_int_in_range (_bits : UInt64) (n : ℤ) (h : (none : Option ℤ) = some n) : -(2 ^ 31) ≤ n ∧ n < 2 ^ 31 := by
  cases h

/-- Names compared exactly, and nobody else to talk to. -/
def alone : Config :=
  { selfName := "chat", peers := [], fallsOff := none
    fp := { text := fun _ => "", toInt := fun _ => none, toInt_range := no_int_in_range } }

def ada : User := ⟨7, "ada", "ada@a", "old", "", "", 0, by decide, by decide⟩

def bob : User := ⟨8, "bob", "bob@b", "secret", "", "", 1, by decide, by decide⟩

theorem coherent_iff_ada :
    ∃ w, Run.run (step (· == ·) alone) (init [])
        [.register ada, .reset "ada" "ada@a" "new", .login 7, .search "ada"] = some w ∧
      w.answer.map Prod.snd = some { uid := 7, name := "ada", email := "ada@a", pwd := "new" } ∧
      w.Coherent (· == ·) alone := by
  have heval : (Run.run (step (· == ·) alone) (init [])
      [.register ada, .reset "ada" "ada@a" "new", .login 7, .search "ada"]).map (fun w => w.answer.map Prod.snd) =
        some (some { uid := 7, name := "ada", email := "ada@a", pwd := "new" }) := by decide +kernel
  obtain ⟨w, hw, hans⟩ := Option.map_eq_some_iff.1 heval
  have hsteady : Run.Along (step (· == ·) alone) (World.Steady (· == ·) alone) (init [])
      [.register ada, .reset "ada" "ada@a" "new", .login 7, .search "ada"] := by
    refine ⟨trivial, fun t ht => ?_⟩
    have h1 : some t = some ⟨fun _ => none, [ada], none⟩ := ht.symm.trans rfl
    cases h1
    refine ⟨fun q root hroot => (by cases hroot), fun t ht => ?_⟩
    have h2 : some t = some ⟨fun _ => none, [{ ada with pwd := "new" }], none⟩ := ht.symm.trans rfl
    cases h2
    refine ⟨fun _ u hu _ => ?_, fun t ht => ⟨fun hdig => absurd hdig (by decide), fun _ _ => trivial⟩⟩
    cases List.mem_singleton.1 hu
    exact ⟨rfl, rfl, rfl⟩
  exact ⟨w, hw, hans, ((coherent_iff (show (([] : List User).map User.uid).Nodup from List.nodup_nil) hw).2 hsteady).2⟩

/-- At his login `bob` has the sex 0; found before a reset, `ada` keeps
the old password. -/
theorem profiles_apart :
    ∃ v w, Run.run (step (· == ·) alone) (init [bob]) [.login 8] = some v ∧
      v.answer.map Prod.snd = some { bob.info with sex := 0 } ∧ ¬ v.Coherent (· == ·) alone ∧
      Run.run (step (· == ·) alone) (init [ada])
        [.search "ada", .reset "ada" "ada@a" "new", .search "ada"] = some w ∧
      w.answer.map Prod.snd = some ada.info ∧ w.users.map User.pwd = ["new"] ∧ ¬ w.Coherent (· == ·) alone := by
  have hbob : (Run.run (step (· == ·) alone) (init [bob]) [.login 8]).map
      (fun v => (v.answer.map Prod.snd, v.users.map User.info)) =
        some (some { bob.info with sex := 0 }, [bob.info]) := by decide +kernel
  have hada : (Run.run (step (· == ·) alone) (init [ada])
      [.search "ada", .reset "ada" "ada@a" "new", .search "ada"]).map
      (fun w => (w.answer.map Prod.snd, w.users.map User.info)) =
        some (some ada.info, [{ ada.info with pwd := "new" }]) := by decide +kernel
  obtain ⟨v, hv, hq⟩ := Option.map_eq_some_iff.1 hbob
  obtain ⟨w, hw, hr⟩ := Option.map_eq_some_iff.1 hada
  obtain ⟨hvans, hvusers⟩ := Prod.mk.inj hq
  obtain ⟨hwans, hwusers⟩ := Prod.mk.inj hr
  have happart : ∀ {x : World} {info : Mysql.UserInfo}, x.answer.map Prod.snd = some info →
      info ∉ x.users.map User.info → ¬ x.Coherent (· == ·) alone := by
    intro x info hans hnot hcoh
    obtain ⟨⟨q, info'⟩, hq, rfl⟩ := Option.map_eq_some_iff.1 hans
    obtain ⟨u, hu, -, hinfo⟩ := hcoh.answer q info' hq
    exact hnot (List.mem_map.2 ⟨u, hu, hinfo⟩)
  refine ⟨v, w, hv, hvans, happart hvans ?_, hw, hwans, ?_, happart hwans ?_⟩
  · rw [hvusers]
    decide
  · have hpwd := congrArg (List.map Mysql.UserInfo.pwd) hwusers
    rw [List.map_map] at hpwd
    exact hpwd
  · rw [hwusers]
    decide

end Learncc.ProfileCache
