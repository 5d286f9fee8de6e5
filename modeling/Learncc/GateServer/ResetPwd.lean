/-
The `/reset_pwd` handler of the gate server (src/gateserver/logic_system.cc) over the user
table: `check_email` and `update_pwd` with a driver that answers from the table, or throws at
any of its calls.

A connection of the gate server commits each statement: nothing there switches `autocommit`
off. `same` is MySQL's comparison of two names. `redis_mgr` formats its keys with `%s`: names
and e-mails hold no NUL.
-/
import Learncc.Mysql.Conservation
import Learncc.Mysql.Writes
import Learncc.ChatServer.ProfileCache

namespace Learncc.GateServer

open Json Command
open ProfileCache (User)

/-! ## The database behind the DAO -/

/-- The pool, the user table and what `redis_mgr::get` has for a key. -/
structure Gate where
  pool : List (Option ℕ)
  users : List User
  codes : String → Option String

/-- The calls of the driver that come through, in `check_email` and in `update_pwd`. -/
structure Driver where
  checks : ℕ → Bool
  updates : ℕ → Bool

inductive Thrown
  | logic (e : LogicError)
  | sql (e : Mysql.SQLException)

abbrev Handler (α : Type) : Type := Command Gate Thrown α

variable (same : String → String → Bool)

/-- `WHERE name = ?`. -/
def named (users : List User) (name : String) : List User := users.filter fun u => same u.name name

/-- `UPDATE user SET pwd = ? WHERE name = ?`. -/
def setPwd (users : List User) (name newpwd : String) : List User :=
  users.map fun u => if same u.name name then { u with pwd := newpwd } else u

/-- What a write does to the table. The handler makes one kind. -/
def written (users : List User) : Mysql.Write → List User
  | .updatePwd name newpwd => setPwd same users name newpwd
  | _ => users

/-- The DAO's side of it, as a method begins. -/
def Gate.world (g : Gate) (answer : Mysql.Reply) (comes : ℕ → Bool) : Mysql.World :=
  { pool := g.pool
    conns := fun _ => { autocommit := true, pending := [], lastOperTime := 0 }
    batches := [], con := none, call := 0
    sql := fun i => if comes i then some answer else none
    asked := 0, tx := fun _ => true, txAsked := 0 }

/-- A method of the DAO, and what it has committed done to the table. -/
def dao {α : Type} (method : Mysql.Dao α) (answer : List User → Mysql.Reply) (comes : ℕ → Bool) : Handler α := fun g =>
  (method (g.world (answer g.users) comes)).map fun p =>
    (p.1.mapError .sql,
      { g with
        pool := p.2.pool
        users := (p.2.batches.flatten.map Mysql.Entry.write).foldl (written same) g.users })

/-- The rows of the query in `check_email`, and the email in the first. -/
def emails (name : String) (users : List User) : Mysql.Reply :=
  { num := (named same users name).length, text := ((named same users name).head?.map User.email).getD "" }

def checkEmail (driver : Driver) (name email : String) : Handler Bool :=
  dao same (Mysql.checkEmail name email) (emails same name) driver.checks

/-- An `UPDATE` counts the rows it has found. -/
def updatePwd (driver : Driver) (name newpwd : String) : Handler Bool :=
  dao same (Mysql.updatePwd name newpwd) (fun users => ⟨(named same users name).length, ""⟩) driver.updates

/-! ## The handler -/

def ERR_JSON : ℤ := -1

def ERR_VER_CODE : ℤ := -4

def ERR_EMAIL : ℤ := -7

def ERR_PWD_UPDATE : ℤ := -8

/-- `CODEPREFIX + email`. -/
def codeKey (email : String) : String := "code_" ++ email

def read {α : Type} (x : Except LogicError α) : Handler α := fun g => some (x.mapError .logic, g)

def getCode (key : String) : Handler (Option String) := fun g => some (.ok (g.codes key), g)

/-- A `root` with an error code and nothing else. -/
def refusal (err : ℤ) : Value := .assigned [("err", .int err)]

def resetReply (email name pwd verifyCode : String) : Value :=
  .assigned [("err", .int 0), ("email", .str email), ("user", .str name), ("pwd", .str pwd),
    ("verify_code", .str verifyCode)]

/-- The handler once the code is right. -/
def resetVerified (driver : Driver) (email name pwd verifyCode : String) : Handler Value := do
  let emailValid ← checkEmail same driver name email
  if !emailValid then return refusal ERR_EMAIL
  else
    let bUp ← updatePwd same driver name pwd
    if !bUp then return refusal ERR_PWD_UPDATE
    else return resetReply email name pwd verifyCode

/-- The `/reset_pwd` handler, from what the reader makes of the body to the body of the
answer. -/
def resetPwd (fp : Doubles) (driver : Driver) : Option Value → Handler Value
  | none => return refusal ERR_JSON
  | some srcRoot => do
    let email ← read (srcRoot.stringAt fp "email")
    let name ← read (srcRoot.stringAt fp "user")
    let pwd ← read (srcRoot.stringAt fp "pwd")
    match ← getCode (codeKey email) with
    | none => return refusal ERR_VER_CODE
    | some verifyCode =>
      let given ← read (srcRoot.stringAt fp "verify_code")
      if verifyCode ≠ given then return refusal ERR_VER_CODE
      else resetVerified same driver email name pwd verifyCode

variable {same : String → String → Bool} {fp : Doubles} {driver : Driver} {g g' : Gate}

/-! ## The two methods -/

section Dao

open Mysql (World Reply SQLException FindsNoRow Still bind_reply_cases)

variable {w w' : World}

/-- The first row's email, read twice. -/
theorem compareEmail_cases {email : String} {r : Except SQLException Bool}
    (h : Mysql.compareEmail email w = some (r, w')) :
    Still w w' ∧ ∀ b, r = .ok b → ∃ reply, w.sql (w.asked + 1) = some reply ∧ b = (email == reply.text) := by
  rcases bind_reply_cases h with ⟨-, rfl, rfl⟩ | ⟨reply, -, h⟩
  · exact ⟨⟨rfl, rfl⟩, fun b hb => (by cases hb)⟩
  rcases bind_reply_cases h with ⟨-, rfl, rfl⟩ | ⟨reply, hreply, h⟩
  · exact ⟨⟨rfl, rfl⟩, fun b hb => (by cases hb)⟩
  · cases h
    refine ⟨⟨rfl, rfl⟩, fun b hb => ⟨reply, hreply, ?_⟩⟩
    cases hb
    rfl

/-- What the driver answers a `check_email` whose first row has the email. -/
def FindsEmail (email : String) (sql : ℕ → Option Reply) : Prop :=
  ∃ reply row, sql 2 = some row ∧ 0 < row.num.toNat ∧ sql 5 = some reply ∧ email = reply.text

/-- What `check_email` does with a connection. -/
theorem checkEmail_body {name email : String} {r : Except SQLException Bool} (hasked : w.asked = 0)
    (h : (tryCatch (do if ← Mysql.emailRow name then Mysql.compareEmail email else return true)
      (fun _ => do Mysql.returnConn; return false) : Mysql.Dao Bool) w = some (r, w')) :
    Still w w' ∧ (FindsNoRow w.sql ∧ r = .ok true ∧ w'.pool = w.pool ∨ ¬ FindsNoRow w.sql ∧
      ∃ b, r = .ok b ∧ (b = true → FindsEmail email w.sql)) := by
  have hrow : ∀ {q : Except SQLException Bool} {v : World}, Mysql.emailRow name w = some (q, v) →
      (∃ e, q = .error e) ∧ ¬ FindsNoRow w.sql ∧ Still w v ∨
        v = w.tick.tick.tick.tick ∧ ∃ row, w.sql 2 = some row ∧
          (q = .ok false ∧ FindsNoRow w.sql ∨ q = .ok true ∧ ¬ FindsNoRow w.sql ∧ 0 < row.num.toNat) := by
    intro q v hq
    rcases Mysql.emailRow_answered hasked hq with ⟨hno, herror, -, -, hstill⟩ | ⟨hans, hv, row, hsql, rfl⟩
    · refine .inl ⟨herror, fun hfinds => hno ⟨hfinds.1, hfinds.2.1, ?_, hfinds.2.2.2⟩, hstill⟩
      obtain ⟨-, -, ⟨row, hsql, -⟩, -⟩ := hfinds
      rw [hsql]
      rfl
    · refine .inr ⟨hv, row, hsql, ?_⟩
      rw [Mysql.findsNoRow_iff hans hsql]
      rcases Nat.eq_zero_or_pos row.num.toNat with hzero | hpos
      · exact .inl ⟨by rw [hzero]; rfl, hzero⟩
      · exact .inr ⟨by rw [decide_eq_true hpos], by omega, hpos⟩
  rcases tryCatch_eq_some_iff.1 h with ⟨a, hblock, rfl⟩ | ⟨e, v, hblock, hcatch⟩
  · rcases bind_eq_some_iff.1 hblock with ⟨b, v, hb, hblock⟩ | ⟨e, hb, he⟩
    · rcases hrow hb with ⟨⟨e, he⟩, -⟩ | ⟨rfl, row, hsql, ⟨hq, hno⟩ | ⟨hq, hno, hpos⟩⟩
      · cases he
      · cases hq
        obtain ⟨hr, rfl⟩ := pure_eq_some_iff.1 hblock
        cases hr
        exact ⟨⟨rfl, rfl⟩, .inl ⟨hno, rfl, rfl⟩⟩
      · cases hq
        obtain ⟨hstill, hcompare⟩ := compareEmail_cases hblock
        obtain ⟨reply, hreply, ha⟩ := hcompare a rfl
        simp only [World.tick, hasked] at hreply
        refine ⟨hstill, .inr ⟨hno, a, rfl, fun htrue => ⟨reply, row, hsql, hpos, hreply, ?_⟩⟩⟩
        rw [htrue] at ha
        exact beq_iff_eq.1 ha.symm
    · cases he
  · cases hcatch
    rcases bind_eq_some_iff.1 hblock with ⟨b, u, hb, hblock⟩ | ⟨e', hb, -⟩
    · rcases hrow hb with ⟨⟨e, he⟩, -⟩ | ⟨rfl, row, hsql, ⟨hq, hno⟩ | ⟨hq, hno, hpos⟩⟩
      · cases he
      · cases hq
        cases (pure_eq_some_iff.1 hblock).1
      · cases hq
        obtain ⟨hstill, -⟩ := compareEmail_cases hblock
        exact ⟨hstill, .inr ⟨hno, false, rfl, fun htrue => absurd htrue Bool.false_ne_true⟩⟩
    · rcases hrow hb with ⟨-, hno, hstill⟩ | ⟨-, row, -, ⟨hq, -⟩ | ⟨hq, -⟩⟩
      · exact ⟨hstill, .inr ⟨hno, false, rfl, fun htrue => absurd htrue Bool.false_ne_true⟩⟩
      · cases hq
      · cases hq

/-- `check_email` with the answers from the first on: without a row it is true and the
connection is gone; with one, the first row has the email. -/
theorem checkEmail_cases {name email : String} {r : Except SQLException Bool} (hasked : w.asked = 0)
    (h : Mysql.checkEmail name email w = some (r, w')) :
    Still w w' ∧ ((∃ c, w.pool = some c :: w'.pool) ∧ FindsNoRow w.sql ∧ r = .ok true ∨
      ((∃ c rest, w.pool = some c :: rest) → ¬ FindsNoRow w.sql) ∧ ∃ b, r = .ok b ∧
        (b = true → FindsEmail email w.sql)) := by
  rcases Mysql.withConn_cases h with ⟨pool, hpool, rfl, rfl⟩ | ⟨c, pool, t, hpool, hrest, rfl⟩
  · refine ⟨⟨rfl, rfl⟩, .inr ⟨fun hc => ?_, false, rfl, fun htrue => absurd htrue Bool.false_ne_true⟩⟩
    obtain ⟨c, rest, hc⟩ := hc
    cases hpool.symm.trans hc
  · obtain ⟨hstill, ⟨hno, hr, hkept⟩ | ⟨hno, hb⟩⟩ := checkEmail_body (w := { w with pool, con := some c }) hasked hrest
    · refine ⟨hstill, .inl ⟨⟨c, ?_⟩, hno, hr⟩⟩
      rw [hpool]
      exact congrArg _ hkept.symm
    · exact ⟨hstill, .inr ⟨fun _ => hno, hb⟩⟩

end Dao

/-! ## Over the table -/

/-- No row has the name. -/
def Nobody (same : String → String → Bool) (users : List User) (name : String) : Prop :=
  ∀ u ∈ users, same u.name name = false

/-- The next connection of the pool is one, and the first four calls through it come back. -/
def Reached (g : Gate) (comes : ℕ → Bool) : Prop := (∃ c rest, g.pool = some c :: rest) ∧ ∀ i < 4, comes i = true

theorem named_eq_nil_iff {users : List User} {name : String} : named same users name = [] ↔ Nobody same users name := by
  simp only [named, List.filter_eq_nil_iff, Bool.not_eq_true, Nobody]

theorem world_sql_iff {answer : Mysql.Reply} {comes : ℕ → Bool} {i : ℕ} {reply : Mysql.Reply} :
    (g.world answer comes).sql i = some reply ↔ comes i = true ∧ reply = answer := by
  show (if comes i then some answer else none) = some reply ↔ _
  split
  · rename_i hcomes
    rw [Option.some.injEq, eq_comm]
    exact ⟨fun h => ⟨hcomes, h⟩, fun h => h.2⟩
  · rename_i hcomes
    exact ⟨fun h => (by cases h), fun h => absurd h.1 hcomes⟩

theorem world_isSome_iff {answer : Mysql.Reply} {comes : ℕ → Bool} {i : ℕ} :
    ((g.world answer comes).sql i).isSome = true ↔ comes i = true := by
  rw [Option.isSome_iff_exists]
  constructor
  · intro h
    obtain ⟨reply, hreply⟩ := h
    exact (world_sql_iff.1 hreply).1
  · intro h
    exact ⟨answer, world_sql_iff.2 ⟨h, rfl⟩⟩

theorem forall_lt_four {p : ℕ → Prop} : (∀ i < 4, p i) ↔ p 0 ∧ p 1 ∧ p 2 ∧ p 3 := by
  constructor
  · intro h
    exact ⟨h 0 (by decide), h 1 (by decide), h 2 (by decide), h 3 (by decide)⟩
  · intro h i hi
    obtain ⟨h₀, h₁, h₂, h₃⟩ := h
    interval_cases i
    · exact h₀
    · exact h₁
    · exact h₂
    · exact h₃

theorem world_answered_iff {answer : Mysql.Reply} {comes : ℕ → Bool} :
    Mysql.Answered (g.world answer comes).sql ↔ ∀ i < 4, comes i = true := by
  rw [forall_lt_four]
  simp only [Mysql.Answered, world_isSome_iff]

theorem world_finds_no_row_iff {name : String} {comes : ℕ → Bool} :
    Mysql.FindsNoRow (g.world (emails same name g.users) comes).sql ↔
      (∀ i < 4, comes i = true) ∧ Nobody same g.users name := by
  have hlength : (emails same name g.users).num.toNat = 0 ↔ Nobody same g.users name := by
    rw [← named_eq_nil_iff, ← List.length_eq_zero_iff]
    exact Int.toNat_natCast _ ▸ Iff.rfl
  rw [forall_lt_four, ← hlength]
  simp only [Mysql.FindsNoRow, world_isSome_iff, world_sql_iff]
  constructor
  · intro h
    obtain ⟨h₀, h₁, ⟨reply, ⟨h₂, rfl⟩, hzero⟩, h₃⟩ := h
    exact ⟨⟨h₀, h₁, h₂, h₃⟩, hzero⟩
  · intro h
    obtain ⟨⟨h₀, h₁, h₂, h₃⟩, hzero⟩ := h
    exact ⟨h₀, h₁, ⟨_, ⟨h₂, rfl⟩, hzero⟩, h₃⟩

/-- **`check_email` over the table.** It takes an unknown name for a right one, and keeps the
connection; of a known name it is true only of an email the name has. -/
theorem checkEmail_spec {name email : String} {r : Except Thrown Bool}
    (h : checkEmail same driver name email g = some (r, g')) :
    g'.users = g.users ∧ ∃ b, r = .ok b ∧
      ((∃ c, g.pool = some c :: g'.pool) ∧ (∀ i < 4, driver.checks i = true) ∧ Nobody same g.users name ∧ b = true ∨
        ¬ (Reached g driver.checks ∧ Nobody same g.users name) ∧
          (b = true → ∃ u ∈ g.users, same u.name name = true ∧ u.email = email)) := by
  obtain ⟨⟨q, w⟩, hq, hp⟩ := Option.map_eq_some_iff.1 h
  cases hp
  obtain ⟨⟨-, hbatches⟩, hcases⟩ := checkEmail_cases rfl hq
  refine ⟨?_, ?_⟩
  · show ((w.batches.flatten.map Mysql.Entry.write).foldl (written same) g.users) = _
    rw [hbatches]
    rfl
  · rw [world_finds_no_row_iff] at hcases
    rcases hcases with ⟨hlost, hno, rfl⟩ | ⟨hno, b, rfl, hb⟩
    · exact ⟨true, rfl, .inl ⟨hlost, hno.1, hno.2, rfl⟩⟩
    · refine ⟨b, rfl, .inr ⟨fun hreached => hno hreached.1.1 ⟨hreached.1.2, hreached.2⟩, fun htrue => ?_⟩⟩
      obtain ⟨reply, row, hrow, hpos, hreply, rfl⟩ := hb htrue
      obtain ⟨-, rfl⟩ := world_sql_iff.1 hrow
      obtain ⟨-, rfl⟩ := world_sql_iff.1 hreply
      -- There is a row, and the answer's text is the email of the first.
      cases hnamed : named same g.users name with
      | nil =>
        have hzero : (emails same name g.users).num = 0 := by rw [emails, hnamed]; rfl
        rw [hzero] at hpos
        exact absurd hpos (by decide)
      | cons u rest =>
        have hu : u ∈ named same g.users name := hnamed ▸ List.mem_cons_self
        obtain ⟨hmem, hname⟩ := List.mem_filter.1 hu
        refine ⟨u, hmem, hname, ?_⟩
        rw [emails, hnamed]
        rfl

/-- **`update_pwd` over the table.** It is true once the statement has come through, however
many rows there are. -/
theorem updatePwd_spec {name newpwd : String} {r : Except Thrown Bool}
    (h : updatePwd same driver name newpwd g = some (r, g')) :
    ¬ Reached g driver.updates ∧ r = .ok false ∧ g'.users = g.users ∨
      Reached g driver.updates ∧ r = .ok true ∧ g'.users = setPwd same g.users name newpwd := by
  obtain ⟨⟨q, w⟩, hq, hp⟩ := Option.map_eq_some_iff.1 h
  cases hp
  have hstill : Mysql.Still (g.world ⟨(named same g.users name).length, ""⟩ driver.updates) w →
      (w.batches.flatten.map Mysql.Entry.write).foldl (written same) g.users = g.users := by
    intro hstill
    rw [hstill.2]
    rfl
  rcases Mysql.updates_updatePwd name newpwd _ _ _ rfl hq with ⟨pool, hpool, rfl, hs⟩ |
    ⟨c, pool, hpool, ⟨hno, rfl, hs⟩ | ⟨hans, rfl, hwrote⟩⟩
  · refine .inl ⟨fun hreached => ?_, rfl, hstill hs⟩
    obtain ⟨⟨c, rest, hc⟩, -⟩ := hreached
    cases hpool.symm.trans hc
  · exact .inl ⟨fun hreached => hno (world_answered_iff.2 hreached.2), rfl, hstill hs⟩
  · refine .inr ⟨⟨⟨c, pool, hpool⟩, world_answered_iff.1 hans⟩, rfl, ?_⟩
    rw [Mysql.Wrote, if_pos (by rfl)] at hwrote
    show ((w.batches.flatten.map Mysql.Entry.write).foldl (written same) g.users) = _
    rw [hwrote.2]
    rfl

/-! ## The answer -/

/-- What the body asks for. -/
structure Asks (fp : Doubles) (srcRoot : Option Value) (email name newpwd code : String) : Prop where
  email : srcRoot.map (Value.stringAt fp "email") = some (.ok email)
  name : srcRoot.map (Value.stringAt fp "user") = some (.ok name)
  newpwd : srcRoot.map (Value.stringAt fp "pwd") = some (.ok newpwd)
  code : srcRoot.map (Value.stringAt fp "verify_code") = some (.ok code)

/-- The answer has `err = 0`. -/
def Succeeds (r : Except Thrown Value) : Prop := ∃ value, r = .ok value ∧ value.member "err" = .ok (.int 0)

/-- The code was right, and a user with that name and that email has the new password. -/
def Done (same : String → String → Bool) (fp : Doubles) (srcRoot : Option Value) (g g' : Gate) : Prop :=
  ∃ email name newpwd code, Asks fp srcRoot email name newpwd code ∧ g.codes (codeKey email) = some code ∧
    ∃ u ∈ g.users, same u.name name = true ∧ u.email = email ∧ { u with pwd := newpwd } ∈ g'.users

/-- The answer is true. -/
structure Truthful (same : String → String → Bool) (fp : Doubles) (srcRoot : Option Value) (r : Except Thrown Value)
    (g g' : Gate) : Prop where
  done : Succeeds r → Done same fp srcRoot g g'
  kept : ¬ Succeeds r → g'.users = g.users

/-- Two connections, and every call of the driver through them comes back. -/
def BothReached (g : Gate) (driver : Driver) : Prop :=
  (∃ c d rest, g.pool = some c :: some d :: rest) ∧ ∀ i < 4, driver.checks i = true ∧ driver.updates i = true

/-- The code is right for a name that nobody has, and the database can be reached twice. -/
def AsksForNobody (same : String → String → Bool) (fp : Doubles) (driver : Driver) (srcRoot : Option Value)
    (g : Gate) : Prop :=
  ∃ email name newpwd code, Asks fp srcRoot email name newpwd code ∧ g.codes (codeKey email) = some code ∧
    Nobody same g.users name ∧ BothReached g driver

theorem Asks.unique {srcRoot : Option Value} {email name newpwd code email' name' newpwd' code' : String}
    (h : Asks fp srcRoot email name newpwd code) (h' : Asks fp srcRoot email' name' newpwd' code') :
    email = email' ∧ name = name' ∧ newpwd = newpwd' ∧ code = code' := by
  refine ⟨?_, ?_, ?_, ?_⟩
  · exact Except.ok.inj (Option.some.inj (h.email.symm.trans h'.email))
  · exact Except.ok.inj (Option.some.inj (h.name.symm.trans h'.name))
  · exact Except.ok.inj (Option.some.inj (h.newpwd.symm.trans h'.newpwd))
  · exact Except.ok.inj (Option.some.inj (h.code.symm.trans h'.code))

theorem not_succeeds_refusal {err : ℤ} (h : err ≠ 0) : ¬ Succeeds (.ok (refusal err)) := by
  intro hs
  obtain ⟨value, hvalue, herr⟩ := hs
  cases hvalue
  have hmember : (refusal err).member "err" = .ok (.int err) := rfl
  rw [hmember] at herr
  cases herr
  exact h rfl

theorem not_succeeds_error (e : Thrown) : ¬ Succeeds (.error e) := by
  intro hs
  obtain ⟨value, hvalue, -⟩ := hs
  cases hvalue

theorem succeeds_resetReply (email name pwd verifyCode : String) :
    Succeeds (.ok (resetReply email name pwd verifyCode)) := by
  refine ⟨_, rfl, ?_⟩
  simp [resetReply, Value.assigned, Value.insert, List.cons_lt_cons_iff, Value.member, List.lookup]

theorem read_bind_cases {α β : Type} {x : Except LogicError α} {f : α → Handler β} {r : Except Thrown β}
    (h : (read x >>= f) g = some (r, g')) :
    (∃ e, x = .error e) ∧ (∃ e, r = .error e) ∧ g' = g ∨ ∃ a, x = .ok a ∧ f a g = some (r, g') := by
  cases x with
  | ok a => exact .inr ⟨a, rfl, h⟩
  | error e =>
    cases h
    exact .inl ⟨⟨e, rfl⟩, ⟨_, rfl⟩, rfl⟩

/-- Up to the code. -/
theorem resetPwd_cases {srcRoot : Option Value} {r : Except Thrown Value}
    (h : resetPwd same fp driver srcRoot g = some (r, g')) :
    g' = g ∧ ¬ Succeeds r ∧
        (∀ email name newpwd code, Asks fp srcRoot email name newpwd code → g.codes (codeKey email) ≠ some code) ∨
      ∃ email name newpwd code, Asks fp srcRoot email name newpwd code ∧ g.codes (codeKey email) = some code ∧
        resetVerified same driver email name newpwd code g = some (r, g') := by
  cases srcRoot with
  | none =>
    cases h
    exact .inl ⟨rfl, not_succeeds_refusal (by decide), fun _ _ _ _ hasks => (by cases hasks.email)⟩
  | some srcRoot =>
    rcases read_bind_cases h with ⟨⟨e, he⟩, ⟨e', rfl⟩, rfl⟩ | ⟨email, hemail, h⟩
    · refine .inl ⟨rfl, not_succeeds_error _, fun _ _ _ _ hasks => ?_⟩
      cases he.symm.trans (Option.some.inj hasks.email)
    rcases read_bind_cases h with ⟨⟨e, he⟩, ⟨e', rfl⟩, rfl⟩ | ⟨name, hname, h⟩
    · refine .inl ⟨rfl, not_succeeds_error _, fun _ _ _ _ hasks => ?_⟩
      cases he.symm.trans (Option.some.inj hasks.name)
    rcases read_bind_cases h with ⟨⟨e, he⟩, ⟨e', rfl⟩, rfl⟩ | ⟨newpwd, hnewpwd, h⟩
    · refine .inl ⟨rfl, not_succeeds_error _, fun _ _ _ _ hasks => ?_⟩
      cases he.symm.trans (Option.some.inj hasks.newpwd)
    rw [bind_of_ok (show getCode (codeKey email) g = some (.ok (g.codes (codeKey email)), g) from rfl)] at h
    have hasked : ∀ {email' name' newpwd' code'}, Asks fp (some srcRoot) email' name' newpwd' code' → email' = email :=
      fun hasks => Except.ok.inj ((Option.some.inj hasks.email).symm.trans hemail)
    cases hcode : g.codes (codeKey email) with
    | none =>
      rw [hcode] at h
      cases h
      refine .inl ⟨rfl, not_succeeds_refusal (by decide), fun _ _ _ _ hasks he => ?_⟩
      rw [hasked hasks, hcode] at he
      cases he
    | some verifyCode =>
      rw [hcode] at h
      rcases read_bind_cases h with ⟨⟨e, he⟩, ⟨e', rfl⟩, rfl⟩ | ⟨given, hgiven, h⟩
      · refine .inl ⟨rfl, not_succeeds_error _, fun _ _ _ _ hasks => ?_⟩
        cases he.symm.trans (Option.some.inj hasks.code)
      split at h
      · rename_i hne
        cases h
        refine .inl ⟨rfl, not_succeeds_refusal (by decide), fun email' _ _ code' hasks he => hne ?_⟩
        rw [hasked hasks, hcode] at he
        rw [Option.some.inj he]
        exact Except.ok.inj ((Option.some.inj hasks.code).symm.trans hgiven)
      · rename_i heq
        rw [not_ne_iff] at heq
        subst heq
        exact .inr ⟨email, name, newpwd, verifyCode, ⟨congrArg _ hemail, congrArg _ hname, congrArg _ hnewpwd,
          congrArg _ hgiven⟩, hcode, h⟩

/-- The rest: what is answered without a change, and with one. -/
theorem resetVerified_cases {email name newpwd verifyCode : String} {r : Except Thrown Value}
    (h : resetVerified same driver email name newpwd verifyCode g = some (r, g')) :
    ¬ Succeeds r ∧ g'.users = g.users ∧ ¬ (Nobody same g.users name ∧ BothReached g driver) ∨
      Succeeds r ∧ (Nobody same g.users name ∧ BothReached g driver ∨
        g'.users = setPwd same g.users name newpwd ∧ ∃ u ∈ g.users, same u.name name = true ∧ u.email = email) := by
  rcases bind_eq_some_iff.1 h with ⟨b, g₁, hb, h⟩ | ⟨e, he, -⟩
  · obtain ⟨husers, b', hq, hcases⟩ := checkEmail_spec hb
    cases hq
    cases b with
    | false =>
      cases h
      refine .inl ⟨not_succeeds_refusal (by decide), husers, fun hboth => ?_⟩
      rcases hcases with ⟨-, -, -, htrue⟩ | ⟨hnot, -⟩
      · cases htrue
      · obtain ⟨hno, ⟨c, d, rest, hpool⟩, hcomes⟩ := hboth
        exact hnot ⟨⟨⟨c, _, hpool⟩, fun i hi => (hcomes i hi).1⟩, hno⟩
    | true =>
      rcases bind_eq_some_iff.1 h with ⟨up, g₂, hup, h⟩ | ⟨e, he, -⟩
      · rcases updatePwd_spec hup with ⟨hnot, hq, hkept⟩ | ⟨hreached, hq, hset⟩
        · cases hq
          cases h
          refine .inl ⟨not_succeeds_refusal (by decide), hkept.trans husers, fun hboth => ?_⟩
          obtain ⟨hno, ⟨c, d, rest, hpool⟩, hcomes⟩ := hboth
          rcases hcases with ⟨⟨c', hlost⟩, -⟩ | ⟨hcheck, -⟩
          · rw [hpool] at hlost
            exact hnot ⟨⟨d, rest, (List.cons.inj hlost).2.symm⟩, fun i hi => (hcomes i hi).2⟩
          · exact hcheck ⟨⟨⟨c, _, hpool⟩, fun i hi => (hcomes i hi).1⟩, hno⟩
        · cases hq
          cases h
          refine .inr ⟨succeeds_resetReply email name newpwd verifyCode, ?_⟩
          rcases hcases with ⟨⟨c, hlost⟩, hcomes, hno, -⟩ | ⟨-, hfound⟩
          · obtain ⟨⟨d, rest, hpool⟩, hupdates⟩ := hreached
            rw [hpool] at hlost
            exact .inl ⟨hno, ⟨c, d, rest, hlost⟩, fun i hi => ⟨hcomes i hi, hupdates i hi⟩⟩
          · rw [husers] at hset
            exact .inr ⟨hset, hfound rfl⟩
      · rcases updatePwd_spec he with ⟨-, hq, -⟩ | ⟨-, hq, -⟩
        · cases hq
        · cases hq
  · obtain ⟨-, b', hq, -⟩ := checkEmail_spec he
    cases hq

/-- **When `/reset_pwd` tells the truth.** An answer with `err = 0` means that the code was
right and that a user with the name and the email has the new password, and any other answer
that the table is as before, exactly if the request is not one with the right code for a name
that nobody has, answered by a database that can be reached. -/
theorem resetPwd_iff {srcRoot : Option Value} {r : Except Thrown Value}
    (h : resetPwd same fp driver srcRoot g = some (r, g')) :
    Truthful same fp srcRoot r g g' ↔ ¬ AsksForNobody same fp driver srcRoot g := by
  rcases resetPwd_cases h with ⟨rfl, hnot, hcode⟩ | ⟨email, name, newpwd, code, hasks, hcode, hverified⟩
  · refine iff_of_true ⟨fun hs => absurd hs hnot, fun _ => rfl⟩ fun hnobody => ?_
    obtain ⟨email, name, newpwd, code, hasks, hright, -⟩ := hnobody
    exact hcode email name newpwd code hasks hright
  have hnobody : AsksForNobody same fp driver srcRoot g ↔ Nobody same g.users name ∧ BothReached g driver := by
    constructor
    · intro hfor
      obtain ⟨email', name', newpwd', code', hasks', -, hno⟩ := hfor
      obtain ⟨-, rfl, -⟩ := hasks.unique hasks'
      exact hno
    · intro hno
      exact ⟨email, name, newpwd, code, hasks, hcode, hno⟩
  rw [hnobody]
  rcases resetVerified_cases hverified with ⟨hnot, hkept, hno⟩ | ⟨hs, hno | ⟨hset, u, hu, hname, hemail⟩⟩
  · exact iff_of_true ⟨fun hs => absurd hs hnot, fun _ => hkept⟩ hno
  · refine iff_of_false (fun htrue => ?_) fun hnot => hnot hno
    obtain ⟨email', name', newpwd', code', hasks', -, u, hu, hname, -⟩ := htrue.done hs
    obtain ⟨-, rfl, -⟩ := hasks.unique hasks'
    rw [hno.1 u hu] at hname
    cases hname
  · refine iff_of_true ⟨fun _ => ?_, fun hnot => absurd hs hnot⟩ fun hno => ?_
    · refine ⟨email, name, newpwd, code, hasks, hcode, u, hu, hname, hemail, ?_⟩
      rw [hset, setPwd]
      refine List.mem_map.2 ⟨u, hu, ?_⟩
      rw [if_pos hname]
    · rw [hno.1 u hu] at hname
      cases hname

/-- The code for one email, and two connections. -/
def oneCode (users : List User) : Gate :=
  { pool := [some 0, some 1], users, codes := fun key => if key = "code_ada@a" then some "1234" else none }

def request (name : String) : Value :=
  .obj [("email", .str "ada@a"), ("pwd", .str "new"), ("user", .str name), ("verify_code", .str "1234")]

def noDoubles : Doubles := ProfileCache.alone.fp

def answering : Driver := ⟨fun _ => true, fun _ => true⟩

theorem resetPwd_iff_ada : ∃ r g', resetPwd (· == ·) noDoubles answering (some (request "ada"))
    (oneCode [ProfileCache.ada]) = some (r, g') ∧ Succeeds r ∧
      Truthful (· == ·) noDoubles (some (request "ada")) r (oneCode [ProfileCache.ada]) g' := by
  have hrun : resetPwd (· == ·) noDoubles answering (some (request "ada")) (oneCode [ProfileCache.ada]) =
      some (.ok (resetReply "ada@a" "ada" "new" "1234"), _) := rfl
  refine ⟨_, _, hrun, succeeds_resetReply _ _ _ _, (resetPwd_iff hrun).2 fun hfor => ?_⟩
  obtain ⟨email, name, newpwd, code, hasks, -, hno, -⟩ := hfor
  cases hasks.name
  exact absurd (hno ProfileCache.ada List.mem_cons_self) (by decide)

/-- Nobody is called "eve", and her password is reset. -/
theorem not_truthful_eve : ∃ r g', resetPwd (· == ·) noDoubles answering (some (request "eve"))
    (oneCode [ProfileCache.ada]) = some (r, g') ∧ Succeeds r ∧ g'.users = [ProfileCache.ada] ∧
      ¬ Truthful (· == ·) noDoubles (some (request "eve")) r (oneCode [ProfileCache.ada]) g' := by
  have hrun : resetPwd (· == ·) noDoubles answering (some (request "eve")) (oneCode [ProfileCache.ada]) =
      some (.ok (resetReply "ada@a" "eve" "new" "1234"), ⟨[some 1], [ProfileCache.ada], _⟩) := rfl
  refine ⟨_, _, hrun, succeeds_resetReply _ _ _ _, rfl, fun htrue => ?_⟩
  obtain ⟨email, name, newpwd, code, hasks, -, u, hu, hname, -⟩ := htrue.done (succeeds_resetReply _ _ _ _)
  cases hasks.name
  cases List.mem_singleton.1 hu
  exact absurd hname (by decide)

end Learncc.GateServer
