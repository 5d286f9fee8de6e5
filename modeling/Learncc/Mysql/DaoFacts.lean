/-
What the DAO methods keep, from what the driver and the guard of the
connection keep (`Kept`): each method that uses the guard keeps a relation
between the worlds before and after once the primitive commands do. The
lemmas `ask_cases`, `askTx_cases` and `withConn_cases` say what can happen at
one command.
-/
import Learncc.Mysql.Dao

namespace Learncc.Mysql

open Command

/-- One more answer of the driver is used up. -/
def World.tick (w : World) : World := { w with asked := w.asked + 1 }

theorem ask_cases {w w' : World} {r : Except SQLException Reply} (h : ask w = some (r, w')) :
    (∃ c, w.con = some c) ∧ w' = w.tick ∧
      (w.sql w.asked = none ∧ r = .error ⟨⟩ ∨ ∃ reply, w.sql w.asked = some reply ∧ r = .ok reply) := by
  unfold ask at h
  split at h
  · cases h
  rename_i c hc
  refine ⟨⟨c, hc⟩, ?_⟩
  split at h
  · rename_i hnone
    cases h
    exact ⟨rfl, .inl ⟨hnone, rfl⟩⟩
  · rename_i reply hsome
    cases h
    exact ⟨rfl, .inr ⟨reply, hsome, rfl⟩⟩

/-- A call of the driver, and what is done with its answer. -/
theorem bind_ask_cases {β : Type} {g : Reply → Dao β} {w w' : World} {r : Except SQLException β}
    (h : (ask >>= g) w = some (r, w')) :
    w.sql w.asked = none ∧ r = .error ⟨⟩ ∧ w' = w.tick ∨
      ∃ reply, w.sql w.asked = some reply ∧ g reply w.tick = some (r, w') := by
  rcases bind_eq_some_iff.1 h with ⟨reply, t, hask, hg⟩ | ⟨e, hask, rfl⟩
  · obtain ⟨-, rfl, ⟨-, he⟩ | ⟨reply', hreply, he⟩⟩ := ask_cases hask
    · cases he
    · cases he
      exact .inr ⟨reply, hreply, hg⟩
  · obtain ⟨-, rfl, ⟨hnone, he⟩ | ⟨reply', hreply, he⟩⟩ := ask_cases hask
    · exact .inl ⟨hnone, rfl, rfl⟩
    · cases he

/-- The same for the calls that keep part of the answer. -/
theorem bind_reply_cases {α β : Type} {f : Reply → α} {g : α → Dao β} {w w' : World} {r : Except SQLException β}
    (h : ((do let reply ← ask; return f reply : Dao α) >>= g) w = some (r, w')) :
    w.sql w.asked = none ∧ r = .error ⟨⟩ ∧ w' = w.tick ∨
      ∃ reply, w.sql w.asked = some reply ∧ g (f reply) w.tick = some (r, w') := by
  rcases bind_eq_some_iff.1 h with ⟨a, t, hreply, hg⟩ | ⟨e, hreply, rfl⟩
  · rcases bind_ask_cases hreply with ⟨-, he, -⟩ | ⟨reply, hs, hpure⟩
    · cases he
    · obtain ⟨he, rfl⟩ := pure_eq_some_iff.1 hpure
      cases he
      exact .inr ⟨reply, hs, hg⟩
  · rcases bind_ask_cases hreply with ⟨hs, -, rfl⟩ | ⟨reply, hs, hpure⟩
    · exact .inl ⟨hs, rfl, rfl⟩
    · obtain ⟨he, -⟩ := pure_eq_some_iff.1 hpure
      cases he

theorem askTx_cases {f : World → ℕ → World} {w w' : World} {r : Except SQLException Unit}
    (h : askTx f w = some (r, w')) :
    ∃ c, w.con = some c ∧
      (w.tx w.txAsked = true ∧ r = .ok () ∧ w' = f { w with txAsked := w.txAsked + 1 } c ∨
        w.tx w.txAsked = false ∧ r = .error ⟨⟩ ∧ w' = { w with txAsked := w.txAsked + 1 }) := by
  unfold askTx at h
  split at h
  · cases h
  rename_i c hc
  refine ⟨c, hc, ?_⟩
  simp only [Nat.add_sub_cancel] at h
  split at h
  · rename_i htx
    cases h
    exact .inl ⟨htx, rfl, rfl⟩
  · rename_i htx
    cases h
    exact .inr ⟨Bool.eq_false_iff.2 htx, rfl, rfl⟩

/-- A method takes the first connection of the pool. -/
theorem withConn_cases {α : Type} {a : α} {rest : Dao α} {w w' : World} {r : Except SQLException α}
    (h : method (withConn a rest) w = some (r, w')) :
    (∃ pool, w.pool = none :: pool ∧ r = .ok a ∧ w' = { w with pool }) ∨
      ∃ c pool t, w.pool = some c :: pool ∧ rest { w with pool, con := some c } = some (r, t) ∧
        w' = { t with con := w.con } := by
  obtain ⟨⟨q, t⟩, hbody, hp⟩ := Option.map_eq_some_iff.1 h
  cases hp
  unfold withConn at hbody
  rcases bind_eq_some_iff.1 hbody with ⟨u, v, hget, hbody⟩ | ⟨e, hget, -⟩
  · unfold getConn at hget
    split at hget
    · cases hget
    rename_i c pool hpool
    cases hget
    cases c with
    | none =>
      obtain ⟨rfl, rfl⟩ := pure_eq_some_iff.1 hbody
      exact .inl ⟨pool, hpool, rfl, rfl⟩
    | some c => exact .inr ⟨c, pool, t, hpool, hbody, rfl⟩
  · unfold getConn at hget
    split at hget <;> cases hget

/-- The relation is kept by the driver, and by what a guard does around
commands that keep it. -/
structure Kept (R : World → World → Prop) : Prop where
  ask : Keeps R ask
  write : ∀ write, Keeps R (onCon fun w c => w.write c write)
  beginTransaction : Keeps R (onCon World.beginTransaction)
  commit : Keeps R commit
  rollback : Keeps R rollback
  deferReturn : ∀ {α : Type} (a : α) {rest : Dao α}, Keeps R rest → Keeps R (method (withConn a (deferReturn rest)))

namespace Kept

variable {R : World → World → Prop} [IsPreorder World R]

theorem reply {α : Type} (h : Kept R) (f : Reply → α) : Keeps R (do let reply ← Mysql.ask; return f reply) :=
  h.ask.bind fun _ => .pure _

theorem prepareStatement (h : Kept R) (sql : String) : Keeps R (prepareStatement sql) := h.reply _

theorem setString (h : Kept R) (index : ℕ) (value : String) : Keeps R (setString index value) := h.reply _

theorem setInt (h : Kept R) (index : ℕ) (value : ℤ) : Keeps R (setInt index value) := h.reply _

theorem createStatement (h : Kept R) : Keeps R createStatement := h.reply _

theorem executeQuery (h : Kept R) : Keeps R executeQuery := h.reply _

theorem next (h : Kept R) (rows : ℕ) : Keeps R (next rows) := h.reply _

theorem getString (h : Kept R) (column : String) : Keeps R (getString column) := h.reply _

theorem getInt (h : Kept R) (column : String) : Keeps R (getInt column) := h.reply _

theorem executeUpdate (h : Kept R) (write : Write) : Keeps R (executeUpdate write) :=
  h.ask.bind fun _ => (h.write write).bind fun _ => .pure _

theorem setAutoCommitFalse (h : Kept R) : Keeps R setAutoCommitFalse := h.ask.bind fun _ => h.beginTransaction

theorem guarded {α : Type} (h : Kept R) (a b : α) {block : Dao α} (hb : Keeps R block) : Keeps R (guarded a b block) :=
  h.deferReturn a (hb.tryCatch fun _ => .pure _)

/-! ## Methods -/

theorem checkPwd (h : Kept R) (email pwd : String) : Keeps R (checkPwd email pwd) := by
  refine h.guarded _ _ ((h.prepareStatement _).bind fun _ => (h.setString _ _).bind fun _ => h.executeQuery.bind
    fun rows => (h.next rows).bind fun row => ?_)
  have hpwd : Keeps R (rowPwd row) := (h.getString _).ite (.pure _)
  have hcolumn : ∀ {α : Type} {get : Dao α}, Keeps R get → Keeps R (column row get) := fun hget => hget.ite (.throw _)
  refine hpwd.bind fun originPwd => ?_
  split
  · exact .pure _
  · exact (hcolumn (h.getString _)).bind fun _ => (hcolumn (h.getInt _)).bind fun _ => .pure _

/-- The guard inside the `try` does what it does around it. -/
theorem testProcedure (h : Kept R) (email : String) : Keeps R (testProcedure email) := by
  have hblock : ∀ {block : Dao (Option (ℤ × String))}, Keeps R block →
      Keeps R (method <| withConn none <| tryCatch (Mysql.deferReturn block) fun _ => return none) := by
    intro block hb
    have hswap : (tryCatch (Mysql.deferReturn block) fun _ => return none) =
        Mysql.deferReturn (tryCatch block fun _ => return none) := by
      funext w
      show (Option.map _ (block w)).bind _ = ((block w).bind _).map _
      cases block w with
      | none => rfl
      | some p =>
        obtain ⟨q, t⟩ := p
        cases q <;> rfl
    rw [hswap]
    exact h.guarded none none hb
  refine hblock ((h.prepareStatement _).bind fun _ => (h.setString _ _).bind fun _ => (h.executeUpdate _).bind
    fun _ => h.createStatement.bind fun _ => h.executeQuery.bind fun rows => (h.next rows).bind fun row => ?_)
  split
  · refine (h.getInt _).bind fun _ => h.createStatement.bind fun _ => h.executeQuery.bind fun rows =>
      (h.next rows).bind fun row => ?_
    split
    · exact (h.getString _).bind fun _ => .pure _
    · exact .pure _
  · exact .pure _

theorem getUser (h : Kept R) (uid : ℤ) : Keeps R (getUser uid) := by
  refine h.guarded _ _ ((h.prepareStatement _).bind fun _ => (h.setInt _ _).bind fun _ => h.executeQuery.bind
    fun rows => (h.next rows).bind fun row => ?_)
  split
  · exact (h.getString _).bind fun _ => (h.getString _).bind fun _ => (h.getString _).bind fun _ => .pure _
  · exact .pure _

theorem getUserByName (h : Kept R) (name : String) : Keeps R (getUserByName name) := by
  refine h.guarded _ _ ((h.prepareStatement _).bind fun _ => (h.setString _ _).bind fun _ => h.executeQuery.bind
    fun rows => (h.next rows).bind fun row => ?_)
  split
  · exact (h.getString _).bind fun _ => (h.getString _).bind fun _ => (h.getString _).bind fun _ =>
      (h.getString _).bind fun _ => (h.getString _).bind fun _ => (h.getInt _).bind fun _ => (h.getInt _).bind
      fun _ => .pure _
  · exact .pure _

/-- One statement with two numbers. -/
theorem updateTwo (h : Kept R) (sql : String) (a b : ℤ) (write : Write) : Keeps R (do
    Mysql.prepareStatement sql
    Mysql.setInt 1 a
    Mysql.setInt 2 b
    let rowAffected ← Mysql.executeUpdate write
    if (rowAffected : ℤ) < 0 then return false else return true : Dao Bool) := by
  refine (h.prepareStatement _).bind fun _ => (h.setInt _ _).bind fun _ => (h.setInt _ _).bind fun _ =>
    (h.executeUpdate _).bind fun rowAffected => ?_
  split
  · exact .pure _
  · exact .pure _

theorem authFriendApply (h : Kept R) (fromUid toUid : ℤ) : Keeps R (authFriendApply fromUid toUid) :=
  h.guarded _ _ (h.updateTwo _ _ _ _)

theorem addFriendApply (h : Kept R) (fromUid toUid : ℤ) : Keeps R (addFriendApply fromUid toUid) :=
  h.guarded _ _ (h.updateTwo _ _ _ _)

theorem insertFriend (h : Kept R) (selfId friendId : ℤ) (back : String) : Keeps R (insertFriend selfId friendId back) :=
  (h.prepareStatement _).bind fun _ => (h.setInt _ _).bind fun _ => (h.setInt _ _).bind fun _ =>
    (h.setString _ _).bind fun _ => h.executeUpdate _

theorem addFriend (h : Kept R) (fromUid toUid : ℤ) (backName : String) :
    Keeps R (addFriend fromUid toUid backName) := by
  have hback : Keeps R (do Mysql.rollback; return false : Dao Bool) := h.rollback.bind fun _ => .pure _
  refine h.deferReturn _ (Keeps.tryCatch ?_ fun _ => hback)
  refine h.setAutoCommitFalse.bind fun _ => (h.insertFriend _ _ _).bind fun rowAffected => ?_
  split
  · exact hback
  refine (h.insertFriend _ _ _).bind fun rowAffected2 => ?_
  split
  · exact hback
  · exact h.commit.bind fun _ => .pure _

theorem applyRows (h : Kept R) (n : ℕ) (applyList : List ApplyInfo) : Keeps R (applyRows n applyList) := by
  induction n generalizing applyList with
  | zero => exact (h.next _).bind fun _ => .pure _
  | succ n ih =>
    exact (h.next _).bind fun _ => (h.getString _).bind fun _ => (h.getInt _).bind fun _ => (h.getInt _).bind
      fun _ => (h.getString _).bind fun _ => (h.getInt _).bind fun _ => ih _

theorem getApplyList (h : Kept R) (touid first limit : ℤ) : Keeps R (getApplyList touid first limit) :=
  h.guarded _ _ ((h.prepareStatement _).bind fun _ => (h.setInt _ _).bind fun _ => (h.setInt _ _).bind fun _ =>
    (h.setInt _ _).bind fun _ => h.executeQuery.bind fun rows => (h.applyRows rows _).bind fun _ => .pure _)

theorem friendRows (h : Kept R) (n : ℕ) (userInfoList : List UserInfo) : Keeps R (friendRows n userInfoList) := by
  induction n generalizing userInfoList with
  | zero => exact (h.next _).bind fun _ => .pure _
  | succ n ih =>
    refine (h.next _).bind fun _ => (h.getInt _).bind fun friendId => (h.getString _).bind fun _ =>
      (h.getUser friendId).bind fun found => ?_
    cases found with
    | none => exact ih _
    | some userInfo => exact ih _

theorem getFriendList (h : Kept R) (selfId : ℤ) : Keeps R (getFriendList selfId) :=
  h.guarded _ _ ((h.prepareStatement _).bind fun _ => (h.setInt _ _).bind fun _ => h.executeQuery.bind fun rows =>
    (h.friendRows rows _).bind fun _ => .pure _)

/-- Every call, once the methods without a guard are known to keep `R`. -/
theorem run (h : Kept R) {call : Call} (hreg : ∀ name email pwd, Keeps R (regUser name email pwd))
    (hemail : ∀ name email, call = .checkEmail name email → Keeps R (checkEmail name email))
    (hpwd : ∀ name newpwd, Keeps R (updatePwd name newpwd)) : Keeps R call.run := by
  cases call with
  | regUser name email pwd => exact (hreg name email pwd).bind fun _ => .pure _
  | checkEmail name email => exact hemail name email rfl
  | updatePwd name newpwd => exact hpwd name newpwd
  | checkPwd email pwd => exact (h.checkPwd email pwd).bind fun _ => .pure _
  | testProcedure email => exact (h.testProcedure email).bind fun _ => .pure _
  | getUser uid => exact (h.getUser uid).bind fun _ => .pure _
  | getUserByName name => exact (h.getUserByName name).bind fun _ => .pure _
  | authFriendApply fromUid toUid => exact h.authFriendApply fromUid toUid
  | addFriend fromUid toUid backName => exact h.addFriend fromUid toUid backName
  | addFriendApply fromUid toUid => exact h.addFriendApply fromUid toUid
  | getApplyList touid first limit => exact (h.getApplyList touid first limit).bind fun _ => .pure _
  | getFriendList selfId => exact (h.getFriendList selfId).bind fun _ => .pure _

end Kept

end Learncc.Mysql
