/-
`add_friend` and `get_friend_list` (src/chat_server/mysql_dao.cc) over the friend table: a run
of `add_friend` calls that all succeed, and then the list of one user, with a driver that
answers from the friend table and the user table.

(self_id, friend_id) is a unique key of the one table, uid of the other. After its commit no
connection has a transaction open, so the query finds the table as it is; in which order the
rows come is left open.
-/
import Learncc.Lib.Keyed
import Learncc.Mysql.Script
import Learncc.Mysql.Durability
import Learncc.ChatServer.Notify

namespace Learncc.FriendList

open Command
open Mysql (World State Call Op Write Entry Reply UserInfo Answers NoNull Ahead)
open Notify (UserRow)

/-- A row of the friend table. -/
structure FriendRow where
  selfId : ℤ
  friendId : ℤ
  back : String
deriving Repr, DecidableEq

def FriendRow.key (row : FriendRow) : ℤ × ℤ := (row.selfId, row.friendId)

/-- The row a write inserts. -/
def friendRow : Write → Option FriendRow
  | .addFriend selfId friendId back => some ⟨selfId, friendId, back⟩
  | _ => none

/-- The friend table after what was committed, from an empty one. -/
def friendTable (batches : List (List Entry)) : List FriendRow :=
  Keyed.insertAll FriendRow.key [] ((batches.flatten.map Entry.write).filterMap friendRow)

/-! ## What the driver answers -/

/-- To a call that answers nothing, or nothing that is looked at. -/
def void : Reply := ⟨0, ""⟩

/-- To `get_user`. -/
def userReplies (users : ℤ → Option UserRow) (uid : ℤ) : List Reply :=
  match users uid with
  | none => [void, void, ⟨0, ""⟩, void]
  | some row => [void, void, ⟨1, ""⟩, void, ⟨0, row.pwd⟩, ⟨0, row.email⟩, ⟨0, row.name⟩]

/-- To one round of the `while`. -/
def rowReplies (users : ℤ → Option UserRow) (row : FriendRow) : List Reply :=
  [void, ⟨row.friendId, ""⟩, ⟨0, row.back⟩] ++ userReplies users row.friendId

/-- To `get_friend_list` with these rows. -/
def listReplies (users : ℤ → Option UserRow) (rows : List FriendRow) : List Reply :=
  [void, void, ⟨rows.length, ""⟩] ++ (rows.flatMap (rowReplies users) ++ [void])

/-! ## What it should answer -/

/-- A call of `add_friend`. -/
structure Friendship where
  fromUid : ℤ
  toUid : ℤ
  backName : String

def Friendship.call (f : Friendship) : Call := .addFriend f.fromUid f.toUid f.backName

/-- The remark a call has for a pair, where it is the first for the pair. -/
def Friendship.remark (f : Friendship) (a b : ℤ) : Option String :=
  if (f.fromUid, f.toUid) = (a, b) then some f.backName
  else if (f.toUid, f.fromUid) = (a, b) then some ""
  else none

/-- The remark stored for a pair: that of the first call about it. -/
def remark (history : List Friendship) (a b : ℤ) : Option String := history.findSome? fun f => f.remark a b

/-- One entry for each friend that is a user, with the remark stored for the pair. -/
structure RoundTrip (users : ℤ → Option UserRow) (history : List Friendship) (a : ℤ) (list : List UserInfo) : Prop where
  once : (list.map UserInfo.uid).Nodup
  friends : ∀ b, b ∈ list.map UserInfo.uid ↔ (users b).isSome ∧ (remark history a b).isSome
  back : ∀ info ∈ list, remark history a info.uid = some info.back

variable {users : ℤ → Option UserRow} {history : List Friendship} {a : ℤ} {rows : List FriendRow}

/-! ## The table -/

theorem find?_rows (a b : ℤ) (f : Friendship) :
    (Keyed.find? FriendRow.key [⟨f.fromUid, f.toUid, f.backName⟩, ⟨f.toUid, f.fromUid, ""⟩] (a, b)).map FriendRow.back =
      f.remark a b := by
  rw [Keyed.find?_cons, Keyed.find?_cons, Friendship.remark]
  by_cases hfrom : (f.fromUid, f.toUid) = (a, b)
  · have hkey : FriendRow.key ⟨f.fromUid, f.toUid, f.backName⟩ = (a, b) := hfrom
    rw [if_pos hkey, if_pos hfrom]
    rfl
  · have hkey : ¬ FriendRow.key ⟨f.fromUid, f.toUid, f.backName⟩ = (a, b) := hfrom
    rw [if_neg hkey, if_neg hfrom]
    by_cases hto : (f.toUid, f.fromUid) = (a, b)
    · have hkey : FriendRow.key ⟨f.toUid, f.fromUid, ""⟩ = (a, b) := hto
      rw [if_pos hkey, if_pos hto]
      rfl
    · have hkey : ¬ FriendRow.key ⟨f.toUid, f.fromUid, ""⟩ = (a, b) := hto
      rw [if_neg hkey, if_neg hto]
      rfl

/-- The two writes of every call of the history. -/
def historyWrites (history : List Friendship) : List Write :=
  history.flatMap fun f => Mysql.friendWrites f.fromUid f.toUid f.backName

theorem filterMap_historyWrites (history : List Friendship) : (historyWrites history).filterMap friendRow =
    history.flatMap fun f => [⟨f.fromUid, f.toUid, f.backName⟩, ⟨f.toUid, f.fromUid, ""⟩] := by
  rw [historyWrites, List.filterMap_flatMap]
  rfl

variable {batches : List (List Entry)}

/-- What the table has for a pair. -/
theorem find?_friendTable (h : batches.flatten.map Entry.write = historyWrites history) (a b : ℤ) :
    (Keyed.find? FriendRow.key (friendTable batches) (a, b)).map FriendRow.back = remark history a b := by
  rw [friendTable, h, filterMap_historyWrites, Keyed.find?_insertAll]
  show Option.map _ (Keyed.find? _ _ _) = _
  rw [Keyed.find?, List.find?_flatMap, List.map_findSome?]
  refine congrArg (fun g => List.findSome? g history) ?_
  funext f
  exact find?_rows a b f

/-- The rows with the key `self_id`. -/
theorem mem_rows_iff (h : batches.flatten.map Entry.write = historyWrites history)
    (hrows : rows.Perm ((friendTable batches).filter fun row => row.selfId = a)) {row : FriendRow} :
    row ∈ rows ↔ row.selfId = a ∧ remark history a row.friendId = some row.back := by
  have hnodup : ((friendTable batches).map FriendRow.key).Nodup := Keyed.nodup_insertAll List.nodup_nil
  rw [hrows.mem_iff, List.mem_filter, decide_eq_true_eq, and_comm]
  refine and_congr_right fun hself => ?_
  rw [Keyed.mem_iff_find? hnodup, ← find?_friendTable h, Option.map_eq_some_iff, ← hself]
  constructor
  · intro hfind
    exact ⟨row, hfind, rfl⟩
  · intro hfind
    obtain ⟨other, hfind, hback⟩ := hfind
    obtain ⟨-, hkey⟩ := Keyed.find?_eq_some hfind
    obtain ⟨hself', hfriend⟩ := Prod.mk.inj hkey
    obtain ⟨selfId, friendId, back⟩ := row
    obtain ⟨selfId', friendId', back'⟩ := other
    cases hself'
    cases hfriend
    cases hback
    exact hfind

theorem nodup_friendIds (hrows : rows.Perm ((friendTable batches).filter fun row => row.selfId = a)) :
    (rows.map FriendRow.friendId).Nodup := by
  have hnodup : ((friendTable batches).map FriendRow.key).Nodup := Keyed.nodup_insertAll List.nodup_nil
  have hsub : (rows.map FriendRow.key).Nodup := by
    rw [(hrows.map FriendRow.key).nodup_iff]
    exact hnodup.sublist (List.filter_sublist.map FriendRow.key)
  have hkeys : rows.map FriendRow.key = (rows.map FriendRow.friendId).map (Prod.mk a) := by
    rw [List.map_map]
    refine List.map_congr_left fun row hrow => ?_
    obtain ⟨-, hself⟩ := List.mem_filter.1 (hrows.mem_iff.1 hrow)
    rw [FriendRow.key, of_decide_eq_true hself]
    rfl
  rw [hkeys] at hsub
  exact hsub.of_map

/-! ## The calls -/

/-- The calls made were those of the history, and all returned true. -/
def Made (history : List Friendship) (s : State) : Prop := s.results = history.map fun f => (f.call, .ok true)

/-- The history is in the database, nothing waits, and the pool is complete. -/
structure Stored (history : List Friendship) (s : State) : Prop where
  writes : s.world.batches.flatten.map Entry.write = historyWrites history
  pending : ∀ c, (s.world.conns c).pending = []
  full : s.Full 5

theorem stored_init : Stored [] (State.init 5) := ⟨rfl, fun _ => rfl, List.Perm.refl _⟩

/-- One more call that returned true. -/
theorem stored_call {f : Friendship} {s : State} {sql : ℕ → Option Reply} {tx : ℕ → Bool} {w : World}
    (h : Stored history s) (hw : f.call.run (s.begin sql tx) = some (.ok true, w)) :
    Stored (history ++ [f]) { world := w, results := s.results ++ [(f.call, .ok true)] } := by
  have hfull : State.Full 5 { world := w, results := s.results ++ [(f.call, .ok true)] } := by
    have hstep : s.step (.call f.call sql tx) = some ⟨w, s.results ++ [(f.call, .ok true)]⟩ := by
      rw [State.step, hw]
      rfl
    exact (Mysql.step_full_iff h.full hstep).2 id
  rcases Mysql.addFriend_cases hw with ⟨pool, -, he, -⟩ | ⟨c, pool, -, ⟨-, hs⟩ | ⟨he, -⟩ | ⟨⟨e, he⟩, -⟩⟩
  · cases he
  · refine ⟨?_, hs.pending h.pending, hfull⟩
    have hempty : ((s.begin sql tx).conns c).pending = [] := h.pending c
    show (List.flatten w.batches).map Entry.write = _
    rw [hs.1, hempty, List.flatten_append, List.map_append]
    show (List.flatten s.world.batches).map Entry.write ++ _ = _
    rw [h.writes, historyWrites, historyWrites, List.flatMap_append]
    rfl
  · cases he
  · cases he

theorem step_stored {s s' : State} {op : Op} (h : ∀ history, Made history s → Stored history s)
    (hs : s.step op = some s') : ∀ history, Made history s' → Stored history s' := by
  intro history hmade
  cases op with
  | checkConnection timestamp alive =>
    obtain ⟨w, hw, rfl⟩ := Option.map_eq_some_iff.1 hs
    obtain ⟨hwrites, hpending, hfull⟩ := h history hmade
    obtain ⟨hbatches, hconns⟩ := Mysql.checkConnection_frame hw
    refine ⟨?_, fun c => ?_, (Mysql.checkConnection_perm hw).trans hfull⟩
    · show (List.flatten w.batches).map Entry.write = _
      rw [hbatches]
      exact hwrites
    · rcases hconns c with hc | hc
      · exact hc.trans (hpending c)
      · exact hc
  | call call sql tx =>
    obtain ⟨⟨r, w⟩, hw, rfl⟩ := Option.map_eq_some_iff.1 hs
    -- The last of the history is this call.
    rcases List.eq_nil_or_concat history with rfl | ⟨before, f, rfl⟩
    · cases List.append_eq_nil_iff.1 hmade |>.2
    · rw [List.concat_eq_append] at hmade ⊢
      have hresults : s.results ++ [(call, r)] = before.map (fun f => (f.call, .ok true)) ++ [(f.call, .ok true)] :=
        hmade.trans List.map_append
      obtain ⟨hbefore, hlast⟩ := List.append_singleton_inj.1 hresults
      cases hlast
      exact stored_call (h before hbefore) hw

/-! ## The reader -/

theorem getUser_answers (uid : ℤ) :
    Answers 1 (Mysql.getUser uid) (userReplies users uid) ((users uid).map (UserRow.info uid)) := by
  refine Answers.guarded ?_
  rw [userReplies]
  cases users uid with
  | none =>
    exact (Answers.reply _ void).bind ((Answers.reply _ void).bind ((Answers.reply _ ⟨0, ""⟩).bind
      ((Answers.reply _ void).bind (Answers.pure none))))
  | some row =>
    exact (Answers.reply _ void).bind ((Answers.reply _ void).bind ((Answers.reply _ ⟨1, ""⟩).bind
      ((Answers.reply _ void).bind ((Answers.reply _ ⟨0, row.pwd⟩).bind ((Answers.reply _ ⟨0, row.email⟩).bind
        ((Answers.reply _ ⟨0, row.name⟩).bind (Answers.pure _)))))))

/-- What a row adds to the list. -/
def entry (users : ℤ → Option UserRow) (row : FriendRow) : Option UserInfo :=
  (users row.friendId).map fun user => { user.info row.friendId with back := user.name }

theorem friendRows_answers (rows : List FriendRow) (userInfoList : List UserInfo) :
    Answers 1 (Mysql.friendRows rows.length userInfoList) (rows.flatMap (rowReplies users) ++ [void])
      (userInfoList ++ rows.filterMap (entry users)) := by
  induction rows generalizing userInfoList with
  | nil =>
    rw [List.filterMap_nil, List.append_nil]
    exact (Answers.reply _ void).bind (Answers.pure _)
  | cons row rows ih =>
    rw [List.flatMap_cons, List.append_assoc, rowReplies, List.append_assoc, List.filterMap_cons]
    refine (Answers.reply _ void).bind ((Answers.reply _ ⟨row.friendId, ""⟩).bind
      ((Answers.reply _ ⟨0, row.back⟩).bind ((getUser_answers row.friendId).bind ?_)))
    rw [entry]
    cases users row.friendId with
    | none => exact ih userInfoList
    | some user =>
      have hnext := ih (userInfoList ++ [{ user.info row.friendId with back := user.name }])
      rw [List.append_assoc] at hnext
      exact hnext

/-- `get_friend_list`, which needs two connections. -/
theorem getFriendList_answers {w : World} (hnull : NoNull w) (hn : 2 ≤ w.pool.length)
    (h : Ahead w (listReplies users rows)) :
    ∃ w', Mysql.getFriendList a w = some (.ok (some (rows.filterMap (entry users))), w') := by
  have hrows : Answers 1 (do return some (← Mysql.friendRows rows.length []))
      (rows.flatMap (rowReplies users) ++ [void] ++ []) (some (rows.filterMap (entry users))) :=
    (friendRows_answers rows []).bind (Answers.pure _)
  rw [List.append_nil] at hrows
  have hblock : Answers 1 (do
      Mysql.prepareStatement "select * from friend where self_id = ? "
      Mysql.setInt 1 a
      let rows ← Mysql.executeQuery
      return some (← Mysql.friendRows rows [])) (listReplies users rows) (some (rows.filterMap (entry users))) :=
    (Answers.reply _ void).bind ((Answers.reply _ void).bind ((Answers.reply _ ⟨rows.length, ""⟩).bind hrows))
  rw [← List.append_nil (listReplies users rows)] at h
  obtain ⟨w', hw', -⟩ := hblock.run_guarded hnull hn h
  exact ⟨w', hw'⟩

/-! ## The round trip -/

theorem mem_entries_iff {info : UserInfo} : info ∈ rows.filterMap (entry users) ↔
    ∃ row ∈ rows, ∃ user, users row.friendId = some user ∧
      { user.info row.friendId with back := user.name } = info := by
  simp only [List.mem_filterMap, entry, Option.map_eq_some_iff]

theorem entries_sublist (rows : List FriendRow) :
    ((rows.filterMap (entry users)).map UserInfo.uid).Sublist (rows.map FriendRow.friendId) := by
  induction rows with
  | nil => exact .slnil
  | cons row rows ih =>
    rw [List.filterMap_cons, entry]
    cases users row.friendId with
    | none => exact ih.cons _
    | some user => exact ih.cons_cons _

/-- The list is right when the remarks are the names. -/
theorem entries_roundTrip_iff {batches : List (List Entry)}
    (h : batches.flatten.map Entry.write = historyWrites history)
    (hrows : rows.Perm ((friendTable batches).filter fun row => row.selfId = a)) :
    RoundTrip users history a (rows.filterMap (entry users)) ↔
      ∀ b user back, users b = some user → remark history a b = some back → back = user.name := by
  constructor
  · intro hround b user back huser hremark
    have hrow : (⟨a, b, back⟩ : FriendRow) ∈ rows := (mem_rows_iff h hrows).2 ⟨rfl, hremark⟩
    have hback := hround.back _ (mem_entries_iff.2 ⟨_, hrow, user, huser, rfl⟩)
    exact Option.some.inj (hremark.symm.trans hback)
  · intro hnames
    refine ⟨(nodup_friendIds hrows).sublist (entries_sublist rows), fun b => ?_, fun info hinfo => ?_⟩
    · constructor
      · intro hb
        obtain ⟨info, hinfo, rfl⟩ := List.mem_map.1 hb
        obtain ⟨row, hrow, user, huser, rfl⟩ := mem_entries_iff.1 hinfo
        obtain ⟨-, hremark⟩ := (mem_rows_iff h hrows).1 hrow
        exact ⟨Option.isSome_of_eq_some huser, Option.isSome_of_eq_some hremark⟩
      · intro hb
        obtain ⟨user, huser⟩ := Option.isSome_iff_exists.1 hb.1
        obtain ⟨back, hremark⟩ := Option.isSome_iff_exists.1 hb.2
        have hrow : (⟨a, b, back⟩ : FriendRow) ∈ rows := (mem_rows_iff h hrows).2 ⟨rfl, hremark⟩
        exact List.mem_map.2 ⟨_, mem_entries_iff.2 ⟨_, hrow, user, huser, rfl⟩, rfl⟩
    · obtain ⟨row, hrow, user, huser, rfl⟩ := mem_entries_iff.1 hinfo
      obtain ⟨-, hremark⟩ := (mem_rows_iff h hrows).1 hrow
      show remark history a row.friendId = some user.name
      rw [hremark, hnames row.friendId user row.back huser hremark]

/-- **The remarks `get_friend_list` gives.** After any history of `add_friend` calls that
returned true, the list of `a` has one entry for each friend that is a user, and has it with
the remark stored for the pair exactly if that remark is the friend's name. -/
theorem getFriendList_iff {ops : List Op} {s : State} (hrun : Run.run State.step (.init 5) ops = some s)
    (hmade : Made history s) (hrows : rows.Perm ((friendTable s.world.batches).filter fun row => row.selfId = a))
    (tx : ℕ → Bool) :
    ∃ list w, Mysql.getFriendList a (s.begin (fun i => (listReplies users rows)[i]?) tx) = some (.ok (some list), w) ∧
      (RoundTrip users history a list ↔
        ∀ b user back, users b = some user → remark history a b = some back → back = user.name) := by
  have hinit : ∀ history, Made history (State.init 5) → Stored history (State.init 5) := by
    intro history h
    rw [List.map_eq_nil_iff.1 (Eq.symm h)]
    exact stored_init
  obtain ⟨hwrites, -, hfull⟩ :=
    Run.run_invariant (fun s => ∀ history, Made history s → Stored history s) (fun _ _ _ h hs => step_stored h hs)
      hinit hrun history hmade
  have hlength : 2 ≤ s.world.pool.length := by
    rw [hfull.length_eq, List.length_map, List.length_range]
    decide
  have hahead : Ahead (s.begin (fun i => (listReplies users rows)[i]?) tx) (listReplies users rows) :=
    fun i => congrArg (fun i => (listReplies users rows)[i]?) (Nat.zero_add i)
  have hnull : NoNull (s.begin (fun i => (listReplies users rows)[i]?) tx) := hfull.noNull
  obtain ⟨w, hw⟩ := getFriendList_answers (a := a) hnull hlength hahead
  exact ⟨_, w, hw, entries_roundTrip_iff hwrites hrows⟩

def twoUsers (uid : ℤ) : Option UserRow :=
  if uid = 1 then some ⟨"pwd1", "eve@e", "eve"⟩ else if uid = 2 then some ⟨"pwd2", "robert@r", "robert"⟩ else none

/-- The one is befriended with the remark `back`, and befriends the other later. -/
def twice (back : String) : List Friendship := [⟨1, 2, back⟩, ⟨2, 1, "dear"⟩]

def twiceOps (back : String) : List Op :=
  (twice back).map fun f => .call f.call Mysql.oneRow fun _ => true

theorem getFriendList_iff_robert :
    ∃ s list w, Run.run State.step (.init 5) (twiceOps "robert") = some s ∧
      Mysql.getFriendList 1 (s.begin (fun i => (listReplies twoUsers [⟨1, 2, "robert"⟩])[i]?) fun _ => true) =
        some (.ok (some list), w) ∧ RoundTrip twoUsers (twice "robert") 1 list := by
  have hsome : (Run.run State.step (.init 5) (twiceOps "robert")).map
      (fun s => (s.results, friendTable s.world.batches)) =
      some ((twice "robert").map (fun f => (f.call, .ok true)), [⟨1, 2, "robert"⟩, ⟨2, 1, ""⟩]) := by decide +kernel
  obtain ⟨s, hs, hp⟩ := Option.map_eq_some_iff.1 hsome
  obtain ⟨hresults, htable⟩ := Prod.mk.inj hp
  have hrows : [⟨1, 2, "robert"⟩].Perm ((friendTable s.world.batches).filter fun row => row.selfId = 1) := by
    rw [htable]
    exact .refl _
  obtain ⟨list, w, hlist, hiff⟩ : ∃ list w, Mysql.getFriendList 1
      (s.begin (fun i => (listReplies twoUsers [⟨1, 2, "robert"⟩])[i]?) fun _ => true) = some (.ok (some list), w) ∧
        (RoundTrip twoUsers (twice "robert") 1 list ↔ ∀ b user back, twoUsers b = some user →
          remark (twice "robert") 1 b = some back → back = user.name) :=
    getFriendList_iff hs hresults hrows fun _ => true
  refine ⟨s, list, w, hs, hlist, hiff.2 fun b user back huser hremark => ?_⟩
  unfold twoUsers at huser
  split at huser
  · rename_i hb
    rw [hb, show remark (twice "robert") 1 1 = none from by decide] at hremark
    cases hremark
  · split at huser
    · rename_i hb
      rw [hb, show remark (twice "robert") 1 2 = some "robert" from by decide] at hremark
      cases huser
      cases hremark
      rfl
    · cases huser

/-- The remark is "bob", the list has "robert". -/
theorem not_roundTrip_bob :
    ∃ s list w, Run.run State.step (.init 5) (twiceOps "bob") = some s ∧ Made (twice "bob") s ∧
      friendTable s.world.batches = [⟨1, 2, "bob"⟩, ⟨2, 1, ""⟩] ∧
      Mysql.getFriendList 1 (s.begin (fun i => (listReplies twoUsers [⟨1, 2, "bob"⟩])[i]?) fun _ => true) =
        some (.ok (some list), w) ∧ ¬ RoundTrip twoUsers (twice "bob") 1 list := by
  have hsome : (Run.run State.step (.init 5) (twiceOps "bob")).map
      (fun s => (s.results, friendTable s.world.batches, s.world.pool)) =
      some ((twice "bob").map (fun f => (f.call, .ok true)), [⟨1, 2, "bob"⟩, ⟨2, 1, ""⟩],
        [some 2, some 3, some 4, some 0, some 1]) := by decide +kernel
  obtain ⟨s, hs, hp⟩ := Option.map_eq_some_iff.1 hsome
  obtain ⟨hresults, hp⟩ := Prod.mk.inj hp
  obtain ⟨htable, hpool⟩ := Prod.mk.inj hp
  have hnull : NoNull s.world := by
    rw [NoNull, hpool]
    decide
  have hlength : 2 ≤ s.world.pool.length := by
    rw [hpool]
    decide
  have hahead : Ahead (s.begin (fun i => (listReplies twoUsers [⟨1, 2, "bob"⟩])[i]?) fun _ => true)
      (listReplies twoUsers [⟨1, 2, "bob"⟩]) :=
    fun i => congrArg (fun i => (listReplies twoUsers [⟨1, 2, "bob"⟩])[i]?) (Nat.zero_add i)
  have hnull' : NoNull (s.begin (fun i => (listReplies twoUsers [⟨1, 2, "bob"⟩])[i]?) fun _ => true) := hnull
  obtain ⟨w, hw⟩ := getFriendList_answers (a := 1) hnull' hlength hahead
  refine ⟨s, _, w, hs, hresults, htable, hw, fun hround => ?_⟩
  exact absurd (hround.back _ List.mem_cons_self) (by decide)

end Learncc.FriendList
