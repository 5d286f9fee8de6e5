/-
What becomes of the writes over a run of the DAO
(src/chat_server/mysql_dao.cc). `add_friend` switches `autocommit` off and
nothing switches it on again, so its connection goes back to the pool in that
mode, and what another method writes through it waits for a commit that need
not come.

`run_durable`: all the writes a run has reported are in the database, and none
of those it has denied, if and only if no method with one statement succeeds on
a connection without `autocommit`. `friends_symmetric` is about the runs of
`add_friend` alone, where every commit has both directions.
-/
import Learncc.Mysql.Writes

namespace Learncc.Mysql

open Command

variable {w w' : World} {c : ℕ}

/-! ## One call -/

/-- What the call writes if it returns true. -/
def Call.writes : Call → List Write
  | .updatePwd name newpwd => [.updatePwd name newpwd]
  | .authFriendApply fromUid toUid => [.authApply toUid fromUid]
  | .addFriendApply fromUid toUid => [.addApply fromUid toUid]
  | .addFriend fromUid toUid backName => friendWrites fromUid toUid backName
  | _ => []

/-- The first connection of the pool has been through an `add_friend`. -/
def World.FirstOff (w : World) : Prop := ∃ c pool, w.pool = some c :: pool ∧ (w.conns c).autocommit = false

/-- One statement is made, and left to wait. -/
def World.Strands (w : World) : Call → Prop
  | .updatePwd _ _ | .authFriendApply _ _ | .addFriendApply _ _ => w.FirstOff ∧ Answered w.sql
  | _ => False

theorem Still.holds (h : Still w w') {entry : Entry} (he : w'.Holds entry) : w.Holds entry := by
  unfold World.Holds World.Committed at he ⊢
  rwa [h.1, h.2] at he

theorem Settled.holds (h : Settled w c w.batches w') {entry : Entry} (he : w'.Holds entry) : w.Holds entry := by
  obtain ⟨hbatches, conn, hconns, hpending⟩ := h
  rcases he with ⟨batch, hb, hm⟩ | ⟨d, hd⟩
  · exact .inl ⟨batch, hbatches ▸ hb, hm⟩
  · rw [hconns] at hd
    by_cases hdc : d = c
    · subst hdc
      rw [Function.update_self, hpending] at hd
      cases hd
    · rw [Function.update_of_ne hdc] at hd
      exact .inr ⟨d, hd⟩

/-- What a call means for its own writes: reported, they are in the database
unless the statement was left to wait; denied, they are nowhere. -/
structure Reported (w : World) (writes : List Write) (strands : Prop) (r : Except SQLException Bool) (w' : World) :
    Prop where
  kept : r = .ok true → ((∀ write ∈ writes, w'.Committed ⟨w.call, write⟩) ↔ ¬ strands)
  gone : r = .ok false → ∀ write ∈ writes, ¬ w'.Holds ⟨w.call, write⟩
  strands : r ≠ .ok true → ¬ strands

theorem Updates.reported {write : Write} {x : Dao Bool} {r : Except SQLException Bool} (hx : Updates write x)
    (hasked : w.asked = 0) (hfresh : ∀ entry, w.Holds entry → entry.call ≠ w.call) (h : x w = some (r, w')) :
    Reported w [write] (w.FirstOff ∧ Answered w.sql) r w' := by
  have hnone : Still w w' → ∀ wr ∈ [write], ¬ w'.Holds ⟨w.call, wr⟩ :=
    fun hstill _ _ he => hfresh _ (hstill.holds he) rfl
  rcases hx w r w' hasked h with ⟨pool, hpool, rfl, hstill⟩ |
    ⟨c, pool, hpool, ⟨hans, rfl, hstill⟩ | ⟨hans, rfl, hwrote⟩⟩
  · refine ⟨fun he => ?_, fun _ => hnone hstill, fun _ hoff => ?_⟩
    · cases he
    · obtain ⟨⟨c, pool', hpool', -⟩, -⟩ := hoff
      cases hpool.symm.trans hpool'
  · refine ⟨fun he => ?_, fun _ => hnone hstill, fun _ hoff => hans hoff.2⟩
    cases he
  · refine ⟨fun _ => ?_, fun he => ?_, fun he => absurd rfl he⟩
    · unfold Wrote at hwrote
      split at hwrote
      · -- The write is a batch of its own.
        rename_i hon
        refine iff_of_true (fun wr hm => ⟨[⟨w.call, write⟩], ?_, ?_⟩) fun hoff => ?_
        · rw [hwrote.2]
          exact List.mem_append_right _ (List.mem_singleton_self _)
        · rw [List.mem_singleton.1 hm]
          exact List.mem_singleton_self _
        · obtain ⟨⟨d, pool', hpool', hoff⟩, -⟩ := hoff
          cases hpool.symm.trans hpool'
          rw [hon] at hoff
          cases hoff
      · -- It waits, and nothing of this call was committed before.
        rename_i hoff
        refine iff_of_false (fun hall => ?_) fun hno => hno ⟨⟨c, pool, hpool, Bool.eq_false_iff.2 hoff⟩, hans⟩
        obtain ⟨batch, hb, hm⟩ := hall write (List.mem_singleton_self _)
        rw [hwrote.2] at hb
        exact hfresh _ (.inl ⟨batch, hb, hm⟩) rfl
    · cases he

theorem addFriend_reported {fromUid toUid : ℤ} {backName : String} {r : Except SQLException Bool}
    (hfresh : ∀ entry, w.Holds entry → entry.call ≠ w.call) (h : addFriend fromUid toUid backName w = some (r, w')) :
    Reported w (friendWrites fromUid toUid backName) False r w' := by
  refine ⟨fun hr => ?_, fun hr write hm he => ?_, fun _ => id⟩
  · subst hr
    refine iff_of_true (fun write hm => ?_) id
    rcases addFriend_cases h with ⟨pool, -, he, -⟩ | ⟨c, pool, -, ⟨-, hs⟩ | ⟨he, -⟩ | ⟨⟨e, he⟩, -⟩⟩
    · cases he
    · refine ⟨(w.conns c).pending ++ (friendWrites fromUid toUid backName).map (Entry.mk w.call), ?_, ?_⟩
      · rw [hs.1]
        exact List.mem_append_right _ (List.mem_singleton_self _)
      · exact List.mem_append_right _ (List.mem_map_of_mem hm)
    · cases he
    · cases he
  · subst hr
    rcases addFriend_cases h with ⟨pool, -, -, hs⟩ | ⟨c, pool, -, ⟨hr, -⟩ | ⟨-, hs⟩ | ⟨⟨e, hr⟩, -⟩⟩
    · exact hfresh _ (hs.holds he) rfl
    · cases hr
    · exact hfresh _ (hs.holds he) rfl
    · cases hr

theorem run_reported {call : Call} {r : Except SQLException Bool} (hasked : w.asked = 0)
    (hfresh : ∀ entry, w.Holds entry → entry.call ≠ w.call) (h : call.run w = some (r, w')) :
    Reported w call.writes (w.Strands call) r w' := by
  cases call with
  | updatePwd name newpwd => exact (updates_updatePwd name newpwd).reported hasked hfresh h
  | authFriendApply fromUid toUid => exact (updates_authFriendApply fromUid toUid).reported hasked hfresh h
  | addFriendApply fromUid toUid => exact (updates_addFriendApply fromUid toUid).reported hasked hfresh h
  | addFriend fromUid toUid backName => exact addFriend_reported hfresh h
  | _ => exact ⟨fun _ => iff_of_true (by simp [Call.writes]) id, fun _ => by simp [Call.writes], fun _ => id⟩

/-! ## Runs -/

/-- The writes of the calls that returned true are in the database, those of the
calls that returned false are not. -/
structure State.Durable (s : State) : Prop where
  kept : ∀ k call, s.results[k]? = some (call, .ok true) → ∀ write ∈ call.writes, s.world.Committed ⟨k, write⟩
  gone : ∀ k call, s.results[k]? = some (call, .ok false) → ∀ write ∈ call.writes, ¬ s.world.Committed ⟨k, write⟩

/-- Every entry is of a call made, and of none that returned false. -/
structure State.Numbered (s : State) : Prop where
  made : ∀ entry, s.world.Holds entry → entry.call < s.results.length
  denied : ∀ k call, s.results[k]? = some (call, .ok false) → ∀ write ∈ call.writes, ¬ s.world.Holds ⟨k, write⟩

def State.Strands (s : State) : Op → Prop
  | .call call sql tx => (s.begin sql tx).Strands call
  | .checkConnection _ _ => False

/-- A new connection has lost what waited on the old one; nothing else
happens to the writes. -/
theorem checkConnection_frame {timestamp : ℤ} {alive : ℕ → Bool} {n : ℕ}
    (h : checkConnection timestamp alive n w = some w') :
    w'.batches = w.batches ∧ ∀ d, (w'.conns d).pending = (w.conns d).pending ∨ (w'.conns d).pending = [] := by
  induction n generalizing w with
  | zero =>
    cases h
    exact ⟨rfl, fun _ => .inl rfl⟩
  | succ n ih =>
    unfold checkConnection at h
    split at h
    · rename_i c rest hpool
      obtain ⟨hbatches, hpending⟩ := ih h
      refine ⟨hbatches, fun d => ?_⟩
      rcases hpending d with hd | hd
      · rw [hd]
        dsimp only
        by_cases hdc : d = c
        · subst hdc
          rw [Function.update_self]
          unfold checked
          split
          · exact .inl rfl
          · split
            · exact .inl rfl
            · exact .inr rfl
        · rw [Function.update_of_ne hdc]
          exact .inl rfl
      · exact .inr hd
    · cases h

theorem checkConnection_holds {timestamp : ℤ} {alive : ℕ → Bool} {n : ℕ}
    (h : checkConnection timestamp alive n w = some w') {entry : Entry} (he : w'.Holds entry) : w.Holds entry := by
  obtain ⟨hbatches, hpending⟩ := checkConnection_frame h
  rcases he with ⟨batch, hb, hm⟩ | ⟨d, hd⟩
  · exact .inl ⟨batch, hbatches ▸ hb, hm⟩
  · rcases hpending d with hp | hp
    · exact .inr ⟨d, hp ▸ hd⟩
    · rw [hp] at hd
      cases hd

/-- A result is an earlier one or that of the last call. -/
theorem getElem?_concat_cases {α : Type} {l : List α} {a b : α} {k : ℕ} (h : (l ++ [a])[k]? = some b) :
    l[k]? = some b ∧ k < l.length ∨ k = l.length ∧ b = a := by
  obtain ⟨hk, hb⟩ := List.getElem?_eq_some_iff.1 h
  rw [List.length_append, List.length_singleton] at hk
  rcases Nat.lt_succ_iff_lt_or_eq.1 hk with hlt | rfl
  · rw [List.getElem?_append_left hlt] at h
    exact .inl ⟨h, hlt⟩
  · rw [List.getElem?_concat_length] at h
    cases h
    exact .inr ⟨rfl, rfl⟩

theorem State.Numbered.begin {s : State} (h : s.Numbered) (sql : ℕ → Option Reply) (tx : ℕ → Bool) :
    ∀ entry, (s.begin sql tx).Holds entry → entry.call ≠ (s.begin sql tx).call :=
  fun entry he => Nat.ne_of_lt (h.made entry he)

theorem step_numbered {s s' : State} {op : Op} (h : s.Numbered) (hs : s.step op = some s') : s'.Numbered := by
  cases op with
  | checkConnection timestamp alive =>
    obtain ⟨w, hw, rfl⟩ := Option.map_eq_some_iff.1 hs
    refine ⟨fun entry he => h.made entry (checkConnection_holds hw he), fun k call hk write hm he => ?_⟩
    exact h.denied k call hk write hm (checkConnection_holds hw he)
  | call call sql tx =>
    obtain ⟨⟨r, w⟩, hw, rfl⟩ := Option.map_eq_some_iff.1 hs
    have hframe : Frame (s.begin sql tx) w := frame_run call _ r w hw
    have hnew := run_reported rfl (h.begin sql tx) hw
    refine ⟨fun entry he => ?_, fun k call' hk write hm he => ?_⟩
    · rw [List.length_append, List.length_singleton]
      rcases hframe.fresh entry he with hold | hown
      · have hlt := h.made entry hold
        omega
      · have heq : entry.call = s.results.length := hown
        omega
    · rcases getElem?_concat_cases hk with ⟨hk, hlt⟩ | ⟨rfl, hlast⟩
      · rcases hframe.fresh _ he with hold | hown
        · exact h.denied k call' hk write hm hold
        · exact Nat.ne_of_lt hlt hown
      · cases hlast
        exact hnew.gone rfl write hm he

theorem step_durable_iff {s s' : State} {op : Op} (h : s.Numbered) (hd : s.Durable) (hs : s.step op = some s') :
    s'.Durable ↔ ¬ s.Strands op := by
  have hn : s'.Numbered := step_numbered h hs
  have hgone : ∀ k call, s'.results[k]? = some (call, .ok false) → ∀ write ∈ call.writes,
      ¬ s'.world.Committed ⟨k, write⟩ := fun k call hk write hm he => hn.denied k call hk write hm (.inl he)
  cases op with
  | checkConnection timestamp alive =>
    obtain ⟨w, hw, rfl⟩ := Option.map_eq_some_iff.1 hs
    refine iff_of_true ⟨fun k call hk write hm => ?_, hgone⟩ id
    obtain ⟨batch, hb, hin⟩ := hd.kept k call hk write hm
    exact ⟨batch, (checkConnection_frame hw).1 ▸ hb, hin⟩
  | call call sql tx =>
    obtain ⟨⟨r, w⟩, hw, rfl⟩ := Option.map_eq_some_iff.1 hs
    have hframe : Frame (s.begin sql tx) w := frame_run call _ r w hw
    have hnew := run_reported rfl (h.begin sql tx) hw
    refine ⟨fun ht => ?_, fun hno => ⟨fun k call' hk write hm => ?_, hgone⟩⟩
    · by_cases hr : r = .ok true
      · exact (hnew.kept hr).1 (ht.kept s.results.length call (by rw [List.getElem?_concat_length, hr]))
      · exact hnew.strands hr
    · rcases getElem?_concat_cases hk with ⟨hk, -⟩ | ⟨rfl, hlast⟩
      · exact hframe.committed (hd.kept k call' hk write hm)
      · cases hlast
        exact (hnew.kept rfl).2 hno write hm

theorem init_holds_nothing (n : ℕ) (entry : Entry) : ¬ (State.init n).world.Holds entry := by
  intro he
  rcases he with ⟨batch, hb, -⟩ | ⟨d, hd⟩
  · cases hb
  · cases hd

theorem init_numbered (n : ℕ) : (State.init n).Numbered :=
  ⟨fun entry he => absurd he (init_holds_nothing n entry), fun k call hk => by cases hk⟩

theorem init_durable (n : ℕ) : (State.init n).Durable :=
  ⟨fun k call hk => (by cases hk), fun k call hk => (by cases hk)⟩

/-- **When the DAO keeps its word.** At every point of a run the writes of
`add_friend`, `auth_friend_apply`, `add_friend_apply` and `update_pwd` are in
the database where they returned true and not in it where they returned false,
if and only if none of the last three has its statement succeed on a
connection whose `autocommit` is off. -/
theorem run_durable {n : ℕ} {ops : List Op} {s : State} (h : Run.run State.step (.init n) ops = some s) :
    Run.Along State.step (fun t _ => t.Durable) (.init n) ops ∧ s.Durable ↔
      Run.Along State.step (fun t op => ¬ t.Strands op) (.init n) ops :=
  Run.along_iff State.Numbered State.Durable (fun _ _ _ hw hs => step_numbered hw hs)
    (fun _ _ _ hw hi hs => step_durable_iff hw hi hs) (init_numbered n) (init_durable n) h

/-- A request is made on a new connection, the two become friends, and another
friendship fails at its second statement. -/
def friendCalls : List Op :=
  [.call (.addFriendApply 1 2) oneRow fun _ => true, .call (.addFriend 2 1 "ann") oneRow fun _ => true,
    .call (.addFriend 2 3 "eve") (fun k => if k = 9 then none else oneRow k) fun _ => true]

theorem run_durable_friendCalls :
    ∃ s, Run.run State.step (.init 5) friendCalls = some s ∧ s.Durable ∧
      s.world.batches.flatten = [⟨0, .addApply 1 2⟩, ⟨1, .addFriend 2 1 "ann"⟩, ⟨1, .addFriend 1 2 ""⟩] := by
  have hsome : (Run.run State.step (.init 5) friendCalls).map (fun s => s.world.batches.flatten) =
      some [⟨0, .addApply 1 2⟩, ⟨1, .addFriend 2 1 "ann"⟩, ⟨1, .addFriend 1 2 ""⟩] := by decide +kernel
  obtain ⟨s, hs, hbatches⟩ := Option.map_eq_some_iff.1 hsome
  have hfirst : ¬ ((State.init 5).begin oneRow fun _ => true).Strands (.addFriendApply 1 2) := by
    intro hst
    obtain ⟨⟨c, pool, -, hoff⟩, -⟩ := hst
    cases hoff
  exact ⟨s, hs, ((run_durable hs).2 ⟨hfirst, fun _ _ => ⟨id, fun _ _ => ⟨id, fun _ _ => trivial⟩⟩⟩).2, hbatches⟩

/-- Two become friends, four users are read, and a grant is made on the
connection of the friendship. -/
def strandedCalls : List Op :=
  [.call (.addFriend 2 1 "ann") oneRow fun _ => true, .call (.getUser 1) oneRow fun _ => true,
    .call (.getUser 2) oneRow fun _ => true, .call (.getUser 3) oneRow fun _ => true,
    .call (.getUser 4) oneRow fun _ => true, .call (.authFriendApply 4 3) oneRow fun _ => true]

/-- The grant is reported and not in the database. -/
theorem stranded_grant :
    ∃ s, Run.run State.step (.init 5) strandedCalls = some s ∧
      s.results[5]? = some (.authFriendApply 4 3, .ok true) ∧ ¬ s.world.Committed ⟨5, .authApply 3 4⟩ ∧
      ¬ s.Durable := by
  have hsome : (Run.run State.step (.init 5) strandedCalls).map (fun s => (s.results[5]?, s.world.batches)) =
      some (some (.authFriendApply 4 3, .ok true), [[⟨0, .addFriend 2 1 "ann"⟩, ⟨0, .addFriend 1 2 ""⟩]]) := rfl
  obtain ⟨s, hs, hp⟩ := Option.map_eq_some_iff.1 hsome
  obtain ⟨hresult, hbatches⟩ := Prod.mk.inj hp
  have hnot : ¬ s.world.Committed ⟨5, .authApply 3 4⟩ := by
    intro he
    obtain ⟨batch, hb, hm⟩ := he
    rw [hbatches] at hb
    rw [List.mem_singleton.1 hb] at hm
    simp at hm
  exact ⟨s, hs, hresult, hnot, fun hd => hnot (hd.kept 5 _ hresult _ (List.mem_singleton_self _))⟩

/-! ## Friends -/

/-- The friend table after the batches, over what was in it before. -/
def Friends (friend : ℤ → ℤ → Prop) (batches : List (List Entry)) (a b : ℤ) : Prop :=
  friend a b ∨ ∃ batch ∈ batches, ∃ entry ∈ batch, ∃ back, entry.write = .addFriend a b back

/-- Every row of the batch is there in both directions. -/
def Paired (batch : List Entry) : Prop :=
  ∀ a b, (∃ entry ∈ batch, ∃ back, entry.write = .addFriend a b back) →
    ∃ entry ∈ batch, ∃ back, entry.write = .addFriend b a back

/-- An `add_friend` in which commit and rollback succeed, or a pass of
`check_connection`. -/
def Op.AddsFriend : Op → Prop
  | .call (.addFriend _ _ _) _ tx => ∀ n, tx n = true
  | .call _ _ _ => False
  | .checkConnection _ _ => True

/-- Nothing waits, and every commit was of pairs. -/
structure State.Balanced (s : State) : Prop where
  pending : ∀ c, (s.world.conns c).pending = []
  batches : ∀ batch ∈ s.world.batches, Paired batch

theorem friendWrites_paired (k : ℕ) (fromUid toUid : ℤ) (backName : String) :
    Paired ((friendWrites fromUid toUid backName).map (Entry.mk k)) := by
  intro a b he
  obtain ⟨entry, hm, back, hwrite⟩ := he
  simp only [friendWrites, List.map_cons, List.map_nil, List.mem_cons, List.not_mem_nil, or_false] at hm
  rcases hm with rfl | rfl
  · cases hwrite
    exact ⟨⟨k, .addFriend toUid fromUid ""⟩, by simp [friendWrites], _, rfl⟩
  · cases hwrite
    exact ⟨⟨k, .addFriend fromUid toUid backName⟩, by simp [friendWrites], _, rfl⟩

theorem Settled.pending {batches : List (List Entry)} (h : Settled w c batches w') (hw : ∀ d, (w.conns d).pending = [])
    (d : ℕ) : (w'.conns d).pending = [] := by
  obtain ⟨-, conn, hconns, hpending⟩ := h
  rw [hconns]
  by_cases hdc : d = c
  · rw [hdc, Function.update_self, hpending]
  · rw [Function.update_of_ne hdc, hw d]

theorem step_balanced {s s' : State} {op : Op} (h : s.Balanced) (hop : op.AddsFriend) (hs : s.step op = some s') :
    s'.Balanced := by
  cases op with
  | checkConnection timestamp alive =>
    obtain ⟨w, hw, rfl⟩ := Option.map_eq_some_iff.1 hs
    obtain ⟨hbatches, hpending⟩ := checkConnection_frame hw
    refine ⟨fun d => ?_, fun batch hb => h.batches batch (hbatches ▸ hb)⟩
    rcases hpending d with hd | hd
    · exact hd.trans (h.pending d)
    · exact hd
  | call call sql tx =>
    obtain ⟨⟨r, w⟩, hw, rfl⟩ := Option.map_eq_some_iff.1 hs
    cases call with
    | addFriend fromUid toUid backName =>
      rcases addFriend_cases hw with ⟨pool, -, -, hstill⟩ | ⟨c, pool, -, ⟨-, hs⟩ | ⟨-, hs⟩ | ⟨-, n, htx⟩⟩
      · refine ⟨fun d => ?_, fun batch hb => h.batches batch (hstill.2 ▸ hb)⟩
        rw [hstill.1]
        exact h.pending d
      · refine ⟨hs.pending h.pending, fun batch hb => ?_⟩
        rw [hs.1] at hb
        rcases List.mem_append.1 hb with hb | hb
        · exact h.batches batch hb
        · have hempty : ((s.begin sql tx).conns c).pending = [] := h.pending c
          rw [List.mem_singleton.1 hb, hempty]
          exact friendWrites_paired _ fromUid toUid backName
      · exact ⟨hs.pending h.pending, fun batch hb => h.batches batch (hs.1 ▸ hb)⟩
      · have htrue : tx n = true := hop n
        cases htrue.symm.trans htx
    | _ => exact absurd hop id

/-- **Friendship stays mutual.** Whatever `add_friend` calls are made, and
wherever their statements fail, after each of the commits the friend table is
symmetric if it was so before the first. -/
theorem friends_symmetric {n : ℕ} {ops : List Op} {s : State} {friend : ℤ → ℤ → Prop}
    (hfriend : ∀ a b, friend a b ↔ friend b a) (hops : ∀ op ∈ ops, op.AddsFriend)
    (h : Run.run State.step (.init n) ops = some s) {batches : List (List Entry)}
    (hbatches : batches <+: s.world.batches) (a b : ℤ) : Friends friend batches a b ↔ Friends friend batches b a := by
  have hinit : (State.init n).Balanced := ⟨fun _ => rfl, fun batch hb => by cases hb⟩
  have hs : s.Balanced := Run.run_along_invariant State.Balanced (fun _ _ _ hb hop hs => step_balanced hb hop hs) hinit
    (Run.along_of_forall hops) h
  have hback : ∀ a b, Friends friend batches a b → Friends friend batches b a := by
    intro a b hab
    rcases hab with hab | ⟨batch, hb, hpair⟩
    · exact .inl ((hfriend a b).1 hab)
    · exact .inr ⟨batch, hb, hs.batches batch (hbatches.subset hb) a b hpair⟩
  exact ⟨hback a b, hback b a⟩

/-- A table with two rows. -/
def onePair (a b : ℤ) : Prop := a = 3 ∧ b = 4 ∨ a = 4 ∧ b = 3

/-- The first friendship is made and the second fails at its second row. -/
theorem friends_symmetric_twoCalls :
    ∃ s, Run.run State.step (.init 5)
        [.call (.addFriend 2 1 "ann") oneRow fun _ => true,
          .call (.addFriend 2 3 "eve") (fun k => if k = 9 then none else oneRow k) fun _ => true] = some s ∧
      s.world.batches = [[⟨0, .addFriend 2 1 "ann"⟩, ⟨0, .addFriend 1 2 ""⟩]] ∧
      ∀ a b, Friends onePair s.world.batches a b ↔ Friends onePair s.world.batches b a := by
  have hsome : (Run.run State.step (.init 5)
      [.call (.addFriend 2 1 "ann") oneRow fun _ => true,
        .call (.addFriend 2 3 "eve") (fun k => if k = 9 then none else oneRow k) fun _ => true]).map
      (fun s => s.world.batches) = some [[⟨0, .addFriend 2 1 "ann"⟩, ⟨0, .addFriend 1 2 ""⟩]] := by decide +kernel
  obtain ⟨s, hs, hbatches⟩ := Option.map_eq_some_iff.1 hsome
  have hops : ∀ op ∈ [Op.call (.addFriend 2 1 "ann") oneRow fun _ => true,
      .call (.addFriend 2 3 "eve") (fun k => if k = 9 then none else oneRow k) fun _ => true], op.AddsFriend := by
    intro op hm
    simp only [List.mem_cons, List.not_mem_nil, or_false] at hm
    rcases hm with rfl | rfl
    · exact fun _ => rfl
    · exact fun _ => rfl
  have hpair : ∀ a b, onePair a b ↔ onePair b a := by
    intro a b
    unfold onePair
    omega
  exact ⟨s, hs, hbatches, fun a b => friends_symmetric hpair hops hs (List.prefix_refl _) a b⟩

end Learncc.Mysql
