/-
The connections of the pool (src/chat_server/mysql_dao.cc,
src/gateserver/mysql_dao.cc): every method but `check_email` puts the one it
took back, however it ends.

`Same` is what the driver keeps and what a call of one method from another
keeps; `Hands` is what the methods do that return the connection by hand.
`run_conserves`: a run keeps all the connections if and only if no
`check_email` of it finds no row.
-/
import Learncc.Mysql.Writes

namespace Learncc.Mysql

open Command

/-- There is no null pointer in the pool. -/
def NoNull (w : World) : Prop := none ∉ w.pool

/-- The pool has the same connections as before, and `con` is what it was. -/
def Same (w w' : World) : Prop := NoNull w → w'.con = w.con ∧ w'.pool.Perm w.pool

theorem NoNull.perm {w w' : World} (h : NoNull w) (hp : w'.pool.Perm w.pool) : NoNull w' :=
  fun hm => h (hp.subset hm)

instance : IsPreorder World Same where
  refl w _ := ⟨rfl, .refl _⟩
  trans w v u hwv hvu hw := by
    obtain ⟨hcon, hpool⟩ := hwv hw
    obtain ⟨hcon', hpool'⟩ := hvu (hw.perm hpool)
    exact ⟨hcon'.trans hcon, hpool'.trans hpool⟩

theorem same_of_eq {w w' : World} (hcon : w'.con = w.con) (hpool : w'.pool = w.pool) : Same w w' :=
  fun _ => ⟨hcon, .of_eq hpool⟩

theorem same_onCon {f : World → ℕ → World} (hf : ∀ w c, (f w c).con = w.con ∧ (f w c).pool = w.pool) :
    Keeps Same (onCon f) := by
  refine Keeps.modify fun w => ?_
  cases hc : w.con with
  | none => exact refl_of Same w
  | some c => exact same_of_eq (hf w c).1 (hf w c).2

theorem same_askTx {f : World → ℕ → World} (hf : ∀ w c, (f w c).con = w.con ∧ (f w c).pool = w.pool) :
    Keeps Same (askTx f) := by
  intro w r w' h
  obtain ⟨c, -, ⟨-, -, rfl⟩ | ⟨-, -, rfl⟩⟩ := askTx_cases h
  · exact same_of_eq (hf _ c).1 (hf _ c).2
  · exact same_of_eq rfl rfl

theorem write_same (w : World) (c : ℕ) (write : Write) :
    (w.write c write).con = w.con ∧ (w.write c write).pool = w.pool := by
  unfold World.write
  dsimp only
  split <;> exact ⟨rfl, rfl⟩

/-- What a method does when the rest of it hands the connection back. -/
theorem same_method {α : Type} (a : α) {rest : Dao α}
    (h : ∀ w c r w', NoNull w → w.con = some c → rest w = some (r, w') → w'.pool.Perm (some c :: w.pool)) :
    Keeps Same (method (withConn a rest)) := by
  intro w r w' hw hnull
  rcases withConn_cases hw with ⟨pool, hpool, -, -⟩ | ⟨c, pool, t, hpool, hrest, rfl⟩
  · exact absurd (hpool ▸ List.mem_cons_self) hnull
  · have hnull' : none ∉ pool := fun hm => hnull (hpool ▸ List.mem_cons_of_mem _ hm)
    have hperm := h { w with pool, con := some c } c r t hnull' rfl hrest
    refine ⟨rfl, ?_⟩
    rw [hpool]
    exact hperm

theorem returnConn_perm {w v : World} (hcon : v.con = w.con) (hpool : v.pool.Perm w.pool) :
    v.returnConn.pool.Perm (w.con :: w.pool) := by
  show (v.pool ++ [v.con]).Perm _
  rw [hcon]
  exact (List.perm_append_singleton _ _).trans (hpool.cons _)

/-- The guard. -/
theorem same_deferReturn {α : Type} (a : α) {rest : Dao α} (h : Keeps Same rest) :
    Keeps Same (method (withConn a (deferReturn rest))) := by
  refine same_method a fun w c r w' hnull hc hrest => ?_
  obtain ⟨v, hv, rfl⟩ := ensure_eq_some_iff.1 hrest
  obtain ⟨hcon, hpool⟩ := h w r v hv hnull
  rw [← hc]
  exact returnConn_perm hcon hpool

theorem same_kept : Kept Same where
  ask w r w' h := by
    obtain ⟨-, rfl, -⟩ := ask_cases h
    exact same_of_eq rfl rfl
  write write := same_onCon fun w c => write_same w c write
  beginTransaction := same_onCon fun _ _ => ⟨rfl, rfl⟩
  commit := same_askTx fun _ _ => ⟨rfl, rfl⟩
  rollback := same_askTx fun _ _ => ⟨rfl, rfl⟩
  deferReturn := same_deferReturn

/-! ## Connections returned by hand -/

/-- A command that returns the connection if it comes to its end, and not if it
throws. -/
def Hands {α : Type} (x : Dao α) : Prop :=
  ∀ w r w', NoNull w → x w = some (r, w') →
    (∀ a, r = .ok a → w'.pool.Perm (w.con :: w.pool)) ∧
      ∀ e, r = .error e → w'.con = w.con ∧ w'.pool.Perm w.pool

theorem Hands.handBack {α : Type} (a : α) : Hands (do returnConn; return a) := by
  intro w r w' hnull h
  cases h
  refine ⟨fun _ _ => returnConn_perm rfl (.refl _), fun e he => ?_⟩
  cases he

theorem Hands.bind {α β : Type} {x : Dao α} {f : α → Dao β} (hx : Keeps Same x) (hf : ∀ a, Hands (f a)) :
    Hands (x >>= f) := by
  intro w r w' hnull h
  rcases bind_eq_some_iff.1 h with ⟨a, t, hxt, hft⟩ | ⟨e, hxe, rfl⟩
  · obtain ⟨hcon, hpool⟩ := hx w _ t hxt hnull
    obtain ⟨hok, herror⟩ := hf a t r w' (hnull.perm hpool) hft
    rw [hcon] at hok herror
    refine ⟨fun b hb => (hok b hb).trans (hpool.cons _), fun e he => ?_⟩
    exact ⟨(herror e he).1, (herror e he).2.trans hpool⟩
  · exact ⟨fun b hb => (by cases hb), fun _ _ => hx w _ w' hxe hnull⟩

/-- The handler returns it when the block did not. -/
theorem Hands.tryCatch {α : Type} {x : Dao α} (hx : Hands x) (b : α) {w w' : World} {r : Except SQLException α}
    (hnull : NoNull w) (h : tryCatch x (fun _ => do returnConn; return b) w = some (r, w')) :
    w'.pool.Perm (w.con :: w.pool) := by
  rcases tryCatch_eq_some_iff.1 h with ⟨a, hxa, -⟩ | ⟨e, t, hxt, hft⟩
  · exact (hx w _ w' hnull hxa).1 a rfl
  · obtain ⟨hcon, hpool⟩ := (hx w _ t hnull hxt).2 e rfl
    cases hft
    exact returnConn_perm hcon hpool

theorem same_hands {α : Type} (a b : α) {x : Dao α} (hx : Hands x) :
    Keeps Same (method (withConn a (tryCatch x fun _ => do returnConn; return b))) := by
  refine same_method a fun w c r w' hnull hc h => ?_
  rw [← hc]
  exact hx.tryCatch b hnull h

theorem same_regUser (name email pwd : String) : Keeps Same (regUser name email pwd) := by
  refine same_hands 0 (-1) ?_
  refine .bind (same_kept.prepareStatement _) fun _ => .bind (same_kept.setString _ _) fun _ =>
    .bind (same_kept.setString _ _) fun _ => .bind (same_kept.setString _ _) fun _ =>
    .bind (same_kept.executeUpdate _) fun _ => .bind same_kept.createStatement fun _ =>
    .bind same_kept.executeQuery fun rows => .bind (same_kept.next rows) fun row => ?_
  split
  · exact .bind (same_kept.getInt _) fun result => .handBack result
  · exact .handBack (-1)

theorem same_updatePwd (name newpwd : String) : Keeps Same (updatePwd name newpwd) :=
  same_hands false false <| .bind (same_kept.prepareStatement _) fun _ => .bind (same_kept.setString _ _) fun _ =>
    .bind (same_kept.setString _ _) fun _ => .bind (same_kept.executeUpdate _) fun _ => .handBack true

/-! ## The one that loses it -/

/-- What the driver answers a `check_email` that finds no row, by the number of
the call: the statement, its parameter, the query and the first `next`. -/
def FindsNoRow (sql : ℕ → Option Reply) : Prop :=
  (sql 0).isSome ∧ (sql 1).isSome ∧ (∃ reply, sql 2 = some reply ∧ reply.num.toNat = 0) ∧ (sql 3).isSome

theorem findsNoRow_iff {sql : ℕ → Option Reply} {reply : Reply} (h : Answered sql) (hreply : sql 2 = some reply) :
    FindsNoRow sql ↔ reply.num.toNat = 0 := by
  constructor
  · intro hno
    obtain ⟨-, -, ⟨reply', hreply', hzero⟩, -⟩ := hno
    cases hreply.symm.trans hreply'
    exact hzero
  · intro hzero
    exact ⟨h.1, h.2.1, ⟨reply, hreply, hzero⟩, h.2.2.2⟩

/-- The query, with the answers from the first on. -/
theorem emailRow_answered {name : String} {w w' : World} {r : Except SQLException Bool} (hasked : w.asked = 0)
    (h : emailRow name w = some (r, w')) :
    ¬ Answered w.sql ∧ (∃ e, r = .error e) ∧ w'.con = w.con ∧ w'.pool = w.pool ∧ Still w w' ∨
      Answered w.sql ∧ w' = w.tick.tick.tick.tick ∧ ∃ reply, w.sql 2 = some reply ∧ r = .ok (0 < reply.num.toNat) := by
  rcases bind_reply_cases h with ⟨h₀, rfl, rfl⟩ | ⟨reply₀, h₀, h⟩
  · rw [hasked] at h₀
    exact .inl ⟨by simp [Answered, h₀], ⟨_, rfl⟩, rfl, rfl, rfl, rfl⟩
  rcases bind_reply_cases h with ⟨h₁, rfl, rfl⟩ | ⟨reply₁, h₁, h⟩
  · simp only [World.tick, hasked] at h₁
    exact .inl ⟨by simp [Answered, h₁], ⟨_, rfl⟩, rfl, rfl, rfl, rfl⟩
  rcases bind_reply_cases h with ⟨h₂, rfl, rfl⟩ | ⟨reply₂, h₂, h⟩
  · simp only [World.tick, hasked] at h₂
    exact .inl ⟨by simp [Answered, h₂], ⟨_, rfl⟩, rfl, rfl, rfl, rfl⟩
  simp only [World.tick, hasked] at h₀ h₁ h₂
  rcases bind_ask_cases h with ⟨h₃, rfl, rfl⟩ | ⟨reply₃, h₃, h⟩
  · simp only [World.tick, hasked] at h₃
    exact .inl ⟨by simp [Answered, h₃], ⟨_, rfl⟩, rfl, rfl, rfl, rfl⟩
  · simp only [World.tick, hasked] at h₃
    obtain ⟨rfl, rfl⟩ := pure_eq_some_iff.1 h
    exact .inr ⟨by simp [Answered, h₀, h₁, h₂, h₃], rfl, reply₂, h₂, rfl⟩

theorem emailRow_cases {name : String} {w w' : World} {r : Except SQLException Bool}
    (h : emailRow name w = some (r, w')) (hasked : w.asked = 0) :
    w'.con = w.con ∧ w'.pool = w.pool ∧ (r = .ok false ↔ FindsNoRow w.sql) := by
  rcases emailRow_answered hasked h with ⟨hno, ⟨e, rfl⟩, hcon, hpool, -⟩ | ⟨hans, rfl, reply, hreply, rfl⟩
  · refine ⟨hcon, hpool, iff_of_false (fun he => by cases he) fun hfinds => hno ?_⟩
    obtain ⟨h₀, h₁, ⟨reply, hreply, -⟩, h₃⟩ := hfinds
    exact ⟨h₀, h₁, hreply ▸ rfl, h₃⟩
  · refine ⟨rfl, rfl, ?_⟩
    rw [findsNoRow_iff hans hreply, Except.ok.injEq, decide_eq_false_iff_not, Nat.not_lt, Nat.le_zero]

/-- The body of `check_email`: without a row the connection stays out of the
pool, otherwise it is returned. -/
theorem checkEmail_body {name email : String} {w w' : World} {r : Except SQLException Bool} (hnull : NoNull w)
    (hasked : w.asked = 0)
    (h : (tryCatch (do if ← emailRow name then compareEmail email else return true)
      (fun _ => do returnConn; return false) : Dao Bool) w = some (r, w')) :
    ¬ FindsNoRow w.sql ∧ w'.pool.Perm (w.con :: w.pool) ∨ FindsNoRow w.sql ∧ w'.pool = w.pool := by
  have hands : Hands (compareEmail email) :=
    .bind (same_kept.getString _) fun _ => .bind (same_kept.getString _) fun found => .handBack _
  -- The query has left `con` and the pool as they were; what comes after it returns the connection.
  have hfound : ∀ {v : World}, v.con = w.con → v.pool = w.pool →
      tryCatch (compareEmail email) (fun _ => do returnConn; return false) v = some (r, w') →
      w'.pool.Perm (w.con :: w.pool) := by
    intro v hcon hv ht
    rw [← hcon, ← hv]
    exact hands.tryCatch false (hv ▸ hnull : none ∉ v.pool) ht
  rcases tryCatch_eq_some_iff.1 h with ⟨a, hblock, rfl⟩ | ⟨e, v, hblock, hcatch⟩
  · rcases bind_eq_some_iff.1 hblock with ⟨row, v, hrow, hblock⟩ | ⟨e, hrow, he⟩
    · obtain ⟨hcon, hv, hiff⟩ := emailRow_cases hrow hasked
      cases row with
      | true =>
        refine .inl ⟨fun hx => ?_, hfound hcon hv (tryCatch_eq_some_iff.2 (.inl ⟨a, hblock, rfl⟩))⟩
        cases hiff.2 hx
      | false =>
        obtain ⟨-, rfl⟩ := pure_eq_some_iff.1 hblock
        exact .inr ⟨hiff.1 rfl, hv⟩
    · cases he
  · rcases bind_eq_some_iff.1 hblock with ⟨row, u, hrow, hblock⟩ | ⟨e', hrow, -⟩
    · obtain ⟨hcon, hv, hiff⟩ := emailRow_cases hrow hasked
      cases row with
      | true =>
        refine .inl ⟨fun hx => ?_, hfound hcon hv (tryCatch_eq_some_iff.2 (.inr ⟨e, v, hblock, hcatch⟩))⟩
        cases hiff.2 hx
      | false => cases (pure_eq_some_iff.1 hblock).1
    · obtain ⟨hcon, hv, hiff⟩ := emailRow_cases hrow hasked
      cases hcatch
      refine .inl ⟨fun hx => ?_, returnConn_perm hcon (.of_eq hv)⟩
      cases hiff.2 hx

theorem checkEmail_pool {name email : String} {w w' : World} {r : Except SQLException Bool} (hnull : NoNull w)
    (hasked : w.asked = 0) (h : checkEmail name email w = some (r, w')) :
    ¬ FindsNoRow w.sql ∧ w'.pool.Perm w.pool ∨ FindsNoRow w.sql ∧ ∃ c, w.pool = c :: w'.pool := by
  rcases withConn_cases h with ⟨pool, hpool, -, -⟩ | ⟨c, pool, t, hpool, hrest, rfl⟩
  · exact absurd (hpool ▸ List.mem_cons_self) hnull
  have hnull' : none ∉ pool := fun hm => hnull (hpool ▸ List.mem_cons_of_mem _ hm)
  rw [hpool]
  rcases checkEmail_body (w := { w with pool, con := some c }) hnull' hasked hrest with ⟨hno, hperm⟩ | ⟨hno, heq⟩
  · exact .inl ⟨hno, hperm⟩
  · exact .inr ⟨hno, some c, congrArg _ heq.symm⟩

/-! ## Runs -/

/-- Every call of a method other than `check_email` keeps the pool. -/
theorem same_run {call : Call} (h : ∀ name email, call ≠ .checkEmail name email) : Keeps Same call.run :=
  same_kept.run same_regUser (fun name email he => absurd he (h name email)) same_updatePwd

theorem checkConnection_perm {timestamp : ℤ} {alive : ℕ → Bool} {n : ℕ} {w w' : World}
    (h : checkConnection timestamp alive n w = some w') : w'.pool.Perm w.pool := by
  induction n generalizing w with
  | zero =>
    cases h
    exact .refl _
  | succ n ih =>
    unfold checkConnection at h
    split at h
    · rename_i c rest hpool
      rw [hpool]
      exact (ih h).trans (List.perm_append_singleton _ _)
    · cases h

/-- The call is a `check_email` that finds no row. -/
def Op.Drops : Op → Prop
  | .call (.checkEmail _ _) sql _ => FindsNoRow sql
  | _ => False

/-- The pool holds exactly the connections it was made with. -/
def State.Full (n : ℕ) (s : State) : Prop := s.world.pool.Perm ((List.range n).map some)

theorem State.Full.noNull {n : ℕ} {s : State} (h : s.Full n) : NoNull s.world := by
  intro hm
  obtain ⟨c, -, hc⟩ := List.mem_map.1 (h.subset hm)
  cases hc

theorem step_full_iff {n : ℕ} {s s' : State} {op : Op} (h : s.Full n) (hs : s.step op = some s') :
    s'.Full n ↔ ¬ op.Drops := by
  cases op with
  | checkConnection timestamp alive =>
    obtain ⟨w, hw, rfl⟩ := Option.map_eq_some_iff.1 hs
    exact iff_of_true ((checkConnection_perm hw).trans h) id
  | call call sql tx =>
    obtain ⟨⟨r, w⟩, hw, rfl⟩ := Option.map_eq_some_iff.1 hs
    have hnull : NoNull (s.begin sql tx) := h.noNull
    by_cases hcall : ∃ name email, call = .checkEmail name email
    · obtain ⟨name, email, rfl⟩ := hcall
      rcases checkEmail_pool hnull rfl hw with ⟨hno, hperm⟩ | ⟨hno, c, heq⟩
      · exact iff_of_true (hperm.trans h) hno
      · refine iff_of_false (fun hx => ?_) fun hx => hx hno
        have hlen : w.pool.length = s.world.pool.length := (hx.trans h.symm).length_eq
        have hlost : s.world.pool.length = w.pool.length + 1 := congrArg List.length heq
        omega
    · rw [not_exists] at hcall
      have hother : ∀ name email, call ≠ .checkEmail name email := fun name email he => hcall name ⟨email, he⟩
      refine iff_of_true (((same_run hother _ _ _ hw hnull).2).trans h) ?_
      cases call with
      | checkEmail name email => exact absurd rfl (hother name email)
      | _ => exact id

/-- **When the pool keeps its connections.** After every call and every pass of
`check_connection` of a run the pool holds exactly the connections it was made
with, each once, if and only if no `check_email` of the run is answered, with
all its driver calls, by a query without a row. -/
theorem run_conserves {n : ℕ} {ops : List Op} {s : State} (h : Run.run State.step (.init n) ops = some s) :
    Run.Along State.step (fun t _ => t.Full n) (.init n) ops ∧ s.Full n ↔
      Run.Along State.step (fun _ op => ¬ op.Drops) (.init n) ops :=
  Run.along_iff (fun _ => True) (State.Full n) (fun _ _ _ _ _ => trivial) (fun _ _ _ _ ht hs => step_full_iff ht hs)
    trivial (List.Perm.refl _) h

/-- Two users become friends, the list is read, the connections are checked
and replaced, and the driver throws at once in a `check_email`. -/
def mixedCalls : List Op :=
  [.call (.addFriend 1 2 "bob") oneRow fun _ => true, .call (.getFriendList 1) oneRow fun _ => true,
    .checkConnection 100 fun _ => false, .call (.checkEmail "ann" "ann") (fun _ => none) fun _ => true]

theorem run_conserves_mixedCalls :
    ∃ s, Run.run State.step (.init 5) mixedCalls = some s ∧ s.Full 5 ∧
      s.world.pool = [some 4, some 0, some 2, some 1, some 3] := by
  have hsome : (Run.run State.step (.init 5) mixedCalls).map (fun s => s.world.pool) =
      some [some 4, some 0, some 2, some 1, some 3] := by decide +kernel
  obtain ⟨s, hs, hpool⟩ := Option.map_eq_some_iff.1 hsome
  have hnone : ∀ op ∈ mixedCalls, ¬ op.Drops := by
    intro op hm hd
    simp only [mixedCalls, List.mem_cons, List.not_mem_nil, or_false] at hm
    rcases hm with rfl | rfl | rfl | rfl
    · exact hd
    · exact hd
    · exact hd
    · cases hd.1
  exact ⟨s, hs, ((run_conserves hs).2 (Run.along_of_forall hnone)).2, hpool⟩

/-- One `check_email` for a name nobody has, and four connections are left. -/
theorem no_such_name :
    ∃ s, Run.run State.step (.init 5) [.call (.checkEmail "bob" "bob") (fun _ => some ⟨0, ""⟩) fun _ => true] = some s ∧
      s.world.pool = [some 1, some 2, some 3, some 4] ∧ ¬ s.Full 5 := by
  have hsome : (Run.run State.step (.init 5)
      [.call (.checkEmail "bob" "bob") (fun _ => some ⟨0, ""⟩) fun _ => true]).map (fun s => s.world.pool) =
      some [some 1, some 2, some 3, some 4] := rfl
  obtain ⟨s, hs, hpool⟩ := Option.map_eq_some_iff.1 hsome
  refine ⟨s, hs, hpool, fun hfull => ?_⟩
  have hlen := hfull.length_eq
  rw [hpool] at hlen
  cases hlen

end Learncc.Mysql
