/-
What the methods of the DAO write (src/chat_server/mysql_dao.cc). `Updates` is
what a method with one statement does, `addFriend_cases` what the transaction
does: both say exactly what is in the database and what waits on a connection
afterwards. `Frame` is what every method keeps: the database only grows, and
what is new in it or on a connection is the running call's own.
-/
import Learncc.Mysql.DaoFacts

namespace Learncc.Mysql

open Command

/-- Connections and database are as before. -/
def Still (w w' : World) : Prop := w'.conns = w.conns ∧ w'.batches = w.batches

/-! ## One statement -/

/-- A statement with two parameters has succeeded: the answers to preparing it,
to each parameter and to its execution. -/
def Answered (sql : ℕ → Option Reply) : Prop :=
  (sql 0).isSome ∧ (sql 1).isSome ∧ (sql 2).isSome ∧ (sql 3).isSome

/-- The write was made through the connection: it is in the database, or waits
for the commit. -/
def Wrote (c : ℕ) (write : Write) (w w' : World) : Prop :=
  if (w.conns c).autocommit then w'.conns = w.conns ∧ w'.batches = w.batches ++ [[⟨w.call, write⟩]]
  else
    w'.conns = Function.update w.conns c { w.conns c with pending := (w.conns c).pending ++ [⟨w.call, write⟩] } ∧
      w'.batches = w.batches

/-- A call of the driver with an answer that is not looked at. -/
def nod : Dao Unit := do
  let _ ← ask
  return ()

theorem write_wrote (w : World) (c : ℕ) (write : Write) :
    (w.write c write).con = w.con ∧ Wrote c write w (w.write c write) := by
  unfold Wrote World.write
  dsimp only
  split
  · exact ⟨rfl, rfl, rfl⟩
  · exact ⟨rfl, rfl, rfl⟩

theorem executeUpdate_cases {write : Write} {w w' : World} {c : ℕ} {r : Except SQLException ℕ} (hc : w.con = some c)
    (h : executeUpdate write w = some (r, w')) :
    w.sql w.asked = none ∧ r = .error ⟨⟩ ∧ w' = w.tick ∨
      ∃ reply, w.sql w.asked = some reply ∧ r = .ok reply.num.toNat ∧ w' = w.tick.write c write := by
  rcases bind_ask_cases h with ⟨hs, rfl, rfl⟩ | ⟨reply, hs, h⟩
  · exact .inl ⟨hs, rfl, rfl⟩
  · have hcon : w.tick.con = some c := hc
    refine .inr ⟨reply, hs, ?_⟩
    rcases bind_eq_some_iff.1 h with ⟨u, t, hwrite, h⟩ | ⟨e, hwrite, -⟩
    · obtain ⟨rfl, rfl⟩ := pure_eq_some_iff.1 h
      cases hwrite
      refine ⟨rfl, ?_⟩
      show w.tick.con.elim _ _ = _
      rw [hcon]
      rfl
    · cases hwrite

/-- The statement and what follows it. -/
theorem statement_cases {write : Write} {w w' : World} {c : ℕ} {g : ℕ → Dao Bool} {r : Except SQLException Bool}
    (hc : w.con = some c) (hasked : w.asked = 0)
    (h : (do nod; nod; nod; let n ← executeUpdate write; g n : Dao Bool) w = some (r, w')) :
    ¬ Answered w.sql ∧ r = .error ⟨⟩ ∧ w'.con = some c ∧ Still w w' ∨
      Answered w.sql ∧ ∃ n v, v.con = some c ∧ Wrote c write w v ∧ g n v = some (r, w') := by
  rcases bind_reply_cases h with ⟨h₀, rfl, rfl⟩ | ⟨reply₀, h₀, h⟩
  · rw [hasked] at h₀
    exact .inl ⟨by simp [Answered, h₀], rfl, hc, rfl, rfl⟩
  rcases bind_reply_cases h with ⟨h₁, rfl, rfl⟩ | ⟨reply₁, h₁, h⟩
  · simp only [World.tick, hasked] at h₁
    exact .inl ⟨by simp [Answered, h₁], rfl, hc, rfl, rfl⟩
  rcases bind_reply_cases h with ⟨h₂, rfl, rfl⟩ | ⟨reply₂, h₂, h⟩
  · simp only [World.tick, hasked] at h₂
    exact .inl ⟨by simp [Answered, h₂], rfl, hc, rfl, rfl⟩
  have hcon : w.tick.tick.tick.con = some c := hc
  rcases bind_eq_some_iff.1 h with ⟨n, v, hupdate, h⟩ | ⟨e, hupdate, rfl⟩
  · rcases executeUpdate_cases hcon hupdate with ⟨-, he, -⟩ | ⟨reply₃, h₃, -, rfl⟩
    · cases he
    · simp only [World.tick, hasked] at h₀ h₁ h₂ h₃
      obtain ⟨hkept, hwrote⟩ := write_wrote w.tick.tick.tick.tick c write
      exact .inr ⟨by simp [Answered, h₀, h₁, h₂, h₃], n, _, hkept.trans hc, hwrote, h⟩
  · rcases executeUpdate_cases hcon hupdate with ⟨h₃, -, rfl⟩ | ⟨reply₃, h₃, he, -⟩
    · simp only [World.tick, hasked] at h₃
      exact .inl ⟨by simp [Answered, h₃], rfl, hc, rfl, rfl⟩
    · cases he

/-- What a method with one statement does with the first connection `c` of the
pool. -/
def Updates (write : Write) (x : Dao Bool) : Prop :=
  ∀ w r w', w.asked = 0 → x w = some (r, w') →
    (∃ pool, w.pool = none :: pool ∧ r = .ok false ∧ Still w w') ∨
      ∃ c pool, w.pool = some c :: pool ∧
        (¬ Answered w.sql ∧ r = .ok false ∧ Still w w' ∨ Answered w.sql ∧ r = .ok true ∧ Wrote c write w w')

theorem updates_guarded {write : Write} {block : Dao Bool}
    (hblock : block = do
      nod; nod; nod
      let n ← executeUpdate write
      if (n : ℤ) < 0 then return false else return true) :
    Updates write (guarded false false block) := by
  intro w r w' hasked h
  rcases withConn_cases h with ⟨pool, hpool, rfl, rfl⟩ | ⟨c, pool, t, hpool, hrest, rfl⟩
  · exact .inl ⟨pool, hpool, rfl, rfl, rfl⟩
  refine .inr ⟨c, pool, hpool, ?_⟩
  obtain ⟨v, htry, rfl⟩ := ensure_eq_some_iff.1 hrest
  subst hblock
  rcases tryCatch_eq_some_iff.1 htry with ⟨b, hb, rfl⟩ | ⟨e, u, hb, hcatch⟩
  · rcases statement_cases (w := { w with pool, con := some c }) rfl hasked hb with
      ⟨-, he, -⟩ | ⟨hans, n, u, -, hwrote, h⟩
    · cases he
    · rw [if_neg (by omega)] at h
      obtain ⟨he, rfl⟩ := pure_eq_some_iff.1 h
      cases he
      exact .inr ⟨hans, rfl, hwrote⟩
  · obtain ⟨rfl, rfl⟩ := pure_eq_some_iff.1 hcatch
    rcases statement_cases (w := { w with pool, con := some c }) rfl hasked hb with
      ⟨hans, -, -, hstill⟩ | ⟨-, n, u, -, -, h⟩
    · exact .inl ⟨hans, rfl, hstill⟩
    · rw [if_neg (by omega)] at h
      cases (pure_eq_some_iff.1 h).1

theorem updates_authFriendApply (fromUid toUid : ℤ) :
    Updates (.authApply toUid fromUid) (authFriendApply fromUid toUid) :=
  updates_guarded rfl

theorem updates_addFriendApply (fromUid toUid : ℤ) : Updates (.addApply fromUid toUid) (addFriendApply fromUid toUid) :=
  updates_guarded rfl

theorem updates_updatePwd (name newpwd : String) : Updates (.updatePwd name newpwd) (updatePwd name newpwd) := by
  intro w r w' hasked h
  rcases withConn_cases h with ⟨pool, hpool, rfl, rfl⟩ | ⟨c, pool, t, hpool, hrest, rfl⟩
  · exact .inl ⟨pool, hpool, rfl, rfl, rfl⟩
  refine .inr ⟨c, pool, hpool, ?_⟩
  have hrest' : (tryCatch (do nod; nod; nod; let _ ← executeUpdate (.updatePwd name newpwd); returnConn; return true)
      (fun _ => do returnConn; return false) : Dao Bool) { w with pool, con := some c } = some (r, t) := hrest
  rcases tryCatch_eq_some_iff.1 hrest' with ⟨b, hb, rfl⟩ | ⟨e, u, hb, hcatch⟩
  · rcases statement_cases (w := { w with pool, con := some c }) rfl hasked hb with
      ⟨-, he, -⟩ | ⟨hans, n, u, -, hwrote, h⟩
    · cases he
    · cases h
      exact .inr ⟨hans, rfl, hwrote⟩
  · rcases statement_cases (w := { w with pool, con := some c }) rfl hasked hb with
      ⟨hans, -, -, hstill⟩ | ⟨-, n, u, -, -, h⟩
    · cases hcatch
      exact .inl ⟨hans, rfl, hstill⟩
    · cases h

/-! ## The transaction -/

/-- Since `w₀` only the connection `c` has changed, and nothing was
committed. -/
structure Within (w₀ : World) (c : ℕ) (w : World) : Prop where
  con : w.con = some c
  call : w.call = w₀.call
  batches : w.batches = w₀.batches
  tx : w.tx = w₀.tx
  conns : ∃ conn, w.conns = Function.update w₀.conns c conn

/-- The transaction has made these writes. -/
structure InTx (w₀ : World) (c : ℕ) (entries : List Entry) (w : World) : Prop extends Within w₀ c w where
  autocommit : (w.conns c).autocommit = false
  pending : (w.conns c).pending = (w₀.conns c).pending ++ entries

variable {w₀ w w' : World} {c : ℕ} {entries : List Entry}

theorem within_start (hc : w.con = some c) : Within w c w :=
  ⟨hc, rfl, rfl, rfl, w.conns c, (Function.update_eq_self c w.conns).symm⟩

theorem Within.tick (h : Within w₀ c w) : Within w₀ c w.tick := ⟨h.con, h.call, h.batches, h.tx, h.conns⟩

theorem InTx.tick (h : InTx w₀ c entries w) : InTx w₀ c entries w.tick :=
  { h.toWithin.tick with autocommit := h.autocommit, pending := h.pending }

/-- One more change of the connection. -/
theorem Within.update (h : Within w₀ c w) (conn : Conn) :
    Within w₀ c { w with conns := Function.update w.conns c conn } := by
  obtain ⟨old, hconns⟩ := h.conns
  refine ⟨h.con, h.call, h.batches, h.tx, conn, ?_⟩
  show Function.update w.conns c conn = _
  rw [hconns, Function.update_idem]

theorem InTx.write (h : InTx w₀ c entries w) (write : Write) :
    InTx w₀ c (entries ++ [⟨w₀.call, write⟩]) (w.write c write) := by
  have hwrite : w.write c write = { w with
      conns := Function.update w.conns c { w.conns c with pending := (w.conns c).pending ++ [⟨w.call, write⟩] } } := by
    simp [World.write, h.autocommit]
  rw [hwrite]
  refine { h.toWithin.update _ with autocommit := ?_, pending := ?_ }
  · simp [h.autocommit]
  · simp [h.pending, h.call]

theorem setAutoCommitFalse_cases {r : Except SQLException Unit} (hc : w.con = some c)
    (h : setAutoCommitFalse w = some (r, w')) :
    r = .error ⟨⟩ ∧ Within w c w' ∨ r = .ok () ∧ InTx w c [] w' := by
  rcases bind_ask_cases h with ⟨-, rfl, rfl⟩ | ⟨reply, -, h⟩
  · exact .inl ⟨rfl, (within_start hc).tick⟩
  · have hcon : w.tick.con = some c := hc
    have hbegin : onCon World.beginTransaction w.tick = some (.ok (), w.tick.beginTransaction c) := by
      show some (_, w.tick.con.elim _ _) = _
      rw [hcon]
      rfl
    rw [hbegin] at h
    cases h
    refine .inr ⟨rfl, { (within_start hc).tick.update _ with autocommit := ?_, pending := ?_ }⟩
    · simp [World.beginTransaction]
    · simp [World.beginTransaction, World.tick]

theorem insertFriend_cases {selfId friendId : ℤ} {back : String} {r : Except SQLException ℕ} (ht : InTx w₀ c entries w)
    (h : insertFriend selfId friendId back w = some (r, w')) :
    r = .error ⟨⟩ ∧ Within w₀ c w' ∨
      (∃ n, r = .ok n) ∧ InTx w₀ c (entries ++ [⟨w₀.call, .addFriend selfId friendId back⟩]) w' := by
  have ht₁ := ht.tick
  have ht₂ := ht₁.tick
  have ht₃ := ht₂.tick
  have ht₄ := ht₃.tick
  rcases bind_reply_cases h with ⟨-, rfl, rfl⟩ | ⟨reply₀, -, h⟩
  · exact .inl ⟨rfl, ht₁.toWithin⟩
  rcases bind_reply_cases h with ⟨-, rfl, rfl⟩ | ⟨reply₁, -, h⟩
  · exact .inl ⟨rfl, ht₂.toWithin⟩
  rcases bind_reply_cases h with ⟨-, rfl, rfl⟩ | ⟨reply₂, -, h⟩
  · exact .inl ⟨rfl, ht₃.toWithin⟩
  rcases bind_reply_cases h with ⟨-, rfl, rfl⟩ | ⟨reply₃, -, h⟩
  · exact .inl ⟨rfl, ht₄.toWithin⟩
  rcases executeUpdate_cases ht₄.con h with ⟨-, rfl, rfl⟩ | ⟨reply, -, rfl, rfl⟩
  · exact .inl ⟨rfl, ht₄.tick.toWithin⟩
  · exact .inr ⟨⟨_, rfl⟩, ht₄.tick.write _⟩

/-- The connection has nothing that waits. -/
def Settled (w₀ : World) (c : ℕ) (batches : List (List Entry)) (w : World) : Prop :=
  w.batches = batches ∧ ∃ conn, w.conns = Function.update w₀.conns c conn ∧ conn.pending = []

theorem rollback_cases {r : Except SQLException Unit} (hw : Within w₀ c w) (h : rollback w = some (r, w')) :
    r = .ok () ∧ Settled w₀ c w₀.batches w' ∨ r = .error ⟨⟩ ∧ ∃ n, w₀.tx n = false := by
  obtain ⟨c', hc', ⟨-, rfl, rfl⟩ | ⟨htx, rfl, -⟩⟩ := askTx_cases h
  · cases hw.con.symm.trans hc'
    obtain ⟨conn, hconns⟩ := hw.conns
    refine .inl ⟨rfl, hw.batches, { w.conns c with pending := [] }, ?_, rfl⟩
    show Function.update w.conns c _ = _
    rw [hconns, Function.update_idem]
  · exact .inr ⟨rfl, w.txAsked, hw.tx ▸ htx⟩

theorem commit_cases {r : Except SQLException Unit} (ht : InTx w₀ c entries w) (h : commit w = some (r, w')) :
    r = .ok () ∧ Settled w₀ c (w₀.batches ++ [(w₀.conns c).pending ++ entries]) w' ∨
      r = .error ⟨⟩ ∧ Within w₀ c w' := by
  obtain ⟨c', hc', ⟨-, rfl, rfl⟩ | ⟨-, rfl, rfl⟩⟩ := askTx_cases h
  · cases ht.con.symm.trans hc'
    obtain ⟨conn, hconns⟩ := ht.conns
    refine .inl ⟨rfl, ?_, { w.conns c with pending := [] }, ?_, rfl⟩
    · show w.batches ++ [(w.conns c).pending] = _
      rw [ht.batches, ht.pending]
    · show Function.update w.conns c _ = _
      rw [hconns, Function.update_idem]
  · exact .inr ⟨rfl, ht.con, ht.call, ht.batches, ht.tx, ht.conns⟩

/-- The two writes of `add_friend`. -/
def friendWrites (fromUid toUid : ℤ) (backName : String) : List Write :=
  [.addFriend fromUid toUid backName, .addFriend toUid fromUid ""]

/-- The block throws before anything is committed, or commits both writes. -/
theorem addFriendBlock_cases {fromUid toUid : ℤ} {backName : String} {r : Except SQLException Bool}
    (hc : w.con = some c) (h : addFriendBlock fromUid toUid backName w = some (r, w')) :
    r = .error ⟨⟩ ∧ Within w c w' ∨
      r = .ok true ∧
        Settled w c
          (w.batches ++ [(w.conns c).pending ++ (friendWrites fromUid toUid backName).map (Entry.mk w.call)]) w' := by
  rcases bind_eq_some_iff.1 h with ⟨u, v₁, hauto, h⟩ | ⟨e, hauto, rfl⟩
  case inr =>
    rcases setAutoCommitFalse_cases hc hauto with ⟨-, hw⟩ | ⟨he, -⟩
    · exact .inl ⟨rfl, hw⟩
    · cases he
  have ht₁ : InTx w c [] v₁ := by
    rcases setAutoCommitFalse_cases hc hauto with ⟨he, -⟩ | ⟨-, ht⟩
    · cases he
    · exact ht
  rcases bind_eq_some_iff.1 h with ⟨n₁, v₂, hfirst, h⟩ | ⟨e, hfirst, rfl⟩
  case inr =>
    rcases insertFriend_cases ht₁ hfirst with ⟨-, hw⟩ | ⟨⟨n, he⟩, -⟩
    · exact .inl ⟨rfl, hw⟩
    · cases he
  have ht₂ : InTx w c [⟨w.call, .addFriend fromUid toUid backName⟩] v₂ := by
    rcases insertFriend_cases ht₁ hfirst with ⟨he, -⟩ | ⟨-, ht⟩
    · cases he
    · exact ht
  rw [if_neg (by omega)] at h
  rcases bind_eq_some_iff.1 h with ⟨n₂, v₃, hsecond, h⟩ | ⟨e, hsecond, rfl⟩
  case inr =>
    rcases insertFriend_cases ht₂ hsecond with ⟨-, hw⟩ | ⟨⟨n, he⟩, -⟩
    · exact .inl ⟨rfl, hw⟩
    · cases he
  have ht₃ : InTx w c ((friendWrites fromUid toUid backName).map (Entry.mk w.call)) v₃ := by
    rcases insertFriend_cases ht₂ hsecond with ⟨he, -⟩ | ⟨-, ht⟩
    · cases he
    · exact ht
  rw [if_neg (by omega)] at h
  rcases bind_eq_some_iff.1 h with ⟨u, v₄, hcommit, h⟩ | ⟨e, hcommit, rfl⟩
  · obtain ⟨rfl, rfl⟩ := pure_eq_some_iff.1 h
    rcases commit_cases ht₃ hcommit with ⟨-, hs⟩ | ⟨he, -⟩
    · exact .inr ⟨rfl, hs⟩
    · cases he
  · rcases commit_cases ht₃ hcommit with ⟨he, -⟩ | ⟨-, hw⟩
    · cases he
    · exact .inl ⟨rfl, hw⟩

/-- What `add_friend` does with the first connection `c` of the pool: it
commits both writes, with what others left on the connection, or rolls
everything back; only where the rollback fails it throws. -/
theorem addFriend_cases {fromUid toUid : ℤ} {backName : String} {r : Except SQLException Bool}
    (h : addFriend fromUid toUid backName w = some (r, w')) :
    (∃ pool, w.pool = none :: pool ∧ r = .ok false ∧ Still w w') ∨
      ∃ c pool, w.pool = some c :: pool ∧
        (r = .ok true ∧ Settled w c
            (w.batches ++ [(w.conns c).pending ++ (friendWrites fromUid toUid backName).map (Entry.mk w.call)]) w' ∨
          r = .ok false ∧ Settled w c w.batches w' ∨ (∃ e, r = .error e) ∧ ∃ n, w.tx n = false) := by
  rcases withConn_cases h with ⟨pool, hpool, rfl, rfl⟩ | ⟨c, pool, t, hpool, hrest, rfl⟩
  · exact .inl ⟨pool, hpool, rfl, rfl, rfl⟩
  refine .inr ⟨c, pool, hpool, ?_⟩
  obtain ⟨v, htry, rfl⟩ := ensure_eq_some_iff.1 hrest
  rcases tryCatch_eq_some_iff.1 htry with ⟨b, hb, rfl⟩ | ⟨e, u, hb, hcatch⟩
  · rcases addFriendBlock_cases rfl hb with ⟨he, -⟩ | ⟨he, hs⟩
    · cases he
    · cases he
      exact .inl ⟨rfl, hs⟩
  · rcases addFriendBlock_cases rfl hb with ⟨-, hw⟩ | ⟨he, -⟩
    · rcases bind_eq_some_iff.1 hcatch with ⟨u', x, hback, hret⟩ | ⟨e', hback, rfl⟩
      · obtain ⟨rfl, rfl⟩ := pure_eq_some_iff.1 hret
        rcases rollback_cases hw hback with ⟨-, hs⟩ | ⟨he, -⟩
        · exact .inr (.inl ⟨rfl, hs⟩)
        · cases he
      · rcases rollback_cases hw hback with ⟨he, -⟩ | ⟨-, htx⟩
        · cases he
        · exact .inr (.inr ⟨⟨e', rfl⟩, htx⟩)
    · cases he

/-! ## What every call keeps -/

/-- The entry is in the database. -/
def World.Committed (w : World) (entry : Entry) : Prop := ∃ batch ∈ w.batches, entry ∈ batch

/-- It is there or waits on a connection. -/
def World.Holds (w : World) (entry : Entry) : Prop := w.Committed entry ∨ ∃ c, entry ∈ (w.conns c).pending

/-- The database only grows, and what is new anywhere is of the call that
runs. -/
structure Frame (w w' : World) : Prop where
  call : w'.call = w.call
  batches : w.batches <+: w'.batches
  fresh : ∀ entry, w'.Holds entry → w.Holds entry ∨ entry.call = w.call

instance : IsPreorder World Frame where
  refl w := ⟨rfl, List.prefix_refl _, fun _ h => .inl h⟩
  trans w v u hwv hvu := by
    refine ⟨hvu.call.trans hwv.call, hwv.batches.trans hvu.batches, fun entry h => ?_⟩
    rcases hvu.fresh entry h with h | h
    · exact hwv.fresh entry h
    · exact .inr (h.trans hwv.call)

theorem Frame.committed (h : Frame w w') {entry : Entry} (he : w.Committed entry) : w'.Committed entry := by
  obtain ⟨batch, hb, hm⟩ := he
  exact ⟨batch, h.batches.subset hb, hm⟩

theorem frame_of_eq (hcall : w'.call = w.call) (hstill : Still w w') : Frame w w' := by
  refine ⟨hcall, hstill.2 ▸ List.prefix_refl _, fun entry h => .inl ?_⟩
  unfold World.Holds World.Committed at h ⊢
  rwa [hstill.1, hstill.2] at h

/-- The connection now holds entries it held before and the call's own. -/
theorem frame_update {conn : Conn} (h : ∀ entry ∈ conn.pending, entry ∈ (w.conns c).pending ∨ entry.call = w.call) :
    Frame w { w with conns := Function.update w.conns c conn } := by
  refine ⟨rfl, List.prefix_refl _, fun entry hx => ?_⟩
  rcases hx with hx | ⟨d, hd⟩
  · exact .inl (.inl hx)
  · by_cases hdc : d = c
    · subst hdc
      simp only [Function.update_self] at hd
      rcases h entry hd with hm | hm
      · exact .inl (.inr ⟨d, hm⟩)
      · exact .inr hm
    · simp only [Function.update_of_ne hdc] at hd
      exact .inl (.inr ⟨d, hd⟩)

/-- More is in the database: entries that waited, and the call's own. -/
theorem frame_batch {batch : List Entry} (h : ∀ entry ∈ batch, w.Holds entry ∨ entry.call = w.call) :
    Frame w { w with batches := w.batches ++ [batch] } := by
  refine ⟨rfl, List.prefix_append _ _, fun entry hx => ?_⟩
  rcases hx with ⟨b, hb, hm⟩ | hx
  · rcases List.mem_append.1 hb with hb | hb
    · exact .inl (.inl ⟨b, hb, hm⟩)
    · rw [List.mem_singleton.1 hb] at hm
      exact h entry hm
  · exact .inl (.inr hx)

theorem frame_write (w : World) (c : ℕ) (write : Write) : Frame w (w.write c write) := by
  unfold World.write
  dsimp only
  split
  · refine frame_batch fun entry hm => .inr ?_
    rw [List.mem_singleton.1 hm]
  · refine frame_update fun entry hm => ?_
    rcases List.mem_append.1 hm with hm | hm
    · exact .inl hm
    · rw [List.mem_singleton.1 hm]
      exact .inr rfl

theorem frame_rollback (w : World) (c : ℕ) : Frame w (w.rollback c) := by
  refine frame_update fun entry hm => ?_
  cases hm

theorem frame_commit (w : World) (c : ℕ) : Frame w (w.commit c) :=
  trans_of Frame (frame_batch fun _ hm => .inl (.inr ⟨c, hm⟩)) (frame_rollback _ c)

theorem frame_onCon {f : World → ℕ → World} (hf : ∀ w c, Frame w (f w c)) : Keeps Frame (onCon f) := by
  refine Keeps.modify fun w => ?_
  cases hc : w.con with
  | none => exact refl_of Frame w
  | some c => exact hf w c

theorem frame_askTx {f : World → ℕ → World} (hf : ∀ w c, Frame w (f w c)) : Keeps Frame (askTx f) := by
  intro w r w' h
  have hasked : Frame w { w with txAsked := w.txAsked + 1 } := frame_of_eq rfl ⟨rfl, rfl⟩
  obtain ⟨c, -, ⟨-, -, rfl⟩ | ⟨-, -, rfl⟩⟩ := askTx_cases h
  · exact trans_of Frame hasked (hf _ c)
  · exact hasked

theorem frame_returnConn (w : World) : Frame w w.returnConn := frame_of_eq rfl ⟨rfl, rfl⟩

theorem frame_method {α : Type} (a : α) {rest : Dao α} (h : Keeps Frame rest) :
    Keeps Frame (method (withConn a rest)) := by
  intro w r w' hw
  rcases withConn_cases hw with ⟨pool, -, -, rfl⟩ | ⟨c, pool, t, -, hrest, rfl⟩
  · exact frame_of_eq rfl ⟨rfl, rfl⟩
  · have htaken : Frame w { w with pool, con := some c } := frame_of_eq rfl ⟨rfl, rfl⟩
    have hback : Frame t { t with con := w.con } := frame_of_eq rfl ⟨rfl, rfl⟩
    exact trans_of Frame (trans_of Frame htaken (h _ r t hrest)) hback

theorem frame_kept : Kept Frame where
  ask w r w' h := by
    obtain ⟨-, rfl, -⟩ := ask_cases h
    exact frame_of_eq rfl ⟨rfl, rfl⟩
  write write := frame_onCon fun w c => frame_write w c write
  beginTransaction := frame_onCon fun _ _ => frame_update fun _ hm => .inl hm
  commit := frame_askTx frame_commit
  rollback := frame_askTx frame_rollback
  deferReturn a _ h := frame_method a (h.ensure frame_returnConn)

theorem frame_handBack {α : Type} (a : α) : Keeps Frame (do returnConn; return a : Dao α) :=
  (Keeps.modify frame_returnConn).bind fun _ => .pure a

theorem frame_regUser (name email pwd : String) : Keeps Frame (regUser name email pwd) := by
  refine frame_method _ (Keeps.tryCatch ?_ fun _ => frame_handBack _)
  refine (frame_kept.prepareStatement _).bind fun _ => (frame_kept.setString _ _).bind fun _ =>
    (frame_kept.setString _ _).bind fun _ => (frame_kept.setString _ _).bind fun _ =>
    (frame_kept.executeUpdate _).bind fun _ => frame_kept.createStatement.bind fun _ =>
    frame_kept.executeQuery.bind fun rows => (frame_kept.next rows).bind fun row => ?_
  split
  · exact (frame_kept.getInt _).bind fun result => frame_handBack result
  · exact frame_handBack (-1)

theorem frame_checkEmail (name email : String) : Keeps Frame (checkEmail name email) := by
  have hrow : Keeps Frame (emailRow name) := (frame_kept.prepareStatement _).bind fun _ =>
    (frame_kept.setString _ _).bind fun _ => frame_kept.executeQuery.bind fun rows => frame_kept.next rows
  refine frame_method _ (Keeps.tryCatch (hrow.bind fun row => ?_) fun _ => frame_handBack _)
  split
  · exact (frame_kept.getString _).bind fun _ => (frame_kept.getString _).bind fun _ => frame_handBack _
  · exact .pure _

theorem frame_updatePwd (name newpwd : String) : Keeps Frame (updatePwd name newpwd) := by
  refine frame_method _ (Keeps.tryCatch ?_ fun _ => frame_handBack _)
  exact (frame_kept.prepareStatement _).bind fun _ => (frame_kept.setString _ _).bind fun _ =>
    (frame_kept.setString _ _).bind fun _ => (frame_kept.executeUpdate _).bind fun _ => frame_handBack _

theorem frame_run (call : Call) : Keeps Frame call.run :=
  frame_kept.run frame_regUser (fun name email _ => frame_checkEmail name email) frame_updatePwd

end Learncc.Mysql
