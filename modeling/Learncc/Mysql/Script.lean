/-
The DAO methods (src/chat_server/mysql_dao.cc) with a driver whose answers are known in
advance: `Answers` says what a command returns when the driver's next answers are a given
list, and each way commands are put together has its rule.
-/
import Learncc.Mysql.Conservation

namespace Learncc.Mysql

open Command

/-- The driver's answers to come. -/
def Ahead (w : World) (script : List Reply) : Prop := ∀ i, w.sql (w.asked + i) = script[i]?

/-- With the script ahead, and at least `n` connections in the pool, the command uses the
script up and returns `a`. -/
def Answers {α : Type} (n : ℕ) (x : Dao α) (script : List Reply) (a : α) : Prop :=
  ∀ w rest, w.con.isSome → NoNull w → n ≤ w.pool.length → Ahead w (script ++ rest) →
    ∃ w', x w = some (.ok a, w') ∧ w'.con = w.con ∧ w'.pool.Perm w.pool ∧ Ahead w' rest

variable {α β : Type} {n : ℕ} {script script' : List Reply} {a : α} {b : β}

theorem Ahead.ask {w : World} {reply : Reply} (hcon : w.con.isSome) (h : Ahead w (reply :: script)) :
    ask w = some (.ok reply, w.tick) ∧ Ahead w.tick script := by
  obtain ⟨c, hc⟩ := Option.isSome_iff_exists.1 hcon
  have hreply : w.sql w.asked = some reply := h 0
  constructor
  · unfold Mysql.ask
    split
    · rename_i hnone
      cases hc.symm.trans hnone
    · split
      · rename_i hsql
        cases hreply.symm.trans hsql
      · rename_i reply' hsql
        cases hreply.symm.trans hsql
        rfl
  · intro i
    have hnext := h (i + 1)
    rw [List.getElem?_cons_succ] at hnext
    rw [← hnext]
    exact congrArg w.sql (by show w.asked + 1 + i = _; omega)

namespace Answers

theorem pure (a : α) : Answers n (pure a) [] a := fun w _ _ _ _ h => ⟨w, rfl, rfl, .refl _, h⟩

/-- Any call of the driver. -/
theorem reply (f : Reply → α) (reply : Reply) :
    Answers n (do let reply ← Mysql.ask; return f reply) [reply] (f reply) := by
  intro w rest hcon _ _ h
  obtain ⟨hask, hrest⟩ := Ahead.ask hcon h
  exact ⟨w.tick, bind_of_ok hask, rfl, .refl _, hrest⟩

theorem bind {x : Dao α} {f : α → Dao β} (hx : Answers n x script a) (hf : Answers n (f a) script' b) :
    Answers n (x >>= f) (script ++ script') b := by
  intro w rest hcon hnull hn h
  rw [List.append_assoc] at h
  obtain ⟨v, hv, hvcon, hvpool, hvahead⟩ := hx w _ hcon hnull hn h
  rw [← hvcon] at hcon
  rw [← hvpool.length_eq] at hn
  obtain ⟨w', hw', hwcon, hwpool, hahead⟩ := hf v rest hcon (hnull.perm hvpool) hn hvahead
  rw [← bind_of_ok hv (f := f)] at hw'
  exact ⟨w', hw', hwcon.trans hvcon, hwpool.trans hvpool, hahead⟩

/-- One connection more, and what the block answers. `con` may be anything here. -/
theorem run_guarded {ifNull ifThrown : α} {block : Dao α} {w : World} {rest : List Reply}
    (hblock : Answers n block script a) (hnull : NoNull w) (hn : n + 1 ≤ w.pool.length)
    (h : Ahead w (script ++ rest)) :
    ∃ w', guarded ifNull ifThrown block w = some (.ok a, w') ∧
      w'.con = w.con ∧ w'.pool.Perm w.pool ∧ Ahead w' rest := by
  cases hpool : w.pool with
  | nil =>
    rw [hpool] at hn
    exact absurd hn (Nat.not_succ_le_zero n)
  | cons con pool =>
    cases con with
    | none => exact absurd (hpool ▸ List.mem_cons_self) hnull
    | some c =>
      rw [hpool, List.length_cons] at hn
      have hn' : n ≤ pool.length := by omega
      have hnull' : none ∉ pool := fun hm => hnull (hpool ▸ List.mem_cons_of_mem _ hm)
      obtain ⟨v, hv, hcon, hperm, hahead⟩ := hblock { w with pool, con := some c } rest rfl hnull' hn' h
      have hget : getConn { w with con := none } = some (.ok (), { w with pool, con := some c }) := by
        unfold getConn
        split
        · rename_i hnil
          cases hpool.symm.trans hnil
        · rename_i con pool' hcons
          cases hpool.symm.trans hcons
          rfl
      have htry : tryCatch block (fun _ => return ifThrown) { w with pool, con := some c } = some (.ok a, v) :=
        tryCatch_eq_some_iff.2 (.inl ⟨a, hv, rfl⟩)
      refine ⟨{ v.returnConn with con := w.con }, ?_, rfl, ?_, hahead⟩
      · rw [guarded, method, withConn, bind_of_ok hget]
        show Option.map _ (Option.map _ (tryCatch block (fun _ => return ifThrown) { w with pool, con := some c })) = _
        rw [htry]
        rfl
      · exact returnConn_perm (w := { w with pool, con := some c }) hcon hperm

theorem guarded {ifNull ifThrown : α} {block : Dao α} (hblock : Answers n block script a) :
    Answers (n + 1) (guarded ifNull ifThrown block) script a :=
  fun _ _ _ hnull hn h => hblock.run_guarded hnull hn h

end Answers

end Learncc.Mysql
