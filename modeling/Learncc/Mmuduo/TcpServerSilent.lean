/-
A connection of a `tcp_server` after its end. If no thread stores DISCONNECTING
over DISCONNECTED, a connection that has been closed stays DISCONNECTED and is
watched for nothing, and once `connect_destroyed` has run it is not in the epoll
set any more and runs no callback (`silent_after_destroyed`).

The loop may still hold functors of the connection then. Those that run one of the
user's callbacks were handed to it before the close, so they stand before
`connect_destroyed` in its queue (`Silenced`).

`send` and `shutdown` bind the bare `this`. Who calls them keeps a
`tcp_connection_ptr`, so their functors find the object.
-/
import Learncc.Mmuduo.ConnShut

namespace Learncc

/-- The functor a call from another thread is about to queue. -/
def ConnCaller.functor : ConnCaller → Option ConnFunctor
  | .idle => none
  | .toStore _ f | .toQueue _ f => some f

namespace TcpServer

namespace System

variable {s s' : System} {i j l : ℕ} {o o' : ServerConn} {f : ServerFunctor} {fs : List ServerFunctor}

/-- The step stores DISCONNECTING over DISCONNECTED. -/
def overwrites (s : System) : Act → Bool
  | .store t =>
    match s.callers t with
    | .toStore i _ => s.conns[i]?.any fun o => o.conn.state = .disconnected
    | _ => false
  | _ => false

/-- A closed connection is shut; a destroyed one is out of the epoll set, and no
functor that runs one of its callbacks waits. -/
structure Sound (o : ServerConn) : Prop where
  ended : o.conn.Ended
  out : 0 < o.destroyed → o.conn.chan.idx = .new
  quiet : 0 < o.destroyed → ∀ b ∈ o.conn.calling, b = false

/-- No closed connection has such a functor behind its `connect_destroyed`. -/
def Hush (s : System) : Prop :=
  ∀ (i : ℕ) (o : ServerConn), s.conns[i]? = some o → Silenced i (s.queue o.loop) o.conn.calling

/-- What is kept. -/
structure Quiet (s : System) : Prop where
  sound : ∀ (i : ℕ) (o : ServerConn), s.conns[i]? = some o → Sound o
  hush : Hush s
  callers : ∀ t f, (s.callers t).functor = some f → f.calls = false

/-- How a connection goes on. -/
structure Follows (o o' : ServerConn) : Prop where
  destroyed : o.destroyed ≤ o'.destroyed
  sound : Sound o'
  silent : 0 < o.destroyed → o'.conn.cbs = o.conn.cbs

theorem Follows.refl (h : Sound o) : Follows o o := ⟨Nat.le_refl _, h, fun _ => rfl⟩

theorem Sound.of_live (hzero : o.destroyed = 0) (hended : o.conn.Ended) : Sound o :=
  ⟨hended, fun hpos => by omega, fun hpos => by omega⟩

theorem Follows.of_live (hzero : o.destroyed = 0) (hdestroyed : o'.destroyed = o.destroyed) (hended : o'.conn.Ended) :
    Follows o o' :=
  ⟨Nat.le_of_eq hdestroyed.symm, .of_live (hdestroyed.trans hzero) hended, fun hpos => by omega⟩

/-- A member function that does nothing to a connection that is destroyed. -/
theorem Sound.call {g : Conn → Conn} (h : Sound o) (hended : (g o.conn).Ended)
    (hstill : 0 < o.destroyed → o.conn.Still (g o.conn)) (hconn : o'.conn = g o.conn)
    (hdestroyed : o'.destroyed = o.destroyed) : Follows o o' := by
  refine ⟨Nat.le_of_eq hdestroyed.symm, ⟨by rw [hconn]; exact hended, fun hpos => ?_, fun hpos => ?_⟩, fun hpos => ?_⟩
  · rw [hdestroyed] at hpos
    rw [hconn, (hstill hpos).chan]
    exact h.out hpos
  · rw [hdestroyed] at hpos
    rw [hconn]
    exact (hstill hpos).hushed.quiet (h.quiet hpos)
  · rw [hconn, (hstill hpos).cbs]

theorem shut_of_destroyed (h : Owes s 0 Due.none) (hsound : Sound o) (ho : s.conns[i]? = some o)
    (hpos : 0 < o.destroyed) : o.conn.Shut := by
  have hk := (h.at i).self ho
  have hclosed : o.removed + _ + 0 = o.conn.cbs.count .close := hk.closed
  have hremoved : o.destroyed + _ + 0 = o.removed := hk.removed
  exact hsound.ended (by omega)

/-- A call that changes connection `j` only, for which `j` follows. -/
theorem follows_call {g : Conn → Conn} {j : ℕ} (hsound : ∀ (i : ℕ) (o : ServerConn), s.conns[i]? = some o → Sound o)
    (hself : ∀ o o', s.conns[j]? = some o → o'.conn = g o.conn → o'.destroyed = o.destroyed → Follows o o')
    (ho : s.conns[i]? = some o) : ∃ o', (s.call j g).conns[i]? = some o' ∧ Follows o o' := by
  by_cases hij : i = j
  · subst hij
    obtain ⟨⟨o', ho', hconn, hdestroyed⟩, -⟩ := conns_call ho g
    exact ⟨o', ho', hself o o' ho hconn hdestroyed⟩
  · cases hj : s.conns[j]? with
    | none =>
      unfold System.call
      rw [hj]
      exact ⟨o, ho, .refl (hsound i o ho)⟩
    | some p =>
      obtain ⟨-, hrest⟩ := conns_call hj g
      exact ⟨o, (hrest i hij).trans ho, .refl (hsound i o ho)⟩

/-- So does one that runs on a connection just written back. -/
theorem conns_setConn_call {j : ℕ} {p : ServerConn} (hp : s.conns[j]? = some p) (q : ServerConn) (g : Conn → Conn) :
    (∃ q', ((s.setConn j q).call j g).conns[j]? = some q' ∧ q'.conn = g q.conn ∧ q'.destroyed = q.destroyed) ∧
      ∀ i, i ≠ j → ((s.setConn j q).call j g).conns[i]? = s.conns[i]? := by
  obtain ⟨hlt, -⟩ := List.getElem?_eq_some_iff.1 hp
  have hself : (s.setConn j q).conns[j]? = some q := List.getElem?_set_self hlt
  obtain ⟨hmine, hrest⟩ := conns_call hself g
  exact ⟨hmine, fun i hij => (hrest i hij).trans (List.getElem?_set_ne (Ne.symm hij))⟩

theorem follows_event {r : ReadvResult} {w : WriteResult} {j : ℕ} {cbs : List Channel.Callback} {p : ServerConn}
    (hsound : ∀ (i : ℕ) (o : ServerConn), s.conns[i]? = some o → Sound o) (hp : s.conns[j]? = some p)
    (hzero : p.destroyed = 0) (ho : s.conns[i]? = some o) :
    ∃ o', (cbs.foldl (fun s cb => s.call j (Conn.runCallback r w · cb)) s).conns[i]? = some o' ∧ Follows o o' := by
  induction cbs generalizing s o p with
  | nil => exact ⟨o, ho, .refl (hsound i o ho)⟩
  | cons cb cbs ih =>
    have hself : ∀ q q' : ServerConn, s.conns[j]? = some q → q'.conn = Conn.runCallback r w q.conn cb →
        q'.destroyed = q.destroyed → Follows q q' := by
      intro q q' hq hconn hdestroyed
      rw [hp] at hq
      cases hq
      refine .of_live hzero hdestroyed ?_
      rw [hconn]
      exact (hsound j p hp).ended.runCallback r w cb
    obtain ⟨⟨p', hp', hconn, hdestroyed⟩, hrest⟩ := conns_call hp (Conn.runCallback r w · cb)
    have hsound' : ∀ (k : ℕ) (q : ServerConn),
        (s.call j (Conn.runCallback r w · cb)).conns[k]? = some q → Sound q := by
      intro k q hq
      by_cases hkj : k = j
      · subst hkj
        rw [hp'] at hq
        cases hq
        exact (hself p p' hp hconn hdestroyed).sound
      · rw [hrest k hkj] at hq
        exact hsound k q hq
    obtain ⟨o₁, ho₁, hfollows⟩ := follows_call (g := (Conn.runCallback r w · cb)) hsound hself ho
    obtain ⟨o', ho', hfollows'⟩ := ih hsound' hp' (hdestroyed.trans hzero) ho₁
    refine ⟨o', ho', hfollows.destroyed.trans hfollows'.destroyed, hfollows'.sound, fun hpos => ?_⟩
    rw [hfollows'.silent (Nat.lt_of_lt_of_le hpos hfollows.destroyed), hfollows.silent hpos]

/-! A functor that has left its queue runs. -/

/-- A connection that is established has not run any callback. -/
theorem follows_established {p : ServerConn} (hsound : ∀ (i : ℕ) (o : ServerConn), s.conns[i]? = some o → Sound o)
    (hp : s.conns[j]? = some p) (hk : Kept s j p (Due.of (.established j))) (ho : s.conns[i]? = some o) :
    ∃ o', (s.call j Conn.connectEstablished).conns[i]? = some o' ∧ Follows o o' := by
  have hup : _ + p.conn.cbs.count .connUp + 1 = 1 := hk.up
  have hclosed : p.removed + _ + 0 = p.conn.cbs.count .close := hk.closed
  have hremoved : p.destroyed + _ + 0 = p.removed := hk.removed
  have hnil : p.conn.cbs = [] := by
    rcases hk.first with hhead | hnil
    · obtain ⟨m, hm⟩ := List.head?_eq_some_iff.1 hhead
      rw [hm, List.count_cons_self] at hup
      omega
    · exact hnil
  rw [hnil, List.count_nil] at hclosed
  refine follows_call hsound (fun q q' hq hconn hdestroyed => ?_) ho
  obtain rfl : q = p := Option.some.inj (hq.symm.trans hp)
  refine .of_live (by omega) hdestroyed fun hpos => ?_
  have hcbs : q.conn.connectEstablished.cbs = [.connUp] := by
    show q.conn.cbs ++ [.connUp] = _
    rw [hnil, List.nil_append]
  rw [hconn, hcbs] at hpos
  exact absurd hpos (by decide)

/-- One of a connection's own functors runs, `gs` being left of them. -/
theorem follows_own {p : ServerConn} {w : WriteResult} {g : ConnFunctor} {gs : List ConnFunctor}
    (hsound : ∀ (i : ℕ) (o : ServerConn), s.conns[i]? = some o → Sound o) (hp : s.conns[j]? = some p)
    (hqueued : p.conn.queued = g :: gs) (hshut : 0 < p.destroyed → p.conn.Shut) (ho : s.conns[i]? = some o) :
    ∃ o', ((s.setConn j { p with conn := { p.conn with queued := gs } }).call j (·.runFunctor w g)).conns[i]? =
      some o' ∧ Follows o o' := by
  obtain ⟨⟨p', hp', hconn, hdestroyed⟩, hrest⟩ :=
    conns_setConn_call hp { p with conn := { p.conn with queued := gs } } (·.runFunctor w g)
  by_cases hij : i = j
  · subst hij
    obtain rfl : o = p := Option.some.inj (ho.symm.trans hp)
    have hcalling : o.conn.calling = g.calls :: gs.map ConnFunctor.calls := by
      rw [Conn.calling, hqueued, List.map_cons]
    have hself := hsound i o ho
    have hleft : Sound { o with conn := { o.conn with queued := gs } } :=
      ⟨hself.ended, hself.out, fun hpos b hb => hself.quiet hpos b (hcalling ▸ List.mem_cons_of_mem _ hb)⟩
    have hfollows := hleft.call (g := (·.runFunctor w g)) (hleft.ended.runFunctor w g) (fun hpos => ?_) hconn hdestroyed
    · exact ⟨p', hp', hfollows.destroyed, hfollows.sound, hfollows.silent⟩
    · exact Conn.Shut.runFunctor (c := { o.conn with queued := gs }) (hshut hpos) w
        (hself.quiet hpos _ (hcalling ▸ List.mem_cons_self))
  · exact ⟨o, (hrest i hij).trans ho, .refl (hsound i o ho)⟩

theorem follows_removeInLoop {p : ServerConn} (hsound : ∀ (i : ℕ) (o : ServerConn), s.conns[i]? = some o → Sound o)
    (hp : s.conns[j]? = some p) (ho : s.conns[i]? = some o) :
    ∃ o', (s.removeConnectionInloop j).conns[i]? = some o' ∧ Follows o o' := by
  obtain ⟨⟨p', hp', hconn, hdestroyed⟩, hrest⟩ := conns_removeConnections hp 0 1
  by_cases hij : i = j
  · subst hij
    obtain rfl : o = p := Option.some.inj (ho.symm.trans hp)
    have hself := hsound i o ho
    refine ⟨p', hp', Nat.le_of_eq hdestroyed.symm, ⟨?_, fun hpos => ?_, fun hpos => ?_⟩, fun _ => by rw [hconn]⟩
    · rw [hconn]
      exact hself.ended
    · rw [hconn]
      exact hself.out (hdestroyed ▸ hpos)
    · rw [hconn]
      exact hself.quiet (hdestroyed ▸ hpos)
  · exact ⟨o, (hrest i hij).trans ho, .refl (hsound i o ho)⟩

/-- `connect_destroyed` runs on a closed connection, and what waits behind it runs no
callback. -/
theorem follows_destroyed {p : ServerConn} (hsound : ∀ (i : ℕ) (o : ServerConn), s.conns[i]? = some o → Sound o)
    (hp : s.conns[j]? = some p) (hshut : p.conn.Shut) (hcalling : ∀ b ∈ p.conn.calling, b = false)
    (ho : s.conns[i]? = some o) :
    ∃ o', ((s.setConn j { p with destroyed := p.destroyed + 1 }).call j Conn.connectDestroyed).conns[i]? = some o' ∧
      Follows o o' := by
  obtain ⟨⟨p', hp', hconn, hdestroyed⟩, hrest⟩ :=
    conns_setConn_call hp { p with destroyed := p.destroyed + 1 } Conn.connectDestroyed
  by_cases hij : i = j
  · subst hij
    obtain rfl : o = p := Option.some.inj (ho.symm.trans hp)
    obtain ⟨hshut', hcbs, hidx, hqueued⟩ := hshut.connectDestroyed
    refine ⟨p', hp', hdestroyed ▸ Nat.le_succ _, ⟨fun _ => ?_, fun _ => ?_, fun _ => ?_⟩, fun _ => ?_⟩
    · rw [hconn]
      exact hshut'
    · rw [hconn]
      exact hidx
    · rw [hconn, Conn.calling, hqueued]
      exact hcalling
    · rw [hconn]
      exact hcbs
  · exact ⟨o, (hrest i hij).trans ho, .refl (hsound i o ho)⟩

theorem follows_functor {w : WriteResult} (h : Owes s 0 Due.none)
    (hsound : ∀ (i : ℕ) (o : ServerConn), s.conns[i]? = some o → Sound o) (hhush : Hush s) (hq : s.queue l = f :: fs)
    (ho : s.conns[i]? = some o) :
    ∃ o', (runFunctor { s with queue := Function.update s.queue l fs } w f).conns[i]? = some o' ∧ Follows o o' := by
  obtain ⟨hpop, p, hp⟩ := h.pop hq
  have hk := hpop.self hp
  cases f with
  | established j => exact follows_established (s := { s with queue := _ }) hsound hp hk ho
  | own j =>
    have hown : _ + 1 = p.conn.queued.length := hk.own
    simp only [runFunctor, ServerFunctor.conn] at hp ⊢
    rw [hp]
    dsimp only
    cases hqueued : p.conn.queued with
    | nil =>
      rw [hqueued] at hown
      cases hown
    | cons g gs =>
      exact follows_own (s := { s with queue := _ }) hsound hp hqueued (shut_of_destroyed h (hsound j p hp) hp) ho
  | removeInLoop j => exact follows_removeInLoop (s := { s with queue := _ }) hsound hp ho
  | destroyed j =>
    have hremoved : p.destroyed + _ + 1 = p.removed := hk.removed
    have hclosed : p.removed + _ + 0 = p.conn.cbs.count .close := hk.closed
    simp only [runFunctor, ServerFunctor.conn] at hp ⊢
    rw [hp]
    dsimp only
    have hmem : .destroyed j ∈ s.queue l := hq ▸ List.mem_cons_self
    have hloop : l = p.loop := ((h.at j).self hp).placed l _ rfl hmem
    have hsilenced := hhush j p hp
    rw [← hloop, hq] at hsilenced
    exact follows_destroyed (s := { s with queue := _ }) hsound hp ((hsound j p hp).ended (by omega))
      hsilenced.pop_destroyed ho

theorem newConnection_conns (s : System) : s.newConnection.conns.length = s.conns.length + 1 ∧
    (∀ i, i ≠ s.conns.length → s.newConnection.conns[i]? = s.conns[i]?) ∧
    ∀ o, s.newConnection.conns[s.conns.length]? = some o → Sound o := by
  have hself : s.added.conns[s.conns.length]? = some _ := List.getElem?_concat_length
  have hother : ∀ i, i ≠ s.conns.length → s.added.conns[i]? = s.conns[i]? := by
    intro i hi
    rcases Nat.lt_or_gt_of_ne hi with hlt | hgt
    · exact List.getElem?_append_left hlt
    · rw [List.getElem?_eq_none (Nat.le_of_lt hgt), added, List.getElem?_eq_none (by simp; omega)]
  have hlength : s.added.conns.length = s.conns.length + 1 := by rw [added, List.length_append, List.length_singleton]
  have hcases : s.newConnection = s.added.connectEstablished s.conns.length ∨
      s.newConnection = s.added.push s.server.threadpool.getNextloop.1 [.established s.conns.length] := by
    unfold System.newConnection
    dsimp only
    split
    · exact .inl rfl
    · exact .inr rfl
  rcases hcases with he | he
  · obtain ⟨⟨o', ho', hconn, hdestroyed⟩, hrest⟩ := conns_call hself Conn.connectEstablished
    rw [he]
    refine ⟨?_, fun i hi => (hrest i hi).trans (hother i hi), fun o ho => ?_⟩
    · have hshape := congrArg (List.length ∘ Prod.fst) (shape_call s.added s.conns.length Conn.connectEstablished)
      simp only [Function.comp_apply, shape, List.length_map] at hshape
      exact hshape.trans hlength
    · obtain rfl : o = o' := Option.some.inj (ho.symm.trans ho')
      refine .of_live hdestroyed fun hpos => ?_
      rw [hconn] at hpos
      exact absurd hpos (Nat.lt_irrefl 0)
  · rw [he]
    refine ⟨hlength, hother, fun o ho => ?_⟩
    obtain rfl := Option.some.inj (ho.symm.trans hself)
    exact .of_live rfl fun hpos => absurd hpos (Nat.lt_irrefl 0)

theorem step_follows {a : Act} (h : Owes s 0 Due.none) (hquiet : Quiet s) (ha : s.overwrites a = false)
    (hs : s.step a = some s') (ho : s.conns[i]? = some o) : ∃ o', s'.conns[i]? = some o' ∧ Follows o o' := by
  have hsound := hquiet.sound
  cases a with
  | accept =>
    simp only [step] at hs
    split at hs
    · cases hs
      obtain ⟨hlt, -⟩ := List.getElem?_eq_some_iff.1 ho
      exact ⟨o, ((newConnection_conns s).2.1 i (by omega)).trans ho, .refl (hsound i o ho)⟩
    · cases hs
  | functor l w =>
    simp only [step] at hs
    split at hs
    · cases hs
    · rename_i hq
      cases hs
      exact follows_functor h hsound hquiet.hush hq ho
  | event j revents r w =>
    simp only [step] at hs
    split at hs
    · cases hs
    · rename_i p hp
      split at hs
      · rename_i hadded
        cases hs
        refine follows_event hsound hp ?_ ho
        by_contra hpos
        rw [(hsound j p hp).out (Nat.pos_of_ne_zero hpos)] at hadded
        cases hadded
      · cases hs
  | send j data w =>
    cases hs
    refine follows_call hsound (fun q q' hq hconn hdestroyed => ?_) ho
    have hq' := hsound j q hq
    exact hq'.call (hq'.ended.send data w) (fun hpos => (shut_of_destroyed h hq' hq hpos).send data w) hconn hdestroyed
  | shutdown j =>
    cases hs
    refine follows_call hsound (fun q q' hq hconn hdestroyed => ?_) ho
    have hq' := hsound j q hq
    exact hq'.call hq'.ended.shutdown (fun hpos => (shut_of_destroyed h hq' hq hpos).shutdown) hconn hdestroyed
  | forceClose j =>
    cases hs
    refine follows_call hsound (fun q q' hq hconn hdestroyed => ?_) ho
    have hq' := hsound j q hq
    exact hq'.call hq'.ended.forceClose (fun hpos => (shut_of_destroyed h hq' hq hpos).forceClose) hconn hdestroyed
  | test t j call =>
    simp only [step] at hs
    split at hs
    · cases hs
      exact ⟨o, ho, .refl (hsound i o ho)⟩
    · cases hs
  | store t =>
    simp only [step] at hs
    split at hs
    · rename_i j f hcall
      split at hs
      · cases hs
      · rename_i p hp
        cases hs
        have hopen : p.conn.state ≠ .disconnected := by
          intro hstate
          simp only [overwrites, hcall, hp, Option.any_some, hstate, decide_true, Bool.true_eq_false] at ha
        obtain ⟨hlt, -⟩ := List.getElem?_eq_some_iff.1 hp
        by_cases hij : i = j
        · subst hij
          obtain rfl : o = p := Option.some.inj (ho.symm.trans hp)
          have hlive : o.destroyed = 0 := by
            by_contra hne
            exact hopen (shut_of_destroyed h (hsound i o ho) ho (Nat.pos_of_ne_zero hne)).1
          exact ⟨_, List.getElem?_set_self hlt,
            .of_live hlive rfl fun hpos => absurd ((hsound i o ho).ended hpos).1 hopen⟩
        · exact ⟨o, (List.getElem?_set_ne (Ne.symm hij)).trans ho, .refl (hsound i o ho)⟩
    · cases hs
  | queue t =>
    simp only [step] at hs
    split at hs
    · rename_i j f hcall
      cases hs
      refine follows_call hsound (fun q q' hq hconn hdestroyed => ?_) ho
      have hq' := hsound j q hq
      have hstill : q.conn.Still (q.conn.queueInLoop f) :=
        ⟨rfl, rfl, rfl, .queueInLoop (hquiet.callers t f (by rw [hcall]; rfl))⟩
      exact hq'.call (g := (·.queueInLoop f)) (hq'.ended.of_cbs rfl fun _ => hstill) (fun _ => hstill) hconn hdestroyed
    · cases hs
  | stringEnds j k =>
    cases hs
    refine follows_call hsound (fun q q' hq hconn hdestroyed => ?_) ho
    have hstill := q.conn.still_stringEnds k
    have hq' := hsound j q hq
    exact hq'.call (g := (·.stringEnds k)) (hq'.ended.of_cbs rfl fun _ => hstill) (fun _ => hstill) hconn hdestroyed

theorem step_sound {a : Act} (h : Owes s 0 Due.none) (hquiet : Quiet s) (ha : s.overwrites a = false)
    (hs : s.step a = some s') (i : ℕ) (o' : ServerConn) (ho' : s'.conns[i]? = some o') : Sound o' := by
  obtain ⟨hlt, -⟩ := List.getElem?_eq_some_iff.1 ho'
  by_cases hi : i < s.conns.length
  · obtain ⟨p, hp, hfollows⟩ := step_follows h hquiet ha hs (List.getElem?_eq_getElem hi)
    obtain rfl : o' = p := Option.some.inj (ho'.symm.trans hp)
    exact hfollows.sound
  · -- Only `accept` makes a connection.
    by_cases hacc : a = .accept
    · subst hacc
      simp only [step] at hs
      split at hs
      · cases hs
        obtain ⟨hlength, -, hnew⟩ := newConnection_conns s
        obtain rfl : i = s.conns.length := by omega
        exact hnew o' ho'
      · cases hs
    · have hlength := congrArg (List.length ∘ Prod.fst) (shape_step hacc hs)
      simp only [Function.comp_apply, shape, List.length_map] at hlength
      omega

/-! ## What waits behind `connect_destroyed` -/

theorem Hush.setConn (h : Hush s) (ho : s.conns[i]? = some o) (hloop : o'.loop = o.loop)
    (hcalling : o'.conn.calling = o.conn.calling) : Hush (s.setConn i o') := by
  intro j p hp
  obtain ⟨hlt, -⟩ := List.getElem?_eq_some_iff.1 ho
  by_cases hij : i = j
  · subst hij
    obtain rfl : o' = p := Option.some.inj ((List.getElem?_set_self hlt).symm.trans hp)
    rw [hloop, hcalling]
    exact h i o ho
  · exact h j p ((List.getElem?_set_ne hij).symm.trans hp)

/-- What a close hands to the loops. -/
theorem queue_removeConnections (ho : s.conns[i]? = some o) (thread n l : ℕ) :
    ∃ gs, (s.removeConnections thread i n).queue l = s.queue l ++ gs ∧ ∀ f ∈ gs, f.conn = i := by
  induction n generalizing s o with
  | zero => exact ⟨[], (List.append_nil _).symm, by simp⟩
  | succ n ih =>
    obtain ⟨o', ho'⟩ := conns_removeConnection thread ho
    obtain ⟨gs, hgs, hconn⟩ := ih ho'
    have hpush : ∀ (u : System) (k : ℕ) (f : ServerFunctor), f.conn = i →
        ∃ fs, (u.push k [f]).queue l = u.queue l ++ fs ∧ ∀ g ∈ fs, g.conn = i := by
      intro u k f hf
      by_cases hkl : l = k
      · subst hkl
        exact ⟨[f], Function.update_self .., fun g hg => by rw [List.mem_singleton.1 hg, hf]⟩
      · exact ⟨[], by rw [List.append_nil]; exact Function.update_of_ne hkl .., by simp⟩
    have hfirst : ∃ fs, (s.removeConnection thread i).queue l = s.queue l ++ fs ∧ ∀ g ∈ fs, g.conn = i := by
      unfold System.removeConnection
      split
      · simp only [System.removeConnectionInloop, ho]
        exact hpush _ o.loop (.destroyed i) rfl
      · exact hpush s 0 (.removeInLoop i) rfl
    obtain ⟨fs, hfs, hconn'⟩ := hfirst
    refine ⟨fs ++ gs, by rw [System.removeConnections, hgs, hfs, List.append_assoc], fun f hf => ?_⟩
    rcases List.mem_append.1 hf with hf | hf
    · exact hconn' f hf
    · exact hconn f hf

/-- A member function hands the loop of its connection what it queues, and then come
the closes. -/
theorem queue_call (ho : s.conns[i]? = some o) (g : Conn → Conn) (l : ℕ) :
    ∃ gs, (s.call i g).queue l = s.queue l ++
        List.replicate (if l = o.loop then (g o.conn).queued.length - o.conn.queued.length else 0) (.own i) ++ gs ∧
      ∀ f ∈ gs, f.conn = i := by
  obtain ⟨hlt, -⟩ := List.getElem?_eq_some_iff.1 ho
  have hself : ((s.setConn i { o with conn := g o.conn }).push o.loop
      (List.replicate ((g o.conn).queued.length - o.conn.queued.length) (.own i))).conns[i]? =
        some { o with conn := g o.conn } := List.getElem?_set_self hlt
  obtain ⟨gs, hgs, hconn⟩ :=
    queue_removeConnections hself o.loop ((g o.conn).cbs.count .close - o.conn.cbs.count .close) l
  refine ⟨gs, ?_, hconn⟩
  unfold System.call System.settle
  rw [ho]
  dsimp only
  rw [hgs]
  congr 1
  by_cases hl : l = o.loop
  · subst hl
    rw [if_pos rfl]
    exact Function.update_self ..
  · rw [if_neg hl, List.replicate_zero, List.append_nil]
    exact Function.update_of_ne hl ..

theorem loop_call (ho : s.conns[i]? = some o) (j : ℕ) (g : Conn → Conn) (ho' : (s.call j g).conns[i]? = some o') :
    o'.loop = o.loop := by
  have hconns := congrArg (·[i]?) (Prod.mk.inj (shape_call s j g)).1
  rw [List.getElem?_map, List.getElem?_map, ho, ho'] at hconns
  exact congrArg Prod.snd (Option.some.inj hconns)

/-- A member function runs. If its connection has been closed, it queues nothing that
runs a callback. -/
theorem Hush.call {g : Conn → Conn} {d : Due} (h : Hush s) (ho : s.conns[i]? = some o) (hk : Kept s i o d)
    (hown : d.own = 0) (hushed : 0 < o.conn.cbs.count .close → o.conn.Hushed (g o.conn)) : Hush (s.call i g) := by
  obtain ⟨⟨p, hp, hconn, -⟩, hrest⟩ := conns_call ho g
  intro j q hq
  by_cases hij : j = i
  · subst hij
    obtain rfl : p = q := Option.some.inj (hp.symm.trans hq)
    obtain ⟨gs, hgs, -⟩ := queue_call ho g p.loop
    have hloop := loop_call ho j g hp
    rw [hgs, if_pos hloop, hloop, hconn]
    refine (h j o ho).push (fun hmem => hushed ?_) ?_ fun hmem => ?_
    · have hclosed := hk.closed
      have hremoved := hk.removed
      have hwaits := List.count_pos_iff.2 hmem
      omega
    · have hcount := hk.own
      rw [Conn.length_calling, List.count_append, List.count_replicate_self]
      omega
    · cases List.eq_of_mem_replicate hmem
  · rw [hrest j hij] at hq
    obtain ⟨gs, hgs, hgsConn⟩ := queue_call ho g q.loop
    rw [hgs, List.append_assoc]
    refine (h j q hq).push_other fun hmem => ?_
    rcases List.mem_append.1 hmem with hmem | hmem
    · cases List.eq_of_mem_replicate hmem
    · exact hij (hgsConn _ hmem)

/-- A functor that is not one of a connection's own leaves the queue. -/
theorem Hush.pop (h : Hush s) (hq : s.queue l = f :: fs) (hf : ∀ i, f ≠ .own i) :
    Hush { s with queue := Function.update s.queue l fs } := by
  intro i o ho
  have hsilenced := h i o ho
  show Silenced i (Function.update s.queue l fs o.loop) o.conn.calling
  by_cases hl : o.loop = l
  · rw [hl] at hsilenced ⊢
    rw [Function.update_self]
    rw [hq] at hsilenced
    exact hsilenced.pop (hf i)
  · rwa [Function.update_of_ne hl]

/-- One of a connection's own leaves the queue, and the connection's list with it. -/
theorem Hush.popOwn {g : ConnFunctor} {gs : List ConnFunctor} (h : Hush s) (hq : s.queue l = .own j :: fs)
    (ho : s.conns[j]? = some o) (hloop : l = o.loop) (hqueued : o.conn.queued = g :: gs) :
    Hush (System.setConn { s with queue := Function.update s.queue l fs } j
      { o with conn := { o.conn with queued := gs } }) := by
  obtain ⟨hlt, -⟩ := List.getElem?_eq_some_iff.1 ho
  have hcalling : o.conn.calling = g.calls :: gs.map ConnFunctor.calls := by
    rw [Conn.calling, hqueued, List.map_cons]
  intro i p hp
  show Silenced i (Function.update s.queue l fs p.loop) p.conn.calling
  by_cases hij : j = i
  · subst hij
    obtain rfl := Option.some.inj ((List.getElem?_set_self hlt).symm.trans hp)
    have hsilenced := h j o ho
    rw [← hloop, hq, hcalling] at hsilenced
    rw [← hloop, Function.update_self]
    exact hsilenced.pop_own
  · have hp' : s.conns[i]? = some p := (List.getElem?_set_ne hij).symm.trans hp
    have hsilenced := h i p hp'
    by_cases hl : p.loop = l
    · rw [hl] at hsilenced ⊢
      rw [Function.update_self]
      rw [hq] at hsilenced
      exact hsilenced.pop fun he => hij (ServerFunctor.own.inj he)
    · rwa [Function.update_of_ne hl]

theorem Hush.removeConnectionInloop {d : Due} (h : Hush s) (ho : s.conns[i]? = some o) (hk : Kept s i o d)
    (hown : d.own = 0) : Hush (s.removeConnectionInloop i) := by
  have hset : Hush (System.setConn { s with server := { s.server with
      connections := Function.update s.server.connections o.name none } } i { o with removed := o.removed + 1 }) :=
    Hush.setConn (s := { s with server := _ }) h ho rfl rfl
  have hcount := hk.own
  simp only [System.removeConnectionInloop, ho]
  intro j p hp
  have hsilenced := hset j p hp
  show Silenced j (Function.update s.queue o.loop (s.queue o.loop ++ [.destroyed i]) p.loop) p.conn.calling
  by_cases hl : p.loop = o.loop
  · rw [hl, Function.update_self]
    by_cases hij : i = j
    · subst hij
      obtain ⟨hlt, -⟩ := List.getElem?_eq_some_iff.1 ho
      obtain rfl := Option.some.inj ((List.getElem?_set_self hlt).symm.trans hp)
      have hpushed : Silenced i (s.queue o.loop ++ [] ++ [.destroyed i]) o.conn.calling := by
        refine (h i o ho).push (fun _ => ⟨0, (List.append_nil _).symm⟩) ?_ (by simp)
        rw [Conn.length_calling, List.append_nil]
        omega
      rwa [List.append_nil] at hpushed
    · rw [hl] at hsilenced
      exact hsilenced.push_other fun hmem => hij (ServerFunctor.destroyed.inj (List.mem_singleton.1 hmem)).symm
  · rwa [Function.update_of_ne hl]

theorem Hush.functor {w : WriteResult} (hhush : Hush s) (h : Owes s 0 Due.none)
    (hsound : ∀ (i : ℕ) (o : ServerConn), s.conns[i]? = some o → Sound o) (hq : s.queue l = f :: fs) :
    Hush (runFunctor { s with queue := Function.update s.queue l fs } w f) := by
  obtain ⟨hpop, o, ho⟩ := h.pop hq
  obtain ⟨hlt, -⟩ := List.getElem?_eq_some_iff.1 ho
  have hk := hpop.self ho
  cases f with
  | established j =>
    refine Hush.call (hhush.pop hq (by simp)) ho hk rfl fun hclose => ?_
    -- It is established only now, so it has not been closed.
    have hup : _ + o.conn.cbs.count .connUp + 1 = 1 := hk.up
    rcases hk.first with hhead | hnil
    · obtain ⟨m, hm⟩ := List.head?_eq_some_iff.1 hhead
      rw [hm, List.count_cons_self] at hup
      omega
    · rw [hnil] at hclose
      exact absurd hclose (Nat.lt_irrefl 0)
  | own j =>
    have hown : _ + 1 = o.conn.queued.length := hk.own
    simp only [runFunctor, ServerFunctor.conn] at ho hk ⊢
    rw [ho]
    dsimp only
    cases hqueued : o.conn.queued with
    | nil =>
      rw [hqueued] at hown
      cases hown
    | cons g gs =>
      dsimp only
      have hmem : .own j ∈ s.queue l := hq ▸ List.mem_cons_self
      have hloop : l = o.loop := ((h.at j).self ho).placed l _ rfl hmem
      have hself : (System.setConn { s with queue := Function.update s.queue l fs } j
          { o with conn := { o.conn with queued := gs } }).conns[j]? =
            some { o with conn := { o.conn with queued := gs } } := List.getElem?_set_self hlt
      have hkept : Kept (System.setConn { s with queue := Function.update s.queue l fs } j
          { o with conn := { o.conn with queued := gs } }) j { o with conn := { o.conn with queued := gs } } Due.none := by
        refine Owes.self ?_ hself
        refine hpop.setConn (c := { o.conn with queued := gs }) ho rfl hk.first (fun hc => ?_) hk.opened id ?_ rfl rfl rfl
        · have hnil := (hk.opening hc).2.1
          rw [hqueued] at hnil
          cases hnil
        · rw [hqueued]
          rfl
      refine (hhush.popOwn hq ho hloop hqueued).call hself hkept rfl fun hclose => ?_
      exact Conn.Shut.hushed_runFunctor (c := { o.conn with queued := gs }) ((hsound j o ho).ended hclose) w g
  | removeInLoop j => exact (hhush.pop hq (by simp)).removeConnectionInloop ho hk rfl
  | destroyed j =>
    have hremoved : _ + 1 = o.removed := hk.removed
    have hclosed : o.removed + _ + 0 = o.conn.cbs.count .close := hk.closed
    simp only [runFunctor, ServerFunctor.conn] at ho hk ⊢
    rw [ho]
    dsimp only
    have hself : (System.setConn { s with queue := Function.update s.queue l fs } j
        { o with destroyed := o.destroyed + 1 }).conns[j]? = some { o with destroyed := o.destroyed + 1 } :=
      List.getElem?_set_self hlt
    have hset : Owes (System.setConn { s with queue := Function.update s.queue l fs } j
        { o with destroyed := o.destroyed + 1 }) j Due.none := by
      refine hpop.setConn (c := o.conn) ho rfl hk.first hk.opening hk.opened id rfl rfl rfl rfl
    have hpopped : Hush (System.setConn { s with queue := Function.update s.queue l fs } j
        { o with destroyed := o.destroyed + 1 }) := (hhush.pop hq (by simp)).setConn ho rfl rfl
    refine hpopped.call hself (hset.self hself) rfl fun hclose => ?_
    exact .of_queued ((hsound j o ho).ended hclose).connectDestroyed.2.2.2

theorem Hush.callAt {g : Conn → Conn} (h : Hush s) (howes : Owes s 0 Due.none)
    (hushed : ∀ o, s.conns[j]? = some o → 0 < o.conn.cbs.count .close → o.conn.Hushed (g o.conn)) :
    Hush (s.call j g) := by
  cases ho : s.conns[j]? with
  | none =>
    unfold System.call
    rwa [ho]
  | some o => exact h.call ho ((howes.at j).self ho) rfl (hushed o ho)

theorem Hush.event {r : ReadvResult} {w : WriteResult} {cbs : List Channel.Callback} (h : Hush s) (hl : Laid s)
    (howes : Owes s j Due.none) (ho : s.conns[j]? = some o) (hne : o.conn.state ≠ .connecting) (hended : o.conn.Ended) :
    Hush (cbs.foldl (fun s cb => s.call j (Conn.runCallback r w · cb)) s) := by
  induction cbs generalizing s o with
  | nil => exact h
  | cons cb cbs ih =>
    obtain ⟨⟨o', ho', hconn, -⟩, -⟩ := conns_call ho (Conn.runCallback r w · cb)
    have hgrows := Conn.Grows.runCallback o.conn r w cb
    refine ih ?_ (hl.congr (shape_call s j _)) (howes.call hl fun p hp => ?_) ho' ?_ ?_
    · exact h.call ho (howes.self ho) rfl fun hclose => (hended hclose).hushed_runCallback r w cb
    · rw [ho] at hp
      cases hp
      exact ⟨hgrows, fun hc => absurd hc hne⟩
    · rw [hconn]
      exact hgrows.state hne
    · rw [hconn]
      exact hended.runCallback r w cb

theorem Hush.newConnection (h : Hush s) (hl : Laid s) (hid : s.server.nextConnid < intMax)
    (howes : Owes s 0 Due.none) : Hush s.newConnection := by
  have hself : s.added.conns[s.conns.length]? = some _ := List.getElem?_concat_length
  have hadded : Hush s.added := by
    intro i o ho
    show Silenced i (s.queue o.loop) o.conn.calling
    by_cases hi : i < s.conns.length
    · exact h i o ((List.getElem?_append_left hi).symm.trans ho)
    · refine silenced_of_not_mem fun hmem => hi ?_
      exact howes.known _ _ hmem
  have hk := (howes.added hl hid).self hself
  unfold System.newConnection
  dsimp only
  split
  · exact hadded.call hself hk rfl fun hclose => absurd hclose (Nat.lt_irrefl 0)
  · intro i o ho
    have hsilenced := hadded i o ho
    show Silenced i (Function.update s.queue _ (s.queue _ ++ [.established s.conns.length]) o.loop) o.conn.calling
    by_cases hloop : o.loop = s.server.threadpool.getNextloop.1
    · rw [hloop] at hsilenced ⊢
      rw [Function.update_self]
      exact hsilenced.push_other (by simp)
    · rwa [Function.update_of_ne hloop]

theorem step_hush {a : Act} (hl : Laid s) (h : Owes s 0 Due.none) (hquiet : Quiet s) (hs : s.step a = some s') :
    Hush s' := by
  have hsound := hquiet.sound
  cases a with
  | accept =>
    simp only [step] at hs
    split at hs
    · rename_i hid
      cases hs
      exact hquiet.hush.newConnection hl hid h
    · cases hs
  | functor l w =>
    simp only [step] at hs
    split at hs
    · cases hs
    · rename_i hq
      cases hs
      exact hquiet.hush.functor h hsound hq
  | event j revents r w =>
    simp only [step] at hs
    split at hs
    · cases hs
    · rename_i p hp
      split at hs
      · rename_i hadded
        cases hs
        refine hquiet.hush.event hl (h.at j) hp (fun hc => ?_) (hsound j p hp).ended
        rw [(((h.at j).self hp).opening hc).2.2] at hadded
        cases hadded
      · cases hs
  | send j data w =>
    cases hs
    exact hquiet.hush.callAt h fun o ho hclose => (((hsound j o ho).ended hclose).send data w).hushed
  | shutdown j =>
    cases hs
    exact hquiet.hush.callAt h fun o ho hclose => ((hsound j o ho).ended hclose).shutdown.hushed
  | forceClose j =>
    cases hs
    exact hquiet.hush.callAt h fun o ho hclose => ((hsound j o ho).ended hclose).forceClose.hushed
  | test t j call =>
    simp only [step] at hs
    split at hs
    · cases hs
      exact hquiet.hush
    · cases hs
  | store t =>
    simp only [step] at hs
    split at hs
    · split at hs
      · cases hs
      · rename_i p hp
        cases hs
        exact hquiet.hush.setConn hp rfl rfl
    · cases hs
  | queue t =>
    simp only [step] at hs
    split at hs
    · rename_i j f hcall
      cases hs
      exact hquiet.hush.callAt h fun o _ _ => .queueInLoop (hquiet.callers t f (by rw [hcall]; rfl))
    · cases hs
  | stringEnds j k =>
    cases hs
    exact hquiet.hush.callAt h fun o _ _ => (o.conn.still_stringEnds k).hushed

/-! ## The other threads -/

theorem callers_removeConnections (s : System) (thread i n : ℕ) :
    (s.removeConnections thread i n).callers = s.callers := by
  induction n generalizing s with
  | zero => rfl
  | succ n ih =>
    rw [System.removeConnections, ih, System.removeConnection]
    split
    · unfold System.removeConnectionInloop
      split <;> rfl
    · rfl

theorem callers_call (s : System) (i : ℕ) (g : Conn → Conn) : (s.call i g).callers = s.callers := by
  unfold System.call System.settle
  split
  · rfl
  · exact callers_removeConnections ..

theorem callers_runFunctor (s : System) (w : WriteResult) (f : ServerFunctor) :
    (s.runFunctor w f).callers = s.callers := by
  cases f with
  | established i => exact callers_call ..
  | own i =>
    unfold runFunctor
    dsimp only
    split
    · rfl
    · split
      · rfl
      · exact callers_call ..
  | removeInLoop i => exact callers_removeConnections s 0 i 1
  | destroyed i =>
    unfold runFunctor
    dsimp only
    split
    · rfl
    · exact callers_call ..

theorem callers_newConnection (s : System) : s.newConnection.callers = s.callers := by
  unfold System.newConnection
  dsimp only
  split
  · exact callers_call s.added ..
  · rfl

theorem callers_event (s : System) (i : ℕ) (r : ReadvResult) (w : WriteResult) (cbs : List Channel.Callback) :
    (cbs.foldl (fun s cb => s.call i (Conn.runCallback r w · cb)) s).callers = s.callers := by
  induction cbs generalizing s with
  | nil => rfl
  | cons cb cbs ih =>
    rw [List.foldl_cons, ih]
    exact callers_call ..

/-- A caller is moved. -/
theorem calls_setCaller {v t : ℕ} {k : ConnCaller} (hs : ∀ t f, (s.callers t).functor = some f → f.calls = false)
    (hk : ∀ f, k.functor = some f → f.calls = false) {g : ConnFunctor}
    (hg : ((s.setCaller v k).callers t).functor = some g) : g.calls = false := by
  have hg : (Function.update s.callers v k t).functor = some g := hg
  by_cases hv : t = v
  · subst hv
    rw [Function.update_self] at hg
    exact hk g hg
  · rw [Function.update_of_ne hv] at hg
    exact hs t g hg

theorem calls_test {c : Conn} {call : ConnCall} {f : ConnFunctor} (h : (test c i call).functor = some f) :
    f.calls = false := by
  cases call with
  | send data | shutdown | forceClose =>
    simp only [test] at h
    split at h
    · cases h
      rfl
    · cases h

/-- Only the callers' own steps move them. -/
theorem step_callers {a : Act} (hquiet : Quiet s) (hs : s.step a = some s') (t : ℕ) (f : ConnFunctor)
    (hf : (s'.callers t).functor = some f) : f.calls = false := by
  have hsame : s'.callers = s.callers → f.calls = false := fun he => hquiet.callers t f (he ▸ hf)
  cases a with
  | accept =>
    simp only [step] at hs
    split at hs
    · cases hs
      exact hsame s.callers_newConnection
    · cases hs
  | functor l w =>
    simp only [step] at hs
    split at hs
    · cases hs
    · cases hs
      exact hsame (callers_runFunctor ..)
  | event j revents r w =>
    simp only [step] at hs
    split at hs
    · cases hs
    · split at hs
      · cases hs
        exact hsame (callers_event ..)
      · cases hs
  | send j data w | shutdown j | forceClose j | stringEnds j k =>
    cases hs
    exact hsame (callers_call ..)
  | test v j call =>
    simp only [step] at hs
    split at hs
    · cases hs
      exact calls_setCaller hquiet.callers (fun g hg => calls_test hg) hf
    · cases hs
  | store v =>
    simp only [step] at hs
    split at hs
    · rename_i j g hcall
      split at hs
      · cases hs
      · rename_i p hp
        cases hs
        refine calls_setCaller (s := s.setConn j _) hquiet.callers (fun g' hg => ?_) hf
        cases hg
        exact hquiet.callers v g (by rw [hcall]; rfl)
    · cases hs
  | queue v =>
    simp only [step] at hs
    split at hs
    · cases hs
      refine calls_setCaller (fun u g hg => ?_) (fun g hg => (by cases hg)) hf
      exact hquiet.callers u g ((callers_call ..) ▸ hg)
    · cases hs

/-- What is kept along a run without such a store. -/
theorem run_quiet {listenAddr : InetAddress} {name : String} {numThreads : ℕ} {wc : Bool} {acts : List Act} {t : System}
    (hC : Run.Along step (fun s a => s.overwrites a = false) (init listenAddr name numThreads wc) acts)
    (h : Run.run step (init listenAddr name numThreads wc) acts = some t) : Quiet t := by
  refine Run.run_history (fun acts s => Run.Along step (fun s a => s.overwrites a = false)
      (init listenAddr name numThreads wc) acts → Quiet s)
    (fun _ => ⟨fun i o ho => (by cases ho), fun i o ho => (by cases ho), fun t f hf => (by cases hf)⟩)
    (fun acts s a t hs ih ht hC => ?_) h hC
  obtain ⟨hbefore, hlast⟩ := Run.along_append.1 hC
  obtain ⟨hlaid, howes⟩ := run_owes hs
  have hquiet := ih hbefore
  exact ⟨step_sound howes hquiet (hlast s hs).1 ht, step_hush hlaid howes hquiet ht, step_callers hquiet ht⟩

/-- **The end of a connection.** If no thread stores DISCONNECTING over
DISCONNECTED, a connection for which `connect_destroyed` has run stays DISCONNECTED
and out of the epoll set, and calls none of its callbacks any more. -/
theorem silent_after_destroyed {listenAddr : InetAddress} {name : String} {numThreads : ℕ} {wc : Bool}
    {pre post : List Act} {s t : System} {i : ℕ} {o : ServerConn}
    (hC : Run.Along step (fun s a => s.overwrites a = false) (init listenAddr name numThreads wc) (pre ++ post))
    (hs : Run.run step (init listenAddr name numThreads wc) pre = some s) (ho : s.conns[i]? = some o)
    (hpos : 0 < o.destroyed) (ht : Run.run step s post = some t) :
    ∃ o', t.conns[i]? = some o' ∧ o'.conn.cbs = o.conn.cbs ∧ o'.conn.state = .disconnected ∧
      o'.conn.chan.idx = .new := by
  have hfollows : ∃ o', t.conns[i]? = some o' ∧ 0 < o'.destroyed ∧ o'.conn.cbs = o.conn.cbs := by
    refine Run.run_history (fun acts u => acts <+: post → ∃ o', u.conns[i]? = some o' ∧ 0 < o'.destroyed ∧
      o'.conn.cbs = o.conn.cbs) (fun _ => ⟨o, ho, hpos, rfl⟩) (fun acts u a v hu ih hv hpre => ?_) ht
      (List.prefix_refl post)
    obtain ⟨rest, hrest⟩ := hpre
    obtain ⟨p, hp, hdestroyed, hcbs⟩ := ih ⟨a :: rest, by rw [← hrest, List.append_assoc]; rfl⟩
    have hu' : Run.run step (init listenAddr name numThreads wc) (pre ++ acts) = some u :=
      Run.run_append.2 ⟨s, hs, hu⟩
    have hlong : pre ++ post = (pre ++ acts) ++ ([a] ++ rest) := by
      rw [← hrest]
      simp only [List.append_assoc]
    rw [hlong] at hC
    obtain ⟨hbefore, hlast⟩ := Run.along_append.1 hC
    obtain ⟨p', hp', hfollows⟩ := step_follows (run_owes hu').2 (run_quiet hbefore hu') (hlast u hu').1 hv hp
    exact ⟨p', hp', Nat.lt_of_lt_of_le hdestroyed hfollows.destroyed, (hfollows.silent hdestroyed).trans hcbs⟩
  obtain ⟨o', ho', hdestroyed, hcbs⟩ := hfollows
  have ht' : Run.run step (init listenAddr name numThreads wc) (pre ++ post) = some t := Run.run_append.2 ⟨s, hs, ht⟩
  have hsound := (run_quiet hC ht').sound i o' ho'
  exact ⟨o', ho', hcbs, (shut_of_destroyed (run_owes ht').2 hsound ho' hdestroyed).1, hsound.out hdestroyed⟩

theorem silent_after_destroyed_hangUp :
    ∃ s o, Run.run step (init localhost "echo" 2 false) hangUp = some s ∧ s.conns[0]? = some o ∧ 0 < o.destroyed ∧
      ∃ t, Run.run step s [.functor 2 (.ok 0), .forceClose 0] = some t ∧
        ∃ o', t.conns[0]? = some o' ∧ o'.conn.cbs = o.conn.cbs ∧ o'.conn.state = .disconnected ∧
          o'.conn.chan.idx = .new := by
  have heval : (Run.run step (init localhost "echo" 2 false) hangUp).map
      (fun s => s.conns.map fun o => (o.loop, o.destroyed)) = some [(1, 1), (2, 0), (1, 0)] := by decide +kernel
  obtain ⟨s, hs, hconns⟩ := Option.map_eq_some_iff.1 heval
  have hzero := congrArg (·[0]?) hconns
  simp only [List.getElem?_map, List.getElem?_cons_zero] at hzero
  obtain ⟨o, ho, hpair⟩ := Option.map_eq_some_iff.1 hzero
  have hpos : 0 < o.destroyed := by
    rw [(Prod.mk.inj hpair).2]
    exact Nat.one_pos
  have hsome : (Run.run step (init localhost "echo" 2 false)
      (hangUp ++ [.functor 2 (.ok 0), .forceClose 0])).isSome = true := by decide +kernel
  obtain ⟨t, ht⟩ := Option.isSome_iff_exists.1 hsome
  obtain ⟨u, hu, ht⟩ := Run.run_append.1 ht
  obtain rfl : s = u := Option.some.inj (hs.symm.trans hu)
  exact ⟨s, o, hs, ho, hpos, t, ht, silent_after_destroyed (by decide +kernel) hs ho hpos ht⟩

end System

end TcpServer

end Learncc
