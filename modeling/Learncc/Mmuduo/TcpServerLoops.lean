/-
The names and the loops of a server's connections. No two names are the same, and
the loops of the pool get the connections in turn (`loops_balanced`).
-/
import Learncc.Mmuduo.ConnLifecycle
import Learncc.Mmuduo.TcpServer
import Mathlib.Data.Fin.VecNotation
import Mathlib.Data.Int.CardIntervalMod

namespace Learncc

/-! ## Names -/

theorem snprintf_eq {size : ℕ} {s : String} (h : s.length < size) : snprintf size s = s := by
  rw [snprintf, List.take_of_length_le, String.ofList_toList]
  rw [String.length_toList]
  omega

theorem repr_injective {m n : ℕ} (h : (toString m : String) = toString n) : m = n := by
  have hdigits : Nat.toDigits 10 m = Nat.toDigits 10 n := by
    rw [← Nat.toList_repr, ← Nat.toList_repr]
    exact congrArg String.toList h
  rw [← Nat.ofDigitChars_ten_toDigits (n := m), hdigits, Nat.ofDigitChars_ten_toDigits]

theorem length_toString_le {n k : ℕ} (hk : 0 < k) (h : n < 10 ^ k) : (toString n : String).length ≤ k :=
  (Nat.length_repr_le_iff hk).2 h

theorem InetAddress.length_toIpPort (a : InetAddress) : a.toIpPort.length ≤ 21 := by
  have hbyte : ∀ b : UInt8, (toString b.toNat : String).length ≤ 3 := fun b =>
    length_toString_le (by decide) (Nat.lt_of_lt_of_le b.toNat_lt (by decide))
  have hport : (toString a.port.toNat : String).length ≤ 5 :=
    length_toString_le (by decide) (Nat.lt_of_lt_of_le a.port.toNat_lt (by decide))
  have h0 := hbyte (a.ip 0)
  have h1 := hbyte (a.ip 1)
  have h2 := hbyte (a.ip 2)
  have h3 := hbyte (a.ip 3)
  have hdot : ".".length = 1 := rfl
  have hcolon : ":".length = 1 := rfl
  simp only [toIpPort, toIp, String.length_append, hdot, hcolon]
  omega

namespace TcpServer

/-- The buffer of a name is large enough. -/
theorem connName_eq (s : TcpServer) {connid : ℕ} (h : connid < System.intMax) :
    s.connName connid = s.name ++ ("-" ++ s.listenAddr.toIpPort ++ "#" ++ toString connid) := by
  have hid : (toString connid : String).length ≤ 10 :=
    length_toString_le (by decide) (Nat.lt_of_lt_of_le h (by decide))
  have hip := s.listenAddr.length_toIpPort
  have hdash : "-".length = 1 := rfl
  have hhash : "#".length = 1 := rfl
  rw [connName, snprintf_eq]
  simp only [String.length_append, hdash, hhash]
  omega

theorem connName_inj {s : TcpServer} {m n : ℕ} (hm : m < System.intMax) (hn : n < System.intMax)
    (h : s.connName m = s.connName n) : m = n := by
  rw [s.connName_eq hm, s.connName_eq hn, String.append_right_inj, String.append_right_inj] at h
  exact repr_injective h

namespace System

variable {s s' : System} {i j l n : ℕ} {o o' : ServerConn} {c c' : Conn}

/-! ## What never changes -/

/-- Everything but the connections themselves, the map and what waits to be run. -/
def shape (s : System) : List (String × ℕ) × TcpServer :=
  (s.conns.map fun o => (o.name, o.loop), { s.server with connections := fun _ => none })

theorem shape_setConn (ho : s.conns[i]? = some o) (hname : o'.name = o.name) (hloop : o'.loop = o.loop) :
    (s.setConn i o').shape = s.shape := by
  have hmap : (s.conns.set i o').map (fun o => (o.name, o.loop)) = s.conns.map fun o => (o.name, o.loop) := by
    refine List.ext_getElem? fun j => ?_
    rw [List.getElem?_map, List.getElem?_map]
    by_cases hij : i = j
    · subst hij
      obtain ⟨hlt, -⟩ := List.getElem?_eq_some_iff.1 ho
      rw [List.getElem?_set_self hlt, ho, Option.map_some, Option.map_some, hname, hloop]
    · rw [List.getElem?_set_ne hij]
  exact Prod.ext hmap rfl

theorem shape_push (s : System) (l : ℕ) (fs : List ServerFunctor) : (s.push l fs).shape = s.shape := rfl

theorem shape_removeConnectionInloop (s : System) (i : ℕ) : (s.removeConnectionInloop i).shape = s.shape := by
  unfold removeConnectionInloop
  split
  · rfl
  · rename_i o ho
    rw [shape_push]
    exact shape_setConn (s := { s with server := _ }) ho rfl rfl

theorem shape_removeConnections (s : System) (thread i n : ℕ) : (s.removeConnections thread i n).shape = s.shape := by
  induction n generalizing s with
  | zero => rfl
  | succ n ih =>
    rw [removeConnections, ih, removeConnection]
    split
    · exact shape_removeConnectionInloop s i
    · rfl

theorem shape_call (s : System) (i : ℕ) (f : Conn → Conn) : (s.call i f).shape = s.shape := by
  unfold call settle
  split
  · rfl
  · rename_i o ho
    dsimp only
    rw [shape_removeConnections, shape_push]
    exact shape_setConn ho rfl rfl

theorem shape_runFunctor (s : System) (w : WriteResult) (f : ServerFunctor) : (s.runFunctor w f).shape = s.shape := by
  cases f with
  | established i => exact shape_call s i _
  | own i =>
    unfold runFunctor
    dsimp only
    split
    · rfl
    · rename_i o ho
      split
      · rfl
      · rw [shape_call]
        exact shape_setConn ho rfl rfl
  | removeInLoop i => exact shape_removeConnectionInloop s i
  | destroyed i =>
    unfold runFunctor
    dsimp only
    split
    · rfl
    · rename_i o ho
      rw [shape_call]
      exact shape_setConn ho rfl rfl

theorem shape_step {a : Act} (ha : a ≠ .accept) (h : s.step a = some s') : s'.shape = s.shape := by
  cases a with
  | accept => exact absurd rfl ha
  | functor l w =>
    simp only [step] at h
    split at h
    · cases h
    · cases h
      rw [shape_runFunctor]
      rfl
  | event i revents r w =>
    simp only [step] at h
    split at h
    · cases h
    · split at h
      · cases h
        generalize Channel.handleEventWithGuard (fun _ => true) revents = cbs
        clear * -
        induction cbs generalizing s with
        | nil => rfl
        | cons cb cbs ih =>
          rw [List.foldl_cons, ih]
          exact shape_call s i _
      · cases h
  | send i data w | shutdown i | forceClose i | stringEnds i k =>
    cases h
    exact shape_call s i _
  | test t i call =>
    simp only [step] at h
    split at h
    · cases h
      rfl
    · cases h
  | store t =>
    simp only [step] at h
    split at h
    · split at h
      · cases h
      · rename_i i f _ o ho
        cases h
        exact shape_setConn ho rfl rfl
    · cases h
  | queue t =>
    simp only [step] at h
    split at h
    · cases h
      exact shape_call s _ _
    · cases h

/-- The loop of the connection made at a place. -/
def loopAt (numThreads i : ℕ) : ℕ := if numThreads = 0 then 0 else i % numThreads + 1

/-- Names and loops, after so many connections. -/
structure Laid (s : System) : Prop where
  ids : s.server.nextConnid = s.conns.length + 1
  bound : s.server.nextConnid ≤ intMax
  baseLoop : s.server.threadpool.baseLoop = 0
  loops : s.server.threadpool.loops = (List.range s.server.threadpool.numThreads).map (· + 1)
  next : s.server.threadpool.numThreads ≠ 0 →
    s.server.threadpool.next = s.conns.length % s.server.threadpool.numThreads
  conns : s.conns.map (fun o => (o.name, o.loop)) = (List.range s.conns.length).map fun i =>
    (s.server.connName (i + 1), loopAt s.server.threadpool.numThreads i)

theorem Laid.congr (h : Laid s) (hshape : s'.shape = s.shape) : Laid s' := by
  obtain ⟨hconns, hserver⟩ := Prod.mk.inj hshape
  have hlength : s'.conns.length = s.conns.length := by
    have hlen := congrArg List.length hconns
    rwa [List.length_map, List.length_map] at hlen
  obtain ⟨haddr, hname, hpool, -, hid, -⟩ := TcpServer.mk.inj hserver
  have hconnName : s'.server.connName = s.server.connName := by
    funext connid
    rw [connName, connName, haddr, hname]
  refine ⟨?_, ?_, ?_, ?_, ?_, ?_⟩
  · rw [hid, hlength]
    exact h.ids
  · rw [hid]
    exact h.bound
  · rw [hpool]
    exact h.baseLoop
  · rw [hpool]
    exact h.loops
  · rw [hpool, hlength]
    exact h.next
  · rw [hconns, hlength, hconnName, hpool]
    exact h.conns

theorem init_laid (listenAddr : InetAddress) (name : String) (numThreads : ℕ) (wc : Bool) :
    Laid (init listenAddr name numThreads wc) := by
  refine ⟨rfl, Nat.one_le_two_pow.trans (by decide : 2 ^ 30 ≤ intMax), rfl, ?_, fun _ => (Nat.zero_mod _).symm, rfl⟩
  refine List.map_congr_left fun i _ => ?_
  exact congrArg (· + 1) (Nat.zero_add i)

/-- The pool hands out its loops in turn. -/
theorem Laid.getNextloop (h : Laid s) :
    s.server.threadpool.getNextloop.1 = loopAt s.server.threadpool.numThreads s.conns.length ∧
      s.server.threadpool.getNextloop.2.numThreads = s.server.threadpool.numThreads ∧
      s.server.threadpool.getNextloop.2.baseLoop = 0 ∧
      s.server.threadpool.getNextloop.2.loops = s.server.threadpool.loops ∧
      (s.server.threadpool.numThreads ≠ 0 →
        s.server.threadpool.getNextloop.2.next = (s.conns.length + 1) % s.server.threadpool.numThreads) := by
  have hlength : s.server.threadpool.loops.length = s.server.threadpool.numThreads := by
    rw [h.loops, List.length_map, List.length_range]
  have hempty : s.server.threadpool.loops = [] ↔ s.server.threadpool.numThreads = 0 := by
    rw [← hlength, List.length_eq_zero_iff]
  unfold EventLoopThreadpool.getNextloop loopAt
  by_cases hn : s.server.threadpool.numThreads = 0
  · rw [if_pos (hempty.2 hn), if_pos hn]
    exact ⟨h.baseLoop, rfl, h.baseLoop, rfl, fun hne => absurd hn hne⟩
  · rw [if_neg (fun he => hn (hempty.1 he)), if_neg hn]
    have hlt := Nat.mod_lt s.conns.length (Nat.pos_of_ne_zero hn)
    refine ⟨?_, rfl, h.baseLoop, rfl, fun _ => ?_⟩
    · rw [h.next hn, h.loops, List.getD_eq_getElem?_getD, List.getElem?_map, List.getElem?_range hlt]
      rfl
    · rw [hlength, h.next hn, ← Nat.mod_add_mod]
      dsimp only
      split
      · rename_i hlast
        rw [show s.conns.length % s.server.threadpool.numThreads + 1 = s.server.threadpool.numThreads by omega,
          Nat.mod_self]
      · exact (Nat.mod_eq_of_lt (by omega)).symm

theorem newConnection_laid (h : Laid s) (hid : s.server.nextConnid < intMax) : Laid s.newConnection := by
  obtain ⟨hloop, hnum, hbase, hloops, hnext⟩ := h.getNextloop
  have hlaid : ∀ s' : System, s'.shape =
      ((s.conns.map fun o => (o.name, o.loop)) ++ [(s.server.connName s.server.nextConnid,
          s.server.threadpool.getNextloop.1)],
        { s.server with
          threadpool := s.server.threadpool.getNextloop.2, nextConnid := s.server.nextConnid + 1
          connections := fun _ => none }) → Laid s' := by
    intro s' hshape
    obtain ⟨hconns, hserver⟩ := Prod.mk.inj hshape
    obtain ⟨haddr, hname, hpool, -, hid', -⟩ := TcpServer.mk.inj hserver
    have hlength : s'.conns.length = s.conns.length + 1 := by
      have hlen := congrArg List.length hconns
      simpa using hlen
    have hconnName : s'.server.connName = s.server.connName := by
      funext connid
      rw [connName, connName, haddr, hname]
    refine ⟨?_, ?_, ?_, ?_, ?_, ?_⟩
    · rw [hid', hlength, h.ids]
    · rw [hid']
      exact hid
    · rw [hpool]
      exact hbase
    · rw [hpool, hloops, hnum]
      exact h.loops
    · rw [hpool, hnum, hlength]
      exact hnext
    · rw [hconns, hlength, List.range_succ, List.map_append, hconnName, hpool, hnum, h.conns, hloop, h.ids]
      rfl
  apply hlaid
  unfold newConnection
  dsimp only
  split
  · unfold connectEstablished
    rw [shape_call, shape, List.map_append]
    rfl
  · rw [shape_push, shape, List.map_append]
    rfl

theorem run_laid {listenAddr : InetAddress} {name : String} {numThreads : ℕ} {wc : Bool} {acts : List Act} {t : System}
    (h : Run.run step (init listenAddr name numThreads wc) acts = some t) : Laid t := by
  refine Run.run_invariant Laid (fun s a s' hl hs => ?_) (init_laid listenAddr name numThreads wc) h
  by_cases ha : a = .accept
  · subst ha
    simp only [step] at hs
    split at hs
    · rename_i hid
      cases hs
      exact newConnection_laid hl hid
    · cases hs
  · exact hl.congr (shape_step ha hs)

theorem Laid.conn_eq (h : Laid s) (ho : s.conns[i]? = some o) :
    i + 1 < intMax ∧ o.name = s.server.connName (i + 1) ∧ o.loop = loopAt s.server.threadpool.numThreads i := by
  obtain ⟨hlt, -⟩ := List.getElem?_eq_some_iff.1 ho
  have hboth := congrArg (·[i]?) h.conns
  simp only [List.getElem?_map, ho, List.getElem?_range hlt, Option.map_some, Option.some.injEq, Prod.mk.injEq]
    at hboth
  have hid := h.ids
  have hbound := h.bound
  exact ⟨by omega, hboth⟩

theorem Laid.name_inj (h : Laid s) (ho : s.conns[i]? = some o) (ho' : s.conns[j]? = some o') (he : o.name = o'.name) :
    i = j := by
  obtain ⟨hi, hname, -⟩ := h.conn_eq ho
  obtain ⟨hj, hname', -⟩ := h.conn_eq ho'
  rw [hname, hname'] at he
  have hid := connName_inj hi hj he
  omega

theorem count_loopAt {numThreads : ℕ} (hn : numThreads ≠ 0) (a k : ℕ) :
    ((List.range k).map (loopAt numThreads)).count (a + 1) = Nat.count (fun i => i % numThreads = a) k := by
  induction k with
  | zero => rfl
  | succ k ih =>
    rw [List.range_succ, List.map_append, List.count_append, ih, Nat.count_succ, List.map_singleton,
      List.count_singleton, loopAt, if_neg hn]
    congr 1
    by_cases hk : k % numThreads = a
    · simp [hk]
    · simp [hk]

/-- **The loops take turns.** Every connection is in one of the pool's loops, and no
loop gets more than one connection more than another. -/
theorem loops_balanced {listenAddr : InetAddress} {name : String} {numThreads : ℕ} {wc : Bool} {acts : List Act}
    {t : System} (h : Run.run step (init listenAddr name numThreads wc) acts = some t) :
    (∀ o ∈ t.conns, o.loop ∈ t.server.threadpool.getAllLoops) ∧
    ∀ l ∈ t.server.threadpool.getAllLoops, ∀ l' ∈ t.server.threadpool.getAllLoops,
      (t.conns.map ServerConn.loop).count l ≤ (t.conns.map ServerConn.loop).count l' + 1 := by
  have hlaid := run_laid h
  have hloops : t.conns.map ServerConn.loop = (List.range t.conns.length).map
      (loopAt t.server.threadpool.numThreads) := by
    have hsnd := congrArg (List.map Prod.snd) hlaid.conns
    rwa [List.map_map, List.map_map] at hsnd
  have hall := hlaid.loops
  have hbase := hlaid.baseLoop
  unfold EventLoopThreadpool.getAllLoops
  rw [hloops, hall, hbase]
  by_cases hn : t.server.threadpool.numThreads = 0
  · rw [hn, List.range_zero, List.map_nil, if_pos rfl]
    refine ⟨fun o ho => ?_, fun l hl l' hl' => ?_⟩
    · obtain ⟨i, hi⟩ := List.mem_iff_getElem?.1 ho
      rw [(hlaid.conn_eq hi).2.2, loopAt, if_pos hn]
      exact List.mem_singleton_self 0
    · rw [List.mem_singleton.1 hl, List.mem_singleton.1 hl']
      exact Nat.le_succ _
  · rw [if_neg (by simp [hn])]
    refine ⟨fun o ho => ?_, fun l hl l' hl' => ?_⟩
    · obtain ⟨i, hi⟩ := List.mem_iff_getElem?.1 ho
      rw [(hlaid.conn_eq hi).2.2, loopAt, if_neg hn]
      exact List.mem_map.2 ⟨_, List.mem_range.2 (Nat.mod_lt i (Nat.pos_of_ne_zero hn)), rfl⟩
    · obtain ⟨a, ha, rfl⟩ := List.mem_map.1 hl
      obtain ⟨b, hb, rfl⟩ := List.mem_map.1 hl'
      have hcard : ∀ a < t.server.threadpool.numThreads,
          Nat.count (fun i => i % t.server.threadpool.numThreads = a) t.conns.length =
            t.conns.length / t.server.threadpool.numThreads +
              if a < t.conns.length % t.server.threadpool.numThreads then 1 else 0 := by
        intro a ha
        have hmod := Nat.mod_eq_of_lt ha
        have hcount := Nat.count_modEq_card t.conns.length (Nat.pos_of_ne_zero hn) a
        rw [hmod] at hcount
        rw [← hcount]
        simp only [Nat.ModEq, hmod]
      rw [count_loopAt hn, count_loopAt hn, hcard a (List.mem_range.1 ha), hcard b (List.mem_range.1 hb)]
      split <;> omega

/-- 127.0.0.1, port 8000. -/
def localhost : InetAddress := { ip := ![127, 0, 0, 1], port := 8000 }

theorem loops_balanced_three :
    ∃ t, Run.run step (init localhost "echo" 2 false) [.accept, .accept, .accept] = some t ∧
      t.conns.map ServerConn.loop = [1, 2, 1] ∧ ∀ o ∈ t.conns, o.loop ∈ t.server.threadpool.getAllLoops := by
  have heval : (Run.run step (init localhost "echo" 2 false) [.accept, .accept, .accept]).map
      (fun s => s.conns.map ServerConn.loop) = some [1, 2, 1] := by decide +kernel
  obtain ⟨t, ht, hloops⟩ := Option.map_eq_some_iff.1 heval
  exact ⟨t, ht, hloops, (loops_balanced ht).1⟩

end System

end TcpServer

end Learncc
