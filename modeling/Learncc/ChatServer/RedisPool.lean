/-
The pool of redis connections and the operations that use it
(inc/chat_server/redis_mgr.h, src/chat_server/redis_mgr.cc), for any number of
calls at once. A call waits for a connection, issues its command, looks at the
reply and puts the connection back; `close` may come between any two steps, and
`get_conn` reads the flag twice.

The operations differ in the command, in whether they look at the connection
before they use it, and in what they ask of the reply; `Op` has just that, and
each operation is one `Op`. Where the code goes through a null pointer the call
is `undefined`.
-/
import Learncc.Lib.Run
import Mathlib.Data.Int.Notation
import Mathlib.Data.List.Basic

namespace Learncc.RedisPool

/-- `redisReply`, with `str` where hiredis sets it. -/
inductive Reply
  | string (str : String)
  | array
  | integer (n : ℤ)
  | nil
  | status (str : String)
  | error (str : String)
  | other (str : Option String)
deriving Repr, DecidableEq

def Reply.str : Reply → Option String
  | .string str | .status str | .error str => some str
  | .other str => str
  | .array | .integer _ | .nil => none

/-- What an operation answers: whether it succeeded, and the text it delivers. -/
structure Outcome where
  ok : Bool
  value : Option String
deriving Repr, DecidableEq

/-- `checksNull`: it answers `false` at once when it gets no connection. `fails`
is its test of the reply, null included, and `takesStr` says that it reads
`reply->str` when the test lets the reply through. -/
structure Op where
  argv : List String
  checksNull : Bool
  fails : Option Reply → Bool
  takesStr : Bool
  failure : Outcome

/-- What comes of the reply; `none` where `reply->str` is null and read. -/
def Op.read (op : Op) (reply : Option Reply) : Option Outcome :=
  if op.fails reply then some op.failure
  else if op.takesStr then (reply.bind Reply.str).map fun str => ⟨true, some str⟩
  else some ⟨true, none⟩

/-! ## The operations -/

def notString : Option Reply → Bool
  | some (.string _) => false
  | _ => true

def notOk : Option Reply → Bool
  | some (.status str) => str ≠ "OK" ∧ str ≠ "ok"
  | _ => true

def notPositive : Option Reply → Bool
  | some (.integer n) => n ≤ 0
  | _ => true

def notInteger : Option Reply → Bool
  | some (.integer _) => false
  | _ => true

def notNonzero : Option Reply → Bool
  | some (.integer n) => n = 0
  | _ => true

def nullOrNil : Option Reply → Bool
  | none | some .nil => true
  | _ => false

def get (key : String) : Op := ⟨["GET", key], true, notString, true, ⟨false, none⟩⟩

def set (key value : String) : Op := ⟨["SET", key, value], false, notOk, false, ⟨false, none⟩⟩

def lpush (key value : String) : Op := ⟨["LPUSH", key, value], false, notPositive, false, ⟨false, none⟩⟩

def lpop (key : String) : Op := ⟨["LPOP", key], false, nullOrNil, true, ⟨false, none⟩⟩

def rpush (key value : String) : Op := ⟨["RPUSH", key, value], false, notPositive, false, ⟨false, none⟩⟩

def rpop (key : String) : Op := ⟨["RPOP", key], false, nullOrNil, true, ⟨false, none⟩⟩

/-- Both forms of `hset`. -/
def hset (key hkey value : String) : Op := ⟨["HSET", key, hkey, value], false, notInteger, false, ⟨false, none⟩⟩

/-- Its failure is the empty string. -/
def hget (key hkey : String) : Op := ⟨["HGET", key, hkey], false, nullOrNil, true, ⟨false, some ""⟩⟩

def del (key : String) : Op := ⟨["DEL", key], false, notInteger, false, ⟨false, none⟩⟩

def hdel (key field : String) : Op := ⟨["HDEL", key, field], true, notPositive, false, ⟨false, none⟩⟩

def existKey (key : String) : Op := ⟨["exists", key], false, notNonzero, false, ⟨false, none⟩⟩

/-! ## Calls -/

inductive Pc
  | waiting
  | woken
  | has (connect : Option ℕ)
  | replied (connect : Option ℕ) (outcome : Outcome)
  | done (outcome : Outcome)
  | undefined
deriving Repr, DecidableEq

/-- A call of an operation, with a record of the connections `get_conn` gave it,
those it issued its command on, and those it put back. -/
structure Call where
  op : Op
  pc : Pc
  taken : List (Option ℕ)
  issued : List (Option ℕ)
  put : List (Option ℕ)

/-- `owner` is the call that has the mutex over more than one step. -/
structure Pool where
  conns : List (Option ℕ)
  stop : Bool
  owner : Option ℕ
  calls : List Call

inductive Event
  | call (op : Op)
  | wake (i : ℕ)
  | take (i : ℕ)
  | command (i : ℕ) (reply : Option Reply)
  | put (i : ℕ)
  | close

/-- The rest of the operation once `get_conn` has answered, up to `put_conn`. -/
def Call.command (c : Call) (connect : Option ℕ) (reply : Option Reply) : Call :=
  match connect with
  | none =>
    if c.op.checksNull then { c with pc := .done ⟨false, none⟩ }
    else { c with issued := [none], pc := .undefined }
  | some _ =>
    match c.op.read reply with
    | none => { c with issued := [connect], pc := .undefined }
    | some outcome => { c with issued := [connect], pc := .replied connect outcome }

namespace Pool

/-- One step of a call: the wait ends, the connection is taken, the command is
issued and the reply looked at, the connection is put back. -/
def step (s : Pool) : Event → Option Pool
  | .call op => some { s with calls := s.calls ++ [⟨op, .waiting, [], [], []⟩] }
  | .wake i =>
    match s.calls[i]?, s.owner with
    | some c, none =>
      if c.pc = .waiting ∧ (s.stop ∨ s.conns ≠ []) then
        some { s with owner := some i, calls := s.calls.set i { c with pc := .woken } }
      else none
    | _, _ => none
  | .take i =>
    match s.calls[i]? with
    | none => none
    | some c =>
      if c.pc = .woken then
        if s.stop then
          some { s with owner := none, calls := s.calls.set i { c with pc := .has none, taken := [none] } }
        else
          match s.conns with
          | [] => some { s with owner := none, calls := s.calls.set i { c with pc := .undefined } }
          | connect :: rest =>
            some { s with
              owner := none, conns := rest
              calls := s.calls.set i { c with pc := .has connect, taken := [connect] } }
      else none
  | .command i reply =>
    match s.calls[i]? with
    | none => none
    | some c =>
      match c.pc with
      | .has connect => some { s with calls := s.calls.set i (c.command connect reply) }
      | _ => none
  | .put i =>
    match s.calls[i]?, s.owner with
    | some c, none =>
      match c.pc with
      | .replied connect outcome =>
        some { s with
          conns := s.conns ++ [connect]
          calls := s.calls.set i { c with pc := .done outcome, put := [connect] } }
      | _ => none
    | _, _ => none
  | .close => some { s with stop := true }

/-- The pool after its construction. -/
def init (conns : List ℕ) : Pool := { conns := conns.map some, stop := false, owner := none, calls := [] }

end Pool

/-! ## The discipline -/

/-- What a call has done with connections, by where it is: it issues its command
on the connection it was given, puts that connection back once, and fails when it
was given none. -/
def Call.Disciplined (c : Call) : Prop :=
  match c.pc with
  | .waiting | .woken => c.taken = [] ∧ c.issued = [] ∧ c.put = []
  | .has connect => c.taken = [connect] ∧ c.issued = [] ∧ c.put = []
  | .replied connect _ => ∃ n, connect = some n ∧ c.taken = [some n] ∧ c.issued = [some n] ∧ c.put = []
  | .done outcome =>
    (∃ n, c.taken = [some n] ∧ c.issued = [some n] ∧ c.put = [some n]) ∨
      c.taken = [none] ∧ c.issued = [] ∧ c.put = [] ∧ outcome.ok = false
  | .undefined => False

structure Pool.Disciplined (s : Pool) : Prop where
  calls : ∀ c ∈ s.calls, c.Disciplined
  conns : none ∉ s.conns

/-- An operation that got no connection looks before it uses it, and
`reply->str` is not read where it is null. -/
def Call.Careful (c : Call) (reply : Option Reply) : Prop :=
  match c.pc with
  | .has none => c.op.checksNull = true
  | .has (some _) => (c.op.read reply).isSome = true
  | _ => True

instance (c : Call) (reply : Option Reply) : Decidable (c.Careful reply) := by
  unfold Call.Careful
  split <;> infer_instance

def Pool.Careful (s : Pool) : Event → Prop
  | .command i reply => ∀ c ∈ s.calls[i]?, c.Careful reply
  | _ => True

instance (s : Pool) : ∀ e, Decidable (s.Careful e)
  | .command i reply => inferInstanceAs (Decidable (∀ c ∈ s.calls[i]?, c.Careful reply))
  | .call _ | .wake _ | .take _ | .put _ | .close => .isTrue trivial

/-- Who has the mutex, and that what it waited for is still so. -/
structure Pool.Synced (s : Pool) : Prop where
  owner : ∀ (i : ℕ) (c : Call), s.calls[i]? = some c → c.pc = .woken → s.owner = some i
  ready : ∀ (i : ℕ) (c : Call), s.calls[i]? = some c → c.pc = .woken → s.stop = true ∨ s.conns ≠ []

variable {s s' : Pool} {e : Event} {i : ℕ} {c d : Call}

/-- The calls after one of them has moved. -/
theorem getElem?_move {calls : List Call} {j : ℕ} {x : Call} (h : (calls.set i d)[j]? = some x) :
    j = i ∧ x = d ∨ j ≠ i ∧ calls[j]? = some x := by
  rw [List.getElem?_set] at h
  split at h
  · rename_i hij
    split at h
    · exact .inl ⟨hij.symm, (Option.some.inj h).symm⟩
    · cases h
  · rename_i hij
    exact .inr ⟨fun he => hij he.symm, h⟩

theorem Pool.Synced.move {conns : List (Option ℕ)} {stop : Bool} {owner : Option ℕ} (h : s.Synced)
    (howner : owner = s.owner ∨ s.owner = none ∨ s.owner = some i) (hstop : s.stop = true → stop = true)
    (hconns : owner = s.owner → s.conns ≠ [] → conns ≠ [])
    (hd : d.pc = .woken → owner = some i ∧ (stop = true ∨ conns ≠ [])) :
    Pool.Synced { conns, stop, owner, calls := s.calls.set i d } := by
  have hkeep : ∀ j x, j ≠ i → s.calls[j]? = some x → x.pc = .woken →
      owner = s.owner ∧ s.owner = some j := by
    intro j x hne hj hx
    have hj := h.owner j x hj hx
    rcases howner with ho | ho | ho
    · exact ⟨ho, hj⟩
    · rw [ho] at hj
      cases hj
    · rw [ho] at hj
      exact absurd (Option.some.inj hj).symm hne
  refine ⟨fun j x hj hx => ?_, fun j x hj hx => ?_⟩
  · rcases getElem?_move hj with ⟨rfl, rfl⟩ | ⟨hne, hj⟩
    · exact (hd hx).1
    · obtain ⟨ho, hown⟩ := hkeep j x hne hj hx
      exact ho.trans hown
  · rcases getElem?_move hj with ⟨rfl, rfl⟩ | ⟨hne, hj⟩
    · exact (hd hx).2
    · obtain ⟨ho, -⟩ := hkeep j x hne hj hx
      exact (h.ready j x hj hx).imp hstop (hconns ho)

/-- The other calls stay, so only the one that moved matters. -/
theorem disciplined_move {conns : List (Option ℕ)} {stop : Bool} {owner : Option ℕ} (h : s.Disciplined)
    (hc : s.calls[i]? = some c) (hconns : none ∉ conns) :
    Pool.Disciplined { conns, stop, owner, calls := s.calls.set i d } ↔ d.Disciplined := by
  obtain ⟨hlt, -⟩ := List.getElem?_eq_some_iff.1 hc
  refine ⟨fun ha => ha.calls d (List.mem_set hlt d), fun hd => ⟨fun x hx => ?_, hconns⟩⟩
  rcases List.mem_or_eq_of_mem_set hx with hx | rfl
  · exact h.calls x hx
  · exact hd

/-- The command and what follows, when the call has its connection. -/
theorem command_disciplined {connect : Option ℕ} {reply : Option Reply} (h : c.Disciplined)
    (hpc : c.pc = .has connect) :
    (c.command connect reply).Disciplined ↔ c.Careful reply := by
  simp only [Call.Disciplined, hpc] at h
  obtain ⟨htaken, hissued, hput⟩ := h
  unfold Call.command Call.Careful
  rw [hpc]
  cases connect with
  | none =>
    dsimp only
    split
    · rename_i hnull
      exact ⟨fun _ => hnull, fun _ => .inr ⟨htaken, hissued, hput, rfl⟩⟩
    · rename_i hnull
      exact ⟨fun hd => hd.elim, fun hn => absurd hn hnull⟩
  | some n =>
    dsimp only
    cases hread : c.op.read reply with
    | none => exact ⟨fun hd => hd.elim, fun hr => by cases hr⟩
    | some outcome => exact ⟨fun _ => rfl, fun _ => ⟨n, rfl, htaken, rfl, hput⟩⟩

theorem command_pc {connect : Option ℕ} {reply : Option Reply} : (c.command connect reply).pc ≠ .woken := by
  unfold Call.command
  cases connect with
  | none =>
    dsimp only
    split <;> exact fun he => by cases he
  | some n =>
    dsimp only
    split <;> exact fun he => by cases he

/-- The mutex and the wait are respected in every step. -/
theorem step_synced (h : s.Synced) (hs : s.step e = some s') : s'.Synced := by
  cases e with
  | call op =>
    cases hs
    have hold : ∀ (j : ℕ) (x : Call),
        (s.calls ++ [⟨op, .waiting, [], [], []⟩])[j]? = some x → x.pc = .woken →
        s.calls[j]? = some x := by
      intro j x hj hx
      rcases Nat.lt_or_ge j s.calls.length with hlt | hge
      · rwa [List.getElem?_append_left hlt] at hj
      · rw [List.getElem?_append_right hge] at hj
        rw [List.mem_singleton.1 (List.mem_of_getElem? hj)] at hx
        cases hx
    exact ⟨fun j x hj hx => h.owner j x (hold j x hj hx) hx, fun j x hj hx => h.ready j x (hold j x hj hx) hx⟩
  | wake i =>
    simp only [Pool.step] at hs
    split at hs
    · rename_i c hc howner
      split at hs
      · rename_i hw
        cases hs
        exact h.move (.inr (.inl howner)) id (fun _ hx => hx) fun _ => ⟨rfl, hw.2⟩
      · cases hs
    · cases hs
  | take i =>
    simp only [Pool.step] at hs
    split at hs
    · cases hs
    · rename_i c hc
      split at hs
      · rename_i hw
        have howner := h.owner i c hc hw
        have hne : (none : Option ℕ) ≠ s.owner := by
          rw [howner]
          exact fun he => by cases he
        split at hs
        · cases hs
          exact h.move (.inr (.inr howner)) id (fun he => absurd he hne) fun he => by cases he
        · split at hs
          · cases hs
            exact h.move (.inr (.inr howner)) id (fun he => absurd he hne) fun he => by cases he
          · cases hs
            exact h.move (.inr (.inr howner)) id (fun he => absurd he hne) fun he => by cases he
      · cases hs
  | command i reply =>
    simp only [Pool.step] at hs
    split at hs
    · cases hs
    · split at hs
      · cases hs
        exact h.move (.inl rfl) id (fun _ hx => hx) fun he => absurd he command_pc
      · cases hs
  | put i =>
    simp only [Pool.step] at hs
    split at hs
    · rename_i c hc howner
      split at hs
      · cases hs
        exact h.move (.inr (.inl howner)) id (fun _ _ hx => by cases (List.append_eq_nil_iff.1 hx).2)
          fun he => by cases he
      · cases hs
    · cases hs
  | close =>
    cases hs
    exact ⟨h.owner, fun _ _ _ _ => .inl rfl⟩

/-- A step keeps the discipline exactly when it is careful. -/
theorem step_disciplined_iff (hsync : s.Synced) (h : s.Disciplined) (hs : s.step e = some s') :
    s'.Disciplined ↔ s.Careful e := by
  cases e with
  | call op =>
    cases hs
    refine ⟨fun _ => trivial, fun _ => ⟨fun c hc => ?_, h.conns⟩⟩
    rcases List.mem_append.1 hc with hc | hc
    · exact h.calls c hc
    · rw [List.mem_singleton.1 hc]
      exact ⟨rfl, rfl, rfl⟩
  | wake i =>
    simp only [Pool.step] at hs
    split at hs
    · rename_i c hc howner
      split at hs
      · rename_i hw
        cases hs
        have hcall := h.calls c (List.mem_of_getElem? hc)
        simp only [Call.Disciplined, hw.1] at hcall
        exact (disciplined_move h hc h.conns).trans ⟨fun _ => trivial, fun _ => hcall⟩
      · cases hs
    · cases hs
  | take i =>
    simp only [Pool.step] at hs
    split at hs
    · cases hs
    · rename_i c hc
      split at hs
      · rename_i hw
        have hcall := h.calls c (List.mem_of_getElem? hc)
        simp only [Call.Disciplined, hw] at hcall
        split at hs
        · cases hs
          exact (disciplined_move h hc h.conns).trans ⟨fun _ => trivial, fun _ => ⟨rfl, hcall.2⟩⟩
        · rename_i hstop
          split at hs
          · rename_i hempty
            exact absurd hempty ((hsync.ready i c hc hw).resolve_left hstop)
          · rename_i connect rest hconns
            cases hs
            have hrest : none ∉ rest := fun hm => h.conns (hconns ▸ List.mem_cons_of_mem _ hm)
            exact (disciplined_move h hc hrest).trans ⟨fun _ => trivial, fun _ => ⟨rfl, hcall.2⟩⟩
      · cases hs
  | command i reply =>
    simp only [Pool.step] at hs
    split at hs
    · cases hs
    · rename_i c hc
      split at hs
      · rename_i connect hpc
        cases hs
        refine (disciplined_move h hc h.conns).trans ?_
        refine (command_disciplined (h.calls c (List.mem_of_getElem? hc)) hpc).trans ?_
        simp [Pool.Careful, hc]
      · cases hs
  | put i =>
    simp only [Pool.step] at hs
    split at hs
    · rename_i c hc howner
      split at hs
      · rename_i connect outcome hpc
        cases hs
        have hcall := h.calls c (List.mem_of_getElem? hc)
        simp only [Call.Disciplined, hpc] at hcall
        obtain ⟨n, rfl, htaken, hissued, -⟩ := hcall
        have hconns : none ∉ s.conns ++ [some n] := by
          intro hm
          rcases List.mem_append.1 hm with hm | hm
          · exact h.conns hm
          · cases List.mem_singleton.1 hm
        exact (disciplined_move h hc hconns).trans ⟨fun _ => trivial, fun _ => .inl ⟨n, htaken, hissued, rfl⟩⟩
      · cases hs
    · cases hs
  | close =>
    cases hs
    exact ⟨fun _ => trivial, fun _ => ⟨h.calls, h.conns⟩⟩

/-- A key is read before the pool is closed, and asked for afterwards. -/
def getAndClose : List Event :=
  [.call (get "k"), .wake 0, .take 0, .command 0 (some (.string "v")), .close, .put 0, .call (get "k"),
    .wake 1, .take 1,
    .command 1 none]

end Learncc.RedisPool
