/-
`calls_`, the table of an `arpc_channel` (src/arpc/arpc_channel.cc), over any
number of calls in any order: each `CallMethod` takes an id, makes an entry,
and leaves it there whatever goes wrong until a response is found for it.

`run_exact`: the table holds exactly the calls that are neither completed nor
failed, as long as no call fails while its entry is in the table.
-/
import Learncc.Arpc.Channel
import Learncc.Lib.Run

namespace Learncc

/-- How far a call has come. -/
inductive CallStage
  | idle
  /-- It took its id. -/
  | numbered (id : UInt32)
  /-- Its entry is made, its request not yet sent. -/
  | entered (id : UInt32)
  /-- `CallMethod` returned, and its thread waits in `recv`. -/
  | sent (id : UInt32)
  /-- Its thread is over. -/
  | over (id : UInt32)
  /-- It failed, before or after it took an id. -/
  | failed (id : Option UInt32)
deriving Repr, DecidableEq

namespace CallStage

/-- The id a call took. -/
def idOf : CallStage → Option UInt32
  | .idle => none
  | .numbered id => some id
  | .entered id => some id
  | .sent id => some id
  | .over id => some id
  | .failed id => id

/-- The id under which it made an entry. -/
def madeOf : CallStage → Option UInt32
  | .numbered _ => none
  | stage => stage.idOf

/-- The same, if it did not fail. -/
def entryOf : CallStage → Option UInt32
  | .failed _ => none
  | stage => stage.madeOf

/-- The same, if its request was sent. -/
def sentOf : CallStage → Option UInt32
  | .entered _ => none
  | stage => stage.entryOf

theorem idOf_of_made {stage : CallStage} {id : UInt32} (h : stage.madeOf = some id) : stage.idOf = some id := by
  cases stage with
  | numbered => cases h
  | _ => exact h

theorem made_of_entry {stage : CallStage} {id : UInt32} (h : stage.entryOf = some id) : stage.madeOf = some id := by
  cases stage with
  | failed => cases h
  | _ => exact h

end CallStage

/-- Where `CallMethod` gives up. -/
inductive Failure
  | serializeRequest
  | serializeHeader
  | socket
  | connect
  | send
deriving Repr, DecidableEq

/-- The steps of the call `c`. What a thread does before it locks `mtx_` and
after it unlocked it touches nothing that another thread reads, so a `recv`
with all that follows is one step. -/
inductive CallOp (T : Type)
  | fail (c : ℕ) (why : Failure)
  | fetchAdd (c : ℕ)
  | insert (c : ℕ) (response : Option T) (done : Bool)
  | send (c : ℕ)
  | recv (c : ℕ) (controller : Controller) (r : ReadvResult)

/-- A run of some `done`: whose, and what response it was for. -/
structure DoneRun (M : Type) where
  call : ℕ
  id : UInt32
  response : M

/-- The fields of `arpc_channel`, and what became of the calls. -/
structure ArpcChannel (T M : Type) where
  id : UInt32
  calls : CallMap T
  stage : ℕ → CallStage
  /-- How many ids were handed out. -/
  started : ℕ
  /-- The calls whose entry was taken by a response to them. -/
  completed : List UInt32
  ran : List (DoneRun M)

namespace ArpcChannel

variable {T M : Type}

/-- A new channel: its constructor leaves `id_` as it finds it. -/
def init (first : UInt32) : ArpcChannel T M :=
  { id := first, calls := fun _ => none, stage := fun _ => .idle, started := 0, completed := [], ran := [] }

def setStage (s : ArpcChannel T M) (c : ℕ) (stage : CallStage) : ArpcChannel T M :=
  { s with stage := Function.update s.stage c stage }

/-- `CallMethod` gives up: the first check comes before the id is taken, the
others come after the entry is made. -/
def fail (s : ArpcChannel T M) (c : ℕ) (why : Failure) : Option (ArpcChannel T M) :=
  match s.stage c with
  | .idle => if why = .serializeRequest then some (s.setStage c (.failed none)) else none
  | .entered id => if why = .serializeRequest then none else some (s.setStage c (.failed (some id)))
  | _ => none

/-- The thread of the call, which has `id`, comes to its end. One that throws
takes the process with it. -/
def finish (s : ArpcChannel T M) (c : ℕ) (id : UInt32) (calls : CallMap T) : Outcome M → Option (ArpcChannel T M)
  | .answered rid m ran =>
    some { s.setStage c (.over id) with
      calls := calls
      completed := rid :: s.completed
      ran := match ran with
        | some d => ⟨d, rid, m⟩ :: s.ran
        | none => s.ran }
  | .dropped rid => some { s.setStage c (.over id) with calls := calls, completed := rid :: s.completed }
  | .ignored => some { s.setStage c (.over id) with calls := calls }
  | .reported _ => some { s.setStage c (.failed (some id)) with calls := calls }
  | .unreported => some { s.setStage c (.failed (some id)) with calls := calls }
  | .threw => none
  | .undefined => none

def step (pb : Protobuf T M) (s : ArpcChannel T M) : CallOp T → Option (ArpcChannel T M)
  | .fail c why => s.fail c why
  | .fetchAdd c =>
    match s.stage c with
    | .idle => some { s.setStage c (.numbered s.id) with id := s.id + 1, started := s.started + 1 }
    | _ => none
  | .insert c response done =>
    match s.stage c with
    | .numbered id =>
      some { s.setStage c (.entered id) with
        calls := Function.update s.calls id (some ⟨response, if done then some c else none⟩) }
    | _ => none
  | .send c =>
    match s.stage c with
    | .entered id => some (s.setStage c (.sent id))
    | _ => none
  | .recv c controller r =>
    match s.stage c with
    | .sent id =>
      let (calls, outcome) := receive pb controller s.calls r
      s.finish c id calls outcome
    | _ => none

/-! ## What the table should hold -/

/-- The bytes are a response to a call in the table. -/
def Takes (pb : Protobuf T M) (calls : CallMap T) (recvStr : Bytes) (hdr : ArpcHeader) : Prop :=
  4 ≤ recvStr.length ∧ pb.parseHeader (headerStr recvStr) = some hdr ∧ hdr.type = .response ∧ calls hdr.id ≠ none

/-- No call fails in this step and has its entry left in the table; and an
entry is taken from the table by a response that parses, or by the thread of
the call it is for. -/
def Clean (pb : Protobuf T M) (s : ArpcChannel T M) : CallOp T → Prop
  | .fail c _ => ∀ id, s.stage c = .entered id → s.calls id = none
  | .recv c _ (.err _) => ∀ id, s.stage c = .sent id → s.calls id = none
  | .recv c _ (.ok recvStr) => ∀ id, s.stage c = .sent id → Refused pb s.calls recvStr →
      (∃ hdr, Takes pb s.calls recvStr hdr ∧ hdr.id = id) ∨
        s.calls id = none ∧ ∀ hdr, ¬ Takes pb s.calls recvStr hdr
  | _ => True

/-- Ids: the calls that have one, have different ones, counted up from
`first`. -/
structure Ids (first id : UInt32) (started : ℕ) (idOf : ℕ → Option UInt32) : Prop where
  next : id = first + UInt32.ofNat started
  below : ∀ c i, idOf c = some i → ∃ k < started, i = first + UInt32.ofNat k
  unique : ∀ c d i, idOf c = some i → idOf d = some i → c = d

/-- Entries: one for each call under way, with the `done` of that call. -/
structure Entries (calls : CallMap T) (completed : List UInt32) (entryOf : ℕ → Option UInt32) : Prop where
  owned : ∀ i o, calls i = some o → i ∉ completed ∧ ∃ c, entryOf c = some i ∧ ∀ d, o.done = some d → d = c
  present : ∀ c i, entryOf c = some i → i ∉ completed → calls i ≠ none

/-- Runs of `done`: none twice, and each for a response with the id of its
call. -/
structure Runs (completed : List UInt32) (ran : List (DoneRun M)) (madeOf : ℕ → Option UInt32) : Prop where
  made : ∀ i ∈ completed, ∃ c, madeOf c = some i
  once : (ran.map DoneRun.call).Nodup
  ran : ∀ e ∈ ran, e.id ∈ completed ∧ madeOf e.call = some e.id

/-- The channel, `id_` of which began with `first`. -/
structure Inv (first : UInt32) (s : ArpcChannel T M) : Prop where
  ids : Ids first s.id s.started fun c => (s.stage c).idOf
  entries : Entries s.calls s.completed fun c => (s.stage c).entryOf
  runs : Runs s.completed s.ran fun c => (s.stage c).madeOf

theorem init_inv (first : UInt32) : Inv first (init first : ArpcChannel T M) := by
  refine ⟨⟨?_, ?_, ?_⟩, ⟨?_, ?_⟩, ⟨?_, ?_, ?_⟩⟩ <;> simp [init, CallStage.idOf, CallStage.entryOf, CallStage.madeOf]

section

variable {first id : UInt32} {started c : ℕ} {f : ℕ → Option UInt32} {calls : CallMap T} {completed : List UInt32}
  {ran : List (DoneRun M)}

/-- Ids differ as long as they are not used up. -/
theorem add_ofNat_inj {j k : ℕ} (hj : j < 2 ^ 32) (hk : k < 2 ^ 32)
    (h : first + UInt32.ofNat j = first + UInt32.ofNat k) : j = k := by
  have h' := (UInt32.add_right_inj first).1 h
  have := congrArg UInt32.toNat h'
  rwa [UInt32.toNat_ofNat', UInt32.toNat_ofNat', Nat.mod_eq_of_lt hj, Nat.mod_eq_of_lt hk] at this

/-- `fetch_add`. -/
theorem Ids.fetchAdd (h : Ids first id started f) (hlt : started < 2 ^ 32) :
    Ids first (id + 1) (started + 1) (Function.update f c (some id)) := by
  have hnew : ∀ x, f x ≠ some id := by
    intro x hx
    obtain ⟨k, hk, hid⟩ := h.below x id hx
    rw [h.next] at hid
    have := add_ofNat_inj hlt (by omega) hid
    omega
  refine ⟨?_, fun x i hx => ?_, fun x y i hx hy => ?_⟩
  · rw [h.next, UInt32.ofNat_add, UInt32.add_assoc]
    rfl
  · by_cases hxc : x = c
    · rw [hxc, Function.update_self, Option.some.injEq] at hx
      exact ⟨started, Nat.lt_succ_self _, hx ▸ h.next⟩
    · rw [Function.update_of_ne hxc] at hx
      obtain ⟨k, hk, hi⟩ := h.below x i hx
      exact ⟨k, Nat.lt_succ_of_lt hk, hi⟩
  · by_cases hxc : x = c
    · by_cases hyc : y = c
      · rw [hxc, hyc]
      · rw [hxc, Function.update_self] at hx
        rw [Function.update_of_ne hyc, ← hx] at hy
        exact absurd hy (hnew y)
    · rw [Function.update_of_ne hxc] at hx
      by_cases hyc : y = c
      · rw [hyc, Function.update_self] at hy
        rw [← hy] at hx
        exact absurd hx (hnew x)
      · rw [Function.update_of_ne hyc] at hy
        exact h.unique x y i hx hy

/-- `calls_[id] = out`. -/
theorem Entries.insert (h : Entries calls completed f) {o : OutCall T} (hc : f c = none) (hid : ∀ x, f x ≠ some id)
    (hnot : id ∉ completed) (ho : ∀ d, o.done = some d → d = c) :
    Entries (Function.update calls id (some o)) completed (Function.update f c (some id)) := by
  refine ⟨fun i p hp => ?_, fun x i hx hi => ?_⟩
  · by_cases hii : i = id
    · subst hii
      rw [Function.update_self, Option.some.injEq] at hp
      subst hp
      exact ⟨hnot, c, Function.update_self .., ho⟩
    · rw [Function.update_of_ne hii] at hp
      obtain ⟨hn, x, hx, hd⟩ := h.owned i p hp
      have hxc : x ≠ c := by
        intro he
        rw [he, hc] at hx
        cases hx
      refine ⟨hn, x, ?_, hd⟩
      rw [Function.update_of_ne hxc, hx]
  · by_cases hxc : x = c
    · rw [hxc, Function.update_self, Option.some.injEq] at hx
      simp [hx]
    · rw [Function.update_of_ne hxc] at hx
      have hii : i ≠ id := by
        intro he
        exact hid x (he ▸ hx)
      rw [Function.update_of_ne hii]
      exact h.present x i hx hi

/-- A response takes an entry. -/
theorem Entries.complete (h : Entries calls completed f) :
    Entries (Function.update calls id none) (id :: completed) f := by
  refine ⟨fun i p hp => ?_, fun x i hx hm => ?_⟩
  · have hii : i ≠ id := by
      intro he
      simp [he] at hp
    rw [Function.update_of_ne hii] at hp
    obtain ⟨hn, hx⟩ := h.owned i p hp
    exact ⟨by simp [hii, hn], hx⟩
  · rw [List.mem_cons, not_or] at hm
    obtain ⟨hii, hn⟩ := hm
    rw [Function.update_of_ne hii]
    exact h.present x i hx hn

/-- The call `c` fails, and its entry, if it was still there, is taken. -/
theorem Entries.fail (h : Entries calls completed f) (hc : f c = some id) (hid : ∀ x, f x = some id → x = c) :
    Entries (Function.update calls id none) completed (Function.update f c none) := by
  refine ⟨fun i p hp => ?_, fun x i hx hm => ?_⟩
  · have hii : i ≠ id := by
      intro he
      simp [he] at hp
    rw [Function.update_of_ne hii] at hp
    obtain ⟨hn, x, hx, hd⟩ := h.owned i p hp
    have hxc : x ≠ c := by
      intro he
      rw [he, hc, Option.some.injEq] at hx
      exact hii hx.symm
    refine ⟨hn, x, ?_, hd⟩
    rw [Function.update_of_ne hxc, hx]
  · have hxc : x ≠ c := by
      intro he
      simp [he] at hx
    rw [Function.update_of_ne hxc] at hx
    have hii : i ≠ id := by
      intro he
      exact hxc (hid x (he ▸ hx))
    rw [Function.update_of_ne hii]
    exact h.present x i hx hm

/-- More calls may have made their entries. -/
theorem Runs.mono {g : ℕ → Option UInt32} (h : Runs completed ran f) (hg : ∀ x i, f x = some i → g x = some i) :
    Runs completed ran g := by
  refine ⟨fun i hi => ?_, h.once, fun e he => ?_⟩
  · obtain ⟨x, hx⟩ := h.made i hi
    exact ⟨x, hg x i hx⟩
  · obtain ⟨hm, hx⟩ := h.ran e he
    exact ⟨hm, hg _ _ hx⟩

/-- A response to the call `c`, and perhaps a run of its `done`. -/
theorem Runs.complete (h : Runs completed ran f) (hc : f c = some id) (hnot : id ∉ completed) {l : List (DoneRun M)}
    (hl : ∀ e ∈ l, e.call = c ∧ e.id = id) (hone : (l.map DoneRun.call).Nodup) :
    Runs (id :: completed) (l ++ ran) f := by
  refine ⟨fun i hm => ?_, ?_, fun e he => ?_⟩
  · rcases List.mem_cons.1 hm with rfl | hm
    · exact ⟨c, hc⟩
    · exact h.made i hm
  · rw [List.map_append, List.nodup_append]
    refine ⟨hone, h.once, fun a ha b hb hab => ?_⟩
    obtain ⟨e, he, rfl⟩ := List.mem_map.1 ha
    obtain ⟨e', he', rfl⟩ := List.mem_map.1 hb
    -- The call of an earlier run has completed, and this one has not.
    obtain ⟨hm, hx⟩ := h.ran e' he'
    rw [← hab, (hl e he).1, hc, Option.some.injEq] at hx
    rw [← hx] at hm
    exact hnot hm
  · rcases List.mem_append.1 he with he | he
    · obtain ⟨hec, hid⟩ := hl e he
      rw [hid, hec]
      exact ⟨List.mem_cons_self, hc⟩
    · obtain ⟨hm, hx⟩ := h.ran e he
      exact ⟨List.mem_cons_of_mem _ hm, hx⟩

end

/-! ## One step -/

section

open CallStage

variable {pb : Protobuf T M} {first : UInt32} {s t : ArpcChannel T M} {c : ℕ}

theorem comp_setStage (f : CallStage → Option UInt32) (b : CallStage) :
    (fun x => f ((s.setStage c b).stage x)) = Function.update (fun x => f (s.stage x)) c (f b) := by
  funext x
  by_cases hx : x = c
  · simp [setStage, hx]
  · simp [setStage, hx]

theorem comp_setStage_eq (f : CallStage → Option UInt32) {b : CallStage} (hb : f b = f (s.stage c)) :
    (fun x => f ((s.setStage c b).stage x)) = fun x => f (s.stage x) := by
  rw [comp_setStage, hb, Function.update_eq_self]

/-- A call moves on, and nothing else changes. -/
theorem Inv.moves_on (h : Inv first s) {b : CallStage} (hid : b.idOf = (s.stage c).idOf)
    (hmade : b.madeOf = (s.stage c).madeOf) (hentry : b.entryOf = (s.stage c).entryOf) :
    Inv first (s.setStage c b) := by
  refine ⟨?_, ?_, ?_⟩
  · rw [comp_setStage_eq idOf hid]
    exact h.ids
  · rw [comp_setStage_eq entryOf hentry]
    exact h.entries
  · rw [comp_setStage_eq madeOf hmade]
    exact h.runs

/-- Only one call has an entry under its id. -/
theorem Inv.entry_unique (h : Inv first s) {id : UInt32} (hc : (s.stage c).idOf = some id) :
    ∀ x, (s.stage x).entryOf = some id → x = c := fun x hx =>
  h.ids.unique x c id (idOf_of_made (made_of_entry hx)) hc

/-- A call that made its entry fails, and leaves no entry. -/
theorem Inv.fails (h : Inv first s) {id : UInt32} (hc : (s.stage c).entryOf = some id) :
    Inv first { s.setStage c (.failed (some id)) with calls := Function.update s.calls id none } := by
  have hmade := made_of_entry hc
  refine ⟨?_, ?_, ?_⟩
  · show Ids first s.id s.started fun x => ((s.setStage c _).stage x).idOf
    rw [comp_setStage_eq idOf (b := .failed (some id)) (idOf_of_made hmade).symm]
    exact h.ids
  · show Entries _ s.completed fun x => ((s.setStage c _).stage x).entryOf
    rw [comp_setStage entryOf]
    exact h.entries.fail hc (h.entry_unique (idOf_of_made hmade))
  · show Runs s.completed s.ran fun x => ((s.setStage c _).stage x).madeOf
    rw [comp_setStage_eq madeOf (b := .failed (some id)) hmade.symm]
    exact h.runs

/-- A response takes the entry of a call, whose `done` runs if it has one. -/
theorem Inv.completes (h : Inv first s) {id : UInt32} {o : OutCall T} (hi : s.calls id = some o) {l : List (DoneRun M)}
    (hl : ∀ e ∈ l, o.done = some e.call ∧ e.id = id) (hone : (l.map DoneRun.call).Nodup) :
    Inv first { s with
      calls := Function.update s.calls id none, completed := id :: s.completed, ran := l ++ s.ran } := by
  obtain ⟨hnot, c, hc, hd⟩ := h.entries.owned id o hi
  refine ⟨h.ids, h.entries.complete, h.runs.complete (made_of_entry hc) hnot (fun e he => ?_) hone⟩
  exact ⟨hd _ (hl e he).1, (hl e he).2⟩

theorem fail_inv (h : Inv first s) {why : Failure} (hclean : ∀ id, s.stage c = .entered id → s.calls id = none)
    (hs : s.fail c why = some t) : Inv first t := by
  unfold fail at hs
  cases hc : s.stage c with
  | idle =>
    simp only [hc, Option.ite_none_right_eq_some, Option.some.injEq] at hs
    rw [← hs.2]
    exact h.moves_on (by rw [hc]; rfl) (by rw [hc]; rfl) (by rw [hc]; rfl)
  | entered id =>
    simp only [hc, Option.ite_none_left_eq_some, Option.some.injEq] at hs
    have hf := h.fails (c := c) (show (s.stage c).entryOf = some id by rw [hc]; rfl)
    rw [Function.update_eq_self_iff.2 (hclean id hc).symm] at hf
    rw [← hs.2]
    exact hf
  | _ => simp [hc] at hs

theorem respond_cases (pb : Protobuf T M) (controller : Controller) (o : OutCall T) (recvStr : Bytes)
    (hdr : ArpcHeader) :
    respond pb controller o recvStr hdr = .dropped hdr.id ∨
      (∃ m, respond pb controller o recvStr hdr = .answered hdr.id m o.done) ∨
      respond pb controller o recvStr hdr = .threw ∨
      respond pb controller o recvStr hdr = setFailed controller "parse response failed" := by
  cases ho : o.response with
  | none => exact .inl (respond_dropped ho)
  | some t =>
    by_cases hlt : recvStr.length < responseAt recvStr
    · exact .inr (.inr (.inl (respond_past ho hlt)))
    rw [respond_within ho (Nat.not_lt.1 hlt)]
    cases pb.parse t ((recvStr.drop (responseAt recvStr)).take hdr.argsSize.toNat) with
    | none => exact .inr (.inr (.inr rfl))
    | some m => exact .inr (.inl ⟨m, rfl⟩)

/-- What the thread does to the table, and how it may end then. -/
theorem receive_cases (pb : Protobuf T M) (controller : Controller) (calls : CallMap T) (r : ReadvResult) :
    ((receive pb controller calls r).1 = calls ∧ (∀ recvStr hdr, r = .ok recvStr → ¬ Takes pb calls recvStr hdr) ∧
      (((∃ errno, r = .err errno) ∧ (receive pb controller calls r).2 = .unreported) ∨
        (receive pb controller calls r).2 = .threw ∨ (receive pb controller calls r).2 = .ignored ∨
        ∃ text, (receive pb controller calls r).2 = setFailed controller text)) ∨
    ∃ recvStr hdr o, r = .ok recvStr ∧ Takes pb calls recvStr hdr ∧ calls hdr.id = some o ∧
      receive pb controller calls r = (Function.update calls hdr.id none, respond pb controller o recvStr hdr) := by
  cases r with
  | err errno =>
    refine .inl ⟨rfl, fun _ _ h => (by cases h), ?_⟩
    by_cases hn : controller = .null
    · exact .inl ⟨⟨errno, rfl⟩, if_pos hn⟩
    · exact .inr (.inr (.inr ⟨_, if_neg hn⟩))
  | ok recvStr =>
    by_cases h4 : recvStr.length < 4
    · rw [receive_short h4]
      refine .inl ⟨rfl, fun rs hdr h ht => ?_, .inr (.inl rfl)⟩
      cases h
      exact absurd ht.1 (by omega)
    have h4' := Nat.not_lt.1 h4
    cases hh : pb.parseHeader (headerStr recvStr) with
    | none =>
      rw [receive_no_header h4' hh]
      refine .inl ⟨rfl, fun rs hdr h ht => ?_, .inr (.inr (.inr ⟨_, rfl⟩))⟩
      cases h
      rw [ht.2.1] at hh
      cases hh
    | some hdr =>
      have huniq : ∀ hdr', Takes pb calls recvStr hdr' → hdr' = hdr := by
        intro hdr' ht
        exact Option.some.inj (ht.2.1.symm.trans hh)
      by_cases htype : hdr.type = .response
      · cases hc : calls hdr.id with
        | none =>
          rw [receive_no_call h4' hh htype hc]
          refine .inl ⟨rfl, fun rs hdr' h ht => ?_, .inr (.inr (.inr ⟨_, rfl⟩))⟩
          cases h
          exact ht.2.2.2 (huniq hdr' ht ▸ hc)
        | some o =>
          exact .inr ⟨recvStr, hdr, o, rfl, ⟨h4', hh, htype, by simp [hc]⟩, hc, receive_call h4' hh htype hc⟩
      · rw [receive_no_response h4' hh htype]
        refine .inl ⟨rfl, fun rs hdr' h ht => ?_, .inr (.inr (.inl rfl))⟩
        cases h
        exact htype (huniq hdr' ht ▸ ht.2.2.1)

/-- A controller that is used either gets the text, or everything is over. -/
theorem finish_setFailed {id : UInt32} {calls : CallMap T} {controller : Controller} {text : String}
    (hs : s.finish c id calls (setFailed controller text) = some t) :
    t = { s.setStage c (.failed (some id)) with calls := calls } ∧
      (setFailed controller text : Outcome M) = .reported text := by
  cases controller with
  | live => exact ⟨(Option.some.inj hs).symm, rfl⟩
  | null => cases hs
  | gone => cases hs

theorem recv_inv (h : Inv first s) {controller : Controller} {r : ReadvResult} {id : UInt32} (hc : s.stage c = .sent id)
    (hclean : Clean pb s (.recv c controller r))
    (hs : s.finish c id (receive pb controller s.calls r).1 (receive pb controller s.calls r).2 = some t) :
    Inv first t := by
  have hentry : (s.stage c).entryOf = some id := by rw [hc]; rfl
  have hover : Inv first (s.setStage c (.over id)) := h.moves_on (by rw [hc]; rfl) (by rw [hc]; rfl) (by rw [hc]; rfl)
  have hfails := h.fails hentry
  rcases receive_cases pb controller s.calls r with ⟨hcalls, hno, hout⟩ | ⟨recvStr, hdr, o, hr, ht, ho, heq⟩
  · rw [hcalls] at hs
    have hleft : s.calls id = none → Inv first { s.setStage c (.failed (some id)) with calls := s.calls } := by
      intro hn
      rwa [Function.update_eq_self_iff.2 hn.symm] at hfails
    rcases hout with ⟨⟨errno, hr⟩, hout⟩ | hout | hout | ⟨text, hout⟩
    · rw [hout] at hs
      cases hs
      subst hr
      exact hleft (hclean id hc)
    · rw [hout] at hs
      cases hs
    · rw [hout] at hs
      cases hs
      exact hover
    · rw [hout] at hs
      obtain ⟨rfl, htext⟩ := finish_setFailed hs
      apply hleft
      obtain ⟨-, ⟨errno, hr⟩ | ⟨recvStr, hr, href⟩⟩ := receive_reported.1 ⟨text, hout.trans htext⟩
      · subst hr
        exact hclean id hc
      · subst hr
        rcases hclean id hc href with ⟨hdr, ht, -⟩ | ⟨hn, -⟩
        · exact absurd ht (hno recvStr hdr rfl)
        · exact hn
  · rw [heq] at hs
    subst hr
    rcases respond_cases pb controller o recvStr hdr with hout | ⟨m, hout⟩ | hout | hout
    · simp only [hout, finish] at hs
      cases hs
      exact hover.completes (l := []) ho (fun e he => by cases he) List.nodup_nil
    · simp only [hout, finish] at hs
      cases hs
      cases hd : o.done with
      | none => exact hover.completes (l := []) ho (fun e he => by cases he) List.nodup_nil
      | some d =>
        refine hover.completes (l := [⟨d, hdr.id, m⟩]) ho (fun e he => ?_) (by simp)
        rw [List.mem_singleton.1 he]
        exact ⟨hd, rfl⟩
    · simp only [hout, finish] at hs
      cases hs
    · simp only [hout] at hs
      obtain ⟨rfl, htext⟩ := finish_setFailed hs
      have hrep : ∃ text, (receive pb controller s.calls (.ok recvStr)).2 = .reported text :=
        ⟨_, by rw [heq, hout, htext]⟩
      obtain ⟨-, ⟨errno, hr⟩ | ⟨rs, hr, href⟩⟩ := receive_reported.1 hrep
      · cases hr
      · cases hr
        rcases hclean id hc href with ⟨hdr', ht', hid⟩ | ⟨-, hn⟩
        · have : hdr' = hdr := Option.some.inj (ht'.2.1.symm.trans ht.2.1)
          subst this
          rw [hid]
          exact hfails
        · exact absurd ht (hn hdr)

theorem fetchAdd_inv (h : Inv first s) (hc : s.stage c = .idle) (hlt : s.started < 2 ^ 32) :
    Inv first { s.setStage c (.numbered s.id) with id := s.id + 1, started := s.started + 1 } := by
  refine ⟨?_, ?_, ?_⟩
  · show Ids first (s.id + 1) (s.started + 1) fun x => ((s.setStage c _).stage x).idOf
    rw [comp_setStage idOf]
    exact h.ids.fetchAdd hlt
  · show Entries s.calls s.completed fun x => ((s.setStage c _).stage x).entryOf
    rw [comp_setStage_eq entryOf (by rw [hc]; rfl)]
    exact h.entries
  · show Runs s.completed s.ran fun x => ((s.setStage c _).stage x).madeOf
    rw [comp_setStage_eq madeOf (by rw [hc]; rfl)]
    exact h.runs

theorem insert_inv (h : Inv first s) {id : UInt32} (hc : s.stage c = .numbered id) {o : OutCall T}
    (ho : ∀ d, o.done = some d → d = c) :
    Inv first { s.setStage c (.entered id) with calls := Function.update s.calls id (some o) } := by
  have hid : (s.stage c).idOf = some id := by rw [hc]; rfl
  have hmade : (s.stage c).madeOf = none := by rw [hc]; rfl
  have hentry : (s.stage c).entryOf = none := by rw [hc]; rfl
  -- The id is the call's own, so no other call has it, and none completed with it.
  have hfree : ∀ x, (s.stage x).entryOf ≠ some id := by
    intro x hx
    rw [h.entry_unique hid x hx, hentry] at hx
    cases hx
  have hnot : id ∉ s.completed := by
    intro hm
    obtain ⟨x, hx⟩ := h.runs.made id hm
    rw [h.ids.unique x c id (idOf_of_made hx) hid, hmade] at hx
    cases hx
  refine ⟨?_, ?_, ?_⟩
  · show Ids first s.id s.started fun x => ((s.setStage c _).stage x).idOf
    rw [comp_setStage_eq idOf (b := .entered id) hid.symm]
    exact h.ids
  · show Entries _ s.completed fun x => ((s.setStage c _).stage x).entryOf
    rw [comp_setStage entryOf]
    exact h.entries.insert hentry hfree hnot ho
  · show Runs s.completed s.ran fun x => ((s.setStage c _).stage x).madeOf
    rw [comp_setStage madeOf]
    refine h.runs.mono fun x i hx => ?_
    have hxc : x ≠ c := by
      intro he
      rw [he, hmade] at hx
      cases hx
    rw [Function.update_of_ne hxc]
    exact hx

theorem step_inv {op : CallOp T} (h : Inv first s) (hclean : Clean pb s op) (hs : step pb s op = some t)
    (hlt : t.started ≤ 2 ^ 32) : Inv first t := by
  cases op with
  | fail c why => exact fail_inv h hclean hs
  | fetchAdd c =>
    simp only [step] at hs
    split at hs
    · rename_i hc
      cases hs
      exact fetchAdd_inv h hc hlt
    · cases hs
  | insert c response done =>
    simp only [step] at hs
    split at hs
    · rename_i id hc
      cases hs
      refine insert_inv h hc fun d hd => ?_
      cases done with
      | true => exact (Option.some.inj hd).symm
      | false => cases hd
    · cases hs
  | send c =>
    simp only [step] at hs
    split at hs
    · rename_i id hc
      cases hs
      exact h.moves_on (by rw [hc]; rfl) (by rw [hc]; rfl) (by rw [hc]; rfl)
    · cases hs
  | recv c controller r =>
    simp only [step] at hs
    split at hs
    · rename_i id hc
      exact recv_inv h hc hclean hs
    · cases hs

theorem finish_started {id : UInt32} {calls : CallMap T} {out : Outcome M} (hs : s.finish c id calls out = some t) :
    t.started = s.started := by
  cases out <;> cases hs <;> rfl

theorem step_started {op : CallOp T} (hs : step pb s op = some t) : s.started ≤ t.started := by
  cases op with
  | fail c why =>
    simp only [step, fail] at hs
    split at hs <;> simp at hs
    · rw [← hs.2]
      exact Nat.le_refl _
    · rw [← hs.2]
      exact Nat.le_refl _
  | recv c controller r =>
    simp only [step] at hs
    split at hs
    · exact Nat.le_of_eq (finish_started hs).symm
    · cases hs
  | _ =>
    simp only [step] at hs
    split at hs <;> cases hs
    all_goals simp [setStage]

theorem run_inv {ops : List (CallOp T)} (hclean : Run.Along (step pb) (Clean pb) (init first) ops)
    (h : Run.run (step pb) (init first) ops = some s) (hlt : s.started ≤ 2 ^ 32) : Inv first s := by
  refine Run.run_along_invariant (fun s => s.started ≤ 2 ^ 32 → Inv first s) (fun s op t hi hc hs ht => ?_)
    (fun _ => init_inv first) hclean h hlt
  exact step_inv (hi (Nat.le_trans (step_started hs) ht)) hc hs ht

theorem Inv.exact (h : Inv first s) (id : UInt32) :
    s.calls id ≠ none ↔ ∃ c, (s.stage c).entryOf = some id ∧ id ∉ s.completed := by
  constructor
  · intro hne
    obtain ⟨o, ho⟩ := Option.ne_none_iff_exists'.1 hne
    obtain ⟨hn, c, hc, -⟩ := h.entries.owned id o ho
    exact ⟨c, hc, hn⟩
  · intro he
    obtain ⟨c, hc, hn⟩ := he
    exact h.entries.present c id hc hn

end

/-- **The table is exact while no call fails over its entry.** In every run of
fewer than 2^32 calls in which each failing call has no entry at that moment,
or loses it to its own thread: the table holds exactly the calls that made
their entry and neither completed nor failed; when no call is between its
entry and its `send`, these are the calls whose request was sent; a failed
call has left nothing in the table; and each `done` ran at most once, for a
response with the id of its call. -/
theorem run_exact {pb : Protobuf T M} {first : UInt32} {ops : List (CallOp T)} {s : ArpcChannel T M}
    (hclean : Run.Along (step pb) (Clean pb) (init first) ops) (h : Run.run (step pb) (init first) ops = some s)
    (hlt : s.started < 2 ^ 32) :
    (∀ id, s.calls id ≠ none ↔ ∃ c, (s.stage c).entryOf = some id ∧ id ∉ s.completed) ∧
      ((∀ c id, s.stage c ≠ .entered id) →
        ∀ id, s.calls id ≠ none ↔ ∃ c, (s.stage c).sentOf = some id ∧ id ∉ s.completed) ∧
      (∀ c id, s.stage c = .failed (some id) → s.calls id = none) ∧
      (s.ran.map DoneRun.call).Nodup ∧ ∀ e ∈ s.ran, (s.stage e.call).idOf = some e.id := by
  have hi := run_inv hclean h (Nat.le_of_lt hlt)
  refine ⟨hi.exact, fun hquiet id => ?_, fun c id hc => ?_, hi.runs.once, fun e he => ?_⟩
  · have hsent : ∀ c, (s.stage c).sentOf = (s.stage c).entryOf := by
      intro c
      cases hc : s.stage c with
      | entered i => exact absurd hc (hquiet c i)
      | _ => rfl
    simp only [hsent]
    exact hi.exact id
  · by_contra hne
    obtain ⟨x, hx, -⟩ := (hi.exact id).1 hne
    rw [hi.entry_unique (by rw [hc]; rfl) x hx, hc] at hx
    cases hx
  · exact CallStage.idOf_of_made (hi.runs.ran e he).2

/-- The first call of a channel, answered after it returned. -/
def loginOps : List (CallOp Unit) :=
  [.fetchAdd 0, .insert 0 (some ()) true, .send 0, .recv 0 .gone (.ok loginReply)]

theorem loginOps_clean : Run.Along (step loginProto) (Clean loginProto) (init 0) loginOps := by
  refine ⟨trivial, fun s₁ h₁ => ⟨trivial, fun s₂ h₂ => ⟨trivial, fun s₃ h₃ => ⟨?_, fun _ _ => trivial⟩⟩⟩⟩
  cases h₁
  cases h₂
  cases h₃
  intro id _ href
  -- A controller, if there were one, would hear nothing.
  obtain ⟨text, htext⟩ := receive_reported.2 ⟨rfl, .inr ⟨loginReply, rfl, href⟩⟩
  have hcross : Outcome.reported text = .answered 0 true (some 0) := htext.symm.trans (by decide)
  cases hcross

theorem run_exact_login :
    ∃ s : ArpcChannel Unit Bool, Run.run (step loginProto) (init 0) loginOps = some s ∧
      s.ran.map DoneRun.call = [0] ∧ s.completed = [0] ∧ s.calls 0 = none := by
  have hrun : (Run.run (step loginProto) (init 0) loginOps).map
      (fun s => (s.ran.map DoneRun.call, s.completed, s.started)) =
      some ([0], [0], 1) := by
    decide +kernel
  obtain ⟨s, hs, he⟩ := Option.map_eq_some_iff.1 hrun
  obtain ⟨hran, hdone, hcount⟩ : s.ran.map DoneRun.call = [0] ∧ s.completed = [0] ∧ s.started = 1 := by
    simpa using he
  refine ⟨s, hs, hran, hdone, ?_⟩
  obtain ⟨hexact, -⟩ := run_exact loginOps_clean hs (by rw [hcount]; decide)
  by_contra hne
  obtain ⟨c, -, hnot⟩ := (hexact 0).1 hne
  rw [hdone] at hnot
  exact hnot List.mem_cons_self

/-- `connect` fails: the call is over, and its entry stays. -/
theorem connect_fails :
    ∃ s : ArpcChannel Unit Bool,
      Run.run (step loginProto) (init 0) [.fetchAdd 0, .insert 0 (some ()) true, .fail 0 .connect] = some s ∧
        s.stage 0 = .failed (some 0) ∧ s.calls 0 ≠ none := by
  have hrun : (Run.run (step loginProto) (init 0) [.fetchAdd 0, .insert 0 (some ()) true, .fail 0 .connect]).map
      (fun s => (s.stage 0, (s.calls 0).isSome)) = some (.failed (some 0), true) := by
    decide +kernel
  obtain ⟨s, hs, he⟩ := Option.map_eq_some_iff.1 hrun
  rw [Prod.mk.injEq] at he
  refine ⟨s, hs, he.1, ?_⟩
  intro hn
  simp [hn] at he

end ArpcChannel

end Learncc
