/-
`arpc_server::on_message` (src/arpc/arpc_server.cc) behind
`tcp_connection::handle_read`: each time bytes arrive, the server takes one
frame from the input buffer, without asking whether a whole one is there.

`frames_iff`: it dispatches the frames of a connection in order, and retrieves
no more than is readable, exactly when the bytes come in as many deliveries as
there are frames, each frame complete by its own delivery.
-/
import Learncc.Arpc.Frame
import Learncc.Lib.Run
import Learncc.Mmuduo.Buffer

namespace Learncc

/-- `service_map_`, by names, and what the protobuf library answers: the
header in some bytes, and whether they parse as the request of a method. -/
structure ArpcServer where
  serviceMap : Bytes → Option (List Bytes)
  parseHeader : Bytes → Option ArpcHeader
  parseRequest : Bytes → Bytes → Bytes → Bool

/-- A call of `service->CallMethod`. -/
structure Dispatch where
  serviceName : Bytes
  methodName : Bytes
  id : UInt32
  args : Bytes
deriving Repr, DecidableEq

/-- A connection of the server. For each `retrieve_as_string` it is recorded
how much was asked for and how much was readable. -/
structure RpcConn where
  ibuf : Buffer
  retrieved : List (ℕ × ℕ)
  dispatched : List Dispatch
deriving Repr, DecidableEq

namespace RpcConn

def init : RpcConn := { ibuf := Buffer.new Buffer.initialSize, retrieved := [], dispatched := [] }

def retrieveAsString (c : RpcConn) (len : ℕ) : Bytes × RpcConn :=
  ((c.ibuf.retrieveAsString len).1,
    { c with
      ibuf := (c.ibuf.retrieveAsString len).2
      retrieved := c.retrieved ++ [(len, c.ibuf.readableBytes)] })

section

variable (srv : ArpcServer)

/-- The end of `on_message`, with the header and the arguments at hand. -/
def dispatch (c : RpcConn) (hdr : ArpcHeader) (args : Bytes) : RpcConn :=
  match srv.serviceMap hdr.serviceName with
  | none => c
  | some methods =>
    if hdr.methodName ∈ methods ∧ srv.parseRequest hdr.serviceName hdr.methodName args = true then
      { c with dispatched := c.dispatched ++ [⟨hdr.serviceName, hdr.methodName, hdr.id, args⟩] }
    else c

def onMessage (c : RpcConn) : RpcConn :=
  let (sizeStr, c) := c.retrieveAsString 4
  let (hdrStr, c) := c.retrieveAsString (ofLe32 sizeStr)
  match srv.parseHeader hdrStr with
  | none => c
  | some hdr =>
    let (argsStr, c) := c.retrieveAsString hdr.argsSize.toNat
    c.dispatch srv hdr argsStr

/-- `handle_read` with a delivery: some bytes, no more than `readv` was given
room for and a vector can hold. -/
def step (c : RpcConn) (data : Bytes) : Option RpcConn :=
  if data ≠ [] ∧ data.length ≤ c.ibuf.iovLen ∧ c.ibuf.Room data.length then
    some (onMessage srv { c with ibuf := (c.ibuf.readFd (.ok data)).2 })
  else none

end

/-- No retrieval asked for more than was readable. -/
def Within (c : RpcConn) : Prop := ∀ r ∈ c.retrieved, r.1 ≤ r.2

/-! ## One delivery -/

/-- `c'` is `c` after retrievals that found what they asked for; `q` is left. -/
structure Took (c c' : RpcConn) (q : Bytes) : Prop where
  inv : c'.ibuf.Inv
  readable : c'.ibuf.readable = q
  dispatched : c'.dispatched = c.dispatched
  retrieved : ∃ l, c'.retrieved = c.retrieved ++ l ∧ ∀ r ∈ l, r.1 ≤ r.2

theorem Took.refl {c : RpcConn} (h : c.ibuf.Inv) : Took c c c.ibuf.readable :=
  ⟨h, rfl, rfl, [], (List.append_nil _).symm, fun r hr => by cases hr⟩

/-- A retrieval of what is there. -/
theorem Took.retrieve {c c' : RpcConn} {p q : Bytes} (h : Took c c' (p ++ q)) :
    (c'.retrieveAsString p.length).1 = p ∧ Took c (c'.retrieveAsString p.length).2 q := by
  obtain ⟨hi, hr, hd, l, hl, hle⟩ := h
  have hlen := Buffer.readable_length hi
  have hp : p.length ≤ c'.ibuf.readableBytes := by
    rw [← hlen, hr, List.length_append]
    omega
  refine ⟨?_, Buffer.retrieve_inv hi _, ?_, hd, l ++ [(p.length, c'.ibuf.readableBytes)], ?_, fun r hm => ?_⟩
  · show (c'.ibuf.retrieveAsString p.length).1 = p
    rw [Buffer.retrieveAsString_fst hp, hr, List.take_left]
  · show (c'.ibuf.retrieve p.length).readable = q
    rw [Buffer.retrieve_readable hi, hr, List.drop_left]
  · show c'.retrieved ++ _ = _
    rw [hl, List.append_assoc]
  · rcases List.mem_append.1 hm with hm | hm
    · exact hle r hm
    · rw [List.mem_singleton.1 hm]
      exact hp

/-- A retrieval of more than is there. -/
theorem Took.exceeds {c c' : RpcConn} {q : Bytes} (h : Took c c' q) {len : ℕ} (hlen : q.length < len) :
    ∃ r ∈ (c'.retrieveAsString len).2.retrieved, r.2 < r.1 := by
  refine ⟨(len, c'.ibuf.readableBytes), List.mem_append_right _ List.mem_cons_self, ?_⟩
  show c'.ibuf.readableBytes < len
  rw [← Buffer.readable_length h.inv, h.readable]
  exact hlen

theorem retrieveAsString_mem {c : RpcConn} {len : ℕ} {r : ℕ × ℕ} (hr : r ∈ c.retrieved) :
    r ∈ (c.retrieveAsString len).2.retrieved := List.mem_append_left _ hr

section

variable {srv : ArpcServer}

@[simp] theorem dispatch_ibuf (c : RpcConn) (hdr : ArpcHeader) (args : Bytes) :
    (c.dispatch srv hdr args).ibuf = c.ibuf := by
  unfold dispatch
  split
  · rfl
  · split <;> rfl

@[simp] theorem dispatch_retrieved (c : RpcConn) (hdr : ArpcHeader) (args : Bytes) :
    (c.dispatch srv hdr args).retrieved = c.retrieved := by
  unfold dispatch
  split
  · rfl
  · split <;> rfl

/-- The server has the method, and the arguments parse as its request. -/
def Known (srv : ArpcServer) (d : Dispatch) : Prop :=
  ∃ methods, srv.serviceMap d.serviceName = some methods ∧ d.methodName ∈ methods ∧
    srv.parseRequest d.serviceName d.methodName d.args = true

/-- What a frame asks for. -/
def asked {parse : Bytes → Option ArpcHeader} (f : Framed parse) : Dispatch :=
  ⟨f.header.serviceName, f.header.methodName, f.header.id, f.args⟩

theorem dispatch_known {c : RpcConn} {f : Framed srv.parseHeader} (h : Known srv (asked f)) :
    (c.dispatch srv f.header f.args).dispatched = c.dispatched ++ [asked f] := by
  obtain ⟨methods, hm, hmem, hparse⟩ := h
  simp only [asked] at hm hmem hparse
  simp only [dispatch, hm, hmem, hparse, and_self, if_true, asked]

/-- Nothing else is dispatched. -/
theorem dispatch_cases (srv : ArpcServer) (c : RpcConn) (hdr : ArpcHeader) (args : Bytes) :
    (c.dispatch srv hdr args).dispatched = c.dispatched ∨
      Known srv ⟨hdr.serviceName, hdr.methodName, hdr.id, args⟩ ∧
        (c.dispatch srv hdr args).dispatched =
          c.dispatched ++ [⟨hdr.serviceName, hdr.methodName, hdr.id, args⟩] := by
  unfold dispatch
  split
  · exact .inl rfl
  · rename_i methods hm
    split
    · rename_i hx
      exact .inr ⟨⟨methods, hm, hx.1, hx.2⟩, rfl⟩
    · exact .inl rfl

/-- `on_message`, with the retrievals by name. -/
theorem onMessage_eq (c : RpcConn) : onMessage srv c =
    let c₁ := c.retrieveAsString 4
    let c₂ := c₁.2.retrieveAsString (ofLe32 c₁.1)
    match srv.parseHeader c₂.1 with
    | none => c₂.2
    | some hdr => (c₂.2.retrieveAsString hdr.argsSize.toNat).2.dispatch srv hdr
        (c₂.2.retrieveAsString hdr.argsSize.toNat).1 := rfl

/-- A whole frame at the front of the buffer is taken, and no more. -/
theorem onMessage_whole {c : RpcConn} (h : c.ibuf.Inv) (f : Framed srv.parseHeader) {rest : Bytes}
    (hr : c.ibuf.readable = f.bytes ++ rest) :
    ∃ c' : RpcConn, onMessage srv c = c'.dispatch srv f.header f.args ∧ Took c c' rest := by
  have hshort := f.short
  have h0 : Took c c (le32 f.headerBytes.length ++ (f.headerBytes ++ (f.args ++ rest))) := by
    have := Took.refl h
    rw [hr] at this
    simpa only [Framed.bytes, frame, List.append_assoc] using this
  obtain ⟨hs, h1⟩ := h0.retrieve
  obtain ⟨hh, h2⟩ := h1.retrieve
  obtain ⟨ha, h3⟩ := h2.retrieve
  have hsize : ofLe32 (c.retrieveAsString 4).1 = f.headerBytes.length := by
    rw [le32_length] at hs
    rw [hs]
    simpa using ofLe32_le32_append (n := f.headerBytes.length) (by omega) []
  rw [le32_length] at hh ha h3
  rw [onMessage_eq]
  simp only [hsize, hh, f.parses, f.size, ha]
  exact ⟨_, rfl, h3⟩

/-- What was recorded of the first two retrievals stays. -/
theorem onMessage_mem {c : RpcConn} {r : ℕ × ℕ}
    (hr : r ∈ ((c.retrieveAsString 4).2.retrieveAsString (ofLe32 (c.retrieveAsString 4).1)).2.retrieved) :
    r ∈ (onMessage srv c).retrieved := by
  rw [onMessage_eq]
  simp only
  split
  · exact hr
  · rw [dispatch_retrieved]
    exact retrieveAsString_mem hr

/-- The longer of two fronts of a string begins with the shorter. -/
theorem split_front {q rest a b : Bytes} (h : q ++ rest = a ++ b) (hle : a.length ≤ q.length) :
    ∃ q', q = a ++ q' ∧ q' ++ rest = b := by
  rcases List.append_eq_append_iff.1 h with ⟨c, rfl, hc⟩ | ⟨c, rfl, hc⟩
  · rw [List.length_append] at hle
    have hnil : c = [] := List.eq_nil_of_length_eq_zero (by omega)
    subst hnil
    exact ⟨[], by simp, hc⟩
  · exact ⟨c, rfl, hc.symm⟩

/-- From less than a whole frame more is taken than is there. -/
theorem onMessage_part {c : RpcConn} (h : c.ibuf.Inv) (f : Framed srv.parseHeader) {rest : Bytes} (hne : rest ≠ [])
    (hr : c.ibuf.readable ++ rest = f.bytes) : ∃ r ∈ (onMessage srv c).retrieved, r.2 < r.1 := by
  have hshort := f.short
  have hpos : 0 < rest.length := List.length_pos_of_ne_nil hne
  have h0 := Took.refl h
  generalize hq : c.ibuf.readable = q at hr h0
  by_cases h4 : q.length < 4
  · obtain ⟨r, hm, hlt⟩ := h0.exceeds h4
    exact ⟨r, onMessage_mem (retrieveAsString_mem hm), hlt⟩
  -- The length is there.
  rw [Framed.bytes, frame, List.append_assoc] at hr
  obtain ⟨q₁, rfl, hr₁⟩ := split_front hr (by rw [le32_length]; omega)
  obtain ⟨hs, h1⟩ := h0.retrieve
  have hsize : ofLe32 (c.retrieveAsString 4).1 = f.headerBytes.length := by
    rw [le32_length] at hs
    rw [hs]
    simpa using ofLe32_le32_append (n := f.headerBytes.length) (by omega) []
  rw [le32_length] at h1
  by_cases hh : q₁.length < f.headerBytes.length
  · obtain ⟨r, hm, hlt⟩ := h1.exceeds hh
    refine ⟨r, onMessage_mem ?_, hlt⟩
    rw [hsize]
    exact hm
  -- The header is there, so it is the arguments that are not.
  obtain ⟨q₂, rfl, hr₂⟩ := split_front hr₁ (by omega)
  obtain ⟨hstr, h2⟩ := h1.retrieve
  have hargs : q₂.length < f.args.length := by
    rw [← hr₂, List.length_append]
    omega
  obtain ⟨r, hm, hlt⟩ := h2.exceeds hargs
  refine ⟨r, ?_, hlt⟩
  rw [onMessage_eq]
  simp only [hsize, hstr, f.parses, f.size, dispatch_retrieved]
  exact hm

/-! ## All deliveries -/

/-- The frames, one after the other. -/
def stream (fs : List (Framed srv.parseHeader)) : Bytes := fs.flatMap Framed.bytes

/-- The deliveries are as many as the frames, and with what is there already
each frame is complete by its own. -/
def Paced (q : Bytes) (ds : List Bytes) (fs : List (Framed srv.parseHeader)) : Prop :=
  ds.length = fs.length ∧
    ∀ k ≤ fs.length, (stream (fs.take k)).length ≤ q.length + (ds.take k).flatten.length

theorem paced_cons {q d : Bytes} {ds : List Bytes} {f : Framed srv.parseHeader} {fs : List (Framed srv.parseHeader)}
    {q' : Bytes} (hq : q ++ d = f.bytes ++ q') : Paced q (d :: ds) (f :: fs) ↔ Paced q' ds fs := by
  have hlen : q.length + d.length = f.bytes.length + q'.length := by
    rw [← List.length_append, hq, List.length_append]
  unfold Paced
  constructor
  · intro he
    obtain ⟨hl, hk⟩ := he
    simp only [List.length_cons] at hl hk
    refine ⟨by omega, fun k hle => ?_⟩
    have := hk (k + 1) (by omega)
    simp only [List.take_succ_cons, stream, List.flatMap_cons, List.flatten_cons, List.length_append] at this ⊢
    omega
  · intro he
    obtain ⟨hl, hk⟩ := he
    simp only [List.length_cons]
    refine ⟨by omega, fun k hle => ?_⟩
    cases k with
    | zero => simp [stream]
    | succ k =>
      have := hk k (by omega)
      simp only [List.take_succ_cons, stream, List.flatMap_cons, List.flatten_cons, List.length_append] at this ⊢
      omega

/-- What a delivery adds. -/
structure Adds (srv : ArpcServer) (c c' : RpcConn) : Prop where
  retrieved : ∀ r ∈ c.retrieved, r ∈ c'.retrieved
  dispatched : ∃ l, c'.dispatched = c.dispatched ++ l ∧ ∀ d ∈ l, Known srv d

theorem Adds.retrieveAsString {c c' : RpcConn} {len : ℕ} (h : Adds srv (c.retrieveAsString len).2 c') : Adds srv c c' :=
  ⟨fun r hr => h.retrieved r (retrieveAsString_mem hr), h.dispatched⟩

theorem dispatch_adds (c : RpcConn) (hdr : ArpcHeader) (args : Bytes) : Adds srv c (c.dispatch srv hdr args) := by
  refine ⟨fun r hr => by rwa [dispatch_retrieved], ?_⟩
  rcases dispatch_cases srv c hdr args with he | ⟨hd, he⟩
  · exact ⟨[], by rw [he, List.append_nil], fun d hd => by cases hd⟩
  · refine ⟨_, he, fun e hm => ?_⟩
    rw [List.mem_singleton.1 hm]
    exact hd

theorem Adds.refl (c : RpcConn) : Adds srv c c :=
  ⟨fun r hr => hr, [], (List.append_nil _).symm, fun d hd => by cases hd⟩

theorem onMessage_adds (c : RpcConn) : Adds srv c (onMessage srv c) := by
  rw [onMessage_eq]
  simp only
  suffices h : Adds srv ((c.retrieveAsString 4).2.retrieveAsString (ofLe32 (c.retrieveAsString 4).1)).2 _ from
    h.retrieveAsString.retrieveAsString
  split
  · exact .refl _
  · exact Adds.retrieveAsString (dispatch_adds _ _ _)

/-- `handle_read` is `on_message` with the bytes in the buffer. -/
theorem step_cases {c c' : RpcConn} {d : Bytes} (hi : c.ibuf.Inv) (hs : c.step srv d = some c') :
    d ≠ [] ∧ ∃ c₀ : RpcConn, c' = onMessage srv c₀ ∧ c₀.ibuf.Inv ∧ c₀.ibuf.readable = c.ibuf.readable ++ d ∧
      c₀.retrieved = c.retrieved ∧ c₀.dispatched = c.dispatched := by
  unfold step at hs
  split at hs
  · rename_i hd
    obtain ⟨hi₁, hr₁⟩ := Buffer.readFd_spec hi hd.2.2
    exact ⟨hd.1, _, (Option.some.inj hs).symm, hi₁, hr₁, rfl, rfl⟩
  · cases hs

theorem step_adds {c c' : RpcConn} {d : Bytes} (hs : c.step srv d = some c') : Adds srv c c' := by
  unfold step at hs
  split at hs
  · rw [← Option.some.inj hs]
    have h : Adds srv { c with ibuf := (c.ibuf.readFd (.ok d)).2 } _ := onMessage_adds _
    exact ⟨h.retrieved, h.dispatched⟩
  · cases hs

theorem run_adds {ds : List Bytes} {c c' : RpcConn} (h : Run.run (step srv) c ds = some c') : Adds srv c c' := by
  refine Run.run_invariant (fun c' => Adds srv c c') (fun c₁ d c₂ h₁ hs => ?_) (.refl c) h
  obtain ⟨l₁, he₁, hk₁⟩ := h₁.dispatched
  obtain ⟨l₂, he₂, hk₂⟩ := (step_adds hs).dispatched
  refine ⟨fun r hr => (step_adds hs).retrieved r (h₁.retrieved r hr), l₁ ++ l₂, by rw [he₂, he₁, List.append_assoc],
    fun d hd => ?_⟩
  rcases List.mem_append.1 hd with hd | hd
  · exact hk₁ d hd
  · exact hk₂ d hd

/-- The deliveries from any point on; the induction is on the deliveries that
are left. -/
theorem run_iff : ∀ {ds : List Bytes} {fs : List (Framed srv.parseHeader)} {c c' : RpcConn}, c.ibuf.Inv → c.Within →
    c.ibuf.readable ++ ds.flatten = stream fs → Run.run (step srv) c ds = some c' →
    (c'.dispatched = c.dispatched ++ fs.map asked ∧ c'.Within ↔
      Paced c.ibuf.readable ds fs ∧ ∀ f ∈ fs, Known srv (asked f))
  | [], fs, c, c', hi, hw, hq, h => by
    simp only [Run.run_nil, Option.some.injEq] at h
    subst h
    constructor
    · intro he
      have hnil : fs = [] := by simpa using he.1
      subst hnil
      exact ⟨⟨rfl, fun k hk => by simp [stream]⟩, fun f hf => by cases hf⟩
    · intro he
      have hnil : fs = [] := List.eq_nil_of_length_eq_zero he.1.1.symm
      subst hnil
      exact ⟨by simp, hw⟩
  | d :: ds, [], c, c', hi, hw, hq, h => by
    obtain ⟨c₁, hs, -⟩ := Run.run_cons.1 h
    simp only [List.flatten_cons, stream, List.flatMap_nil, List.append_eq_nil_iff] at hq
    simp [step, hq.2.1] at hs
  | d :: ds, f :: fs, c, c', hi, hw, hq, h => by
    obtain ⟨c₁, hs, hrun⟩ := Run.run_cons.1 h
    obtain ⟨-, c₀, rfl, hi₀, hr₀, hret₀, hdis₀⟩ := step_cases hi hs
    obtain ⟨hret, l, hdis, hknown⟩ := run_adds hrun
    have hq' : c₀.ibuf.readable ++ ds.flatten = f.bytes ++ stream fs := by
      rw [hr₀, List.append_assoc]
      simpa [stream] using hq
    by_cases hlen : f.bytes.length ≤ c₀.ibuf.readable.length
    · -- The frame is complete, and taken.
      obtain ⟨rest, hrest, hnext⟩ := split_front hq' hlen
      obtain ⟨c₂, heq, ht⟩ := onMessage_whole hi₀ f hrest
      obtain ⟨k, hk, hkle⟩ := ht.retrieved
      rw [heq] at hrun hdis
      have hw₁ : (c₂.dispatch srv f.header f.args).Within := by
        intro r hr
        rw [dispatch_retrieved, hk, hret₀] at hr
        rcases List.mem_append.1 hr with hr | hr
        · exact hw r hr
        · exact hkle r hr
      have hi₁ : (c₂.dispatch srv f.header f.args).ibuf.Inv := by
        rw [dispatch_ibuf]
        exact ht.inv
      have hread : (c₂.dispatch srv f.header f.args).ibuf.readable = rest := by rw [dispatch_ibuf, ht.readable]
      have hnext' : (c₂.dispatch srv f.header f.args).ibuf.readable ++ ds.flatten = stream fs := by
        rw [hread]
        exact hnext
      have ih := run_iff hi₁ hw₁ hnext' hrun
      rw [hr₀] at hrest
      rw [hread] at ih
      rw [paced_cons hrest]
      by_cases hf : Known srv (asked f)
      · have hd₁ : (c₂.dispatch srv f.header f.args).dispatched = c.dispatched ++ [asked f] := by
          rw [dispatch_known hf, ht.dispatched, hdis₀]
        rw [hd₁, List.append_assoc] at ih
        simp only [List.map_cons, List.forall_mem_cons, hf, true_and]
        exact ih
      · -- What is dispatched later is known, so it is not this frame.
        constructor
        · intro he
          have hd₁ : (c₂.dispatch srv f.header f.args).dispatched = c.dispatched := by
            rcases dispatch_cases srv c₂ f.header f.args with hd | ⟨hk, -⟩
            · rw [hd, ht.dispatched, hdis₀]
            · exact absurd hk hf
          rw [hd₁, he.1] at hdis
          have hl : (f :: fs).map asked = l := List.append_cancel_left hdis
          exact absurd (hknown (asked f) (by rw [← hl]; exact List.mem_cons_self)) hf
        · intro he
          exact absurd (he.2 f List.mem_cons_self) hf
    · -- It is not, and more is taken than is there.
      have hpart : ∃ rest, rest ≠ [] ∧ c₀.ibuf.readable ++ rest = f.bytes := by
        rcases List.append_eq_append_iff.1 hq' with ⟨rest, hx, -⟩ | ⟨rest, hx, -⟩
        · refine ⟨rest, ?_, hx.symm⟩
          intro hnil
          subst hnil
          rw [hx, List.append_nil] at hlen
          exact hlen (Nat.le_refl _)
        · rw [hx, List.length_append] at hlen
          omega
      obtain ⟨rest, hne, hrest⟩ := hpart
      obtain ⟨r, hm, hlt⟩ := onMessage_part hi₀ f hne hrest
      constructor
      · intro he
        exact absurd (he.2 r (hret r hm)) (by omega)
      · intro he
        have hone := he.1.2 1 (by simp)
        rw [hr₀, List.length_append] at hlen
        simp only [List.take_succ_cons, List.take_zero, stream, List.flatMap_cons, List.flatMap_nil, List.append_nil,
          List.flatten_cons, List.flatten_nil] at hone
        omega

end

theorem init_inv : init.ibuf.Inv := Buffer.initial_inv

/-- **One frame for each delivery.** For every sequence of frames and every
way their bytes are split into deliveries, the server dispatches exactly the
frames, in order, and never retrieves more than is readable, if and only if
the deliveries are as many as the frames, the first `k` of them bring at least
the first `k` frames, and each frame is for a method the server has. -/
theorem frames_iff {srv : ArpcServer} {fs : List (Framed srv.parseHeader)} {ds : List Bytes} {c : RpcConn}
    (hsplit : ds.flatten = stream fs) (h : Run.run (step srv) init ds = some c) :
    c.dispatched = fs.map asked ∧ c.Within ↔
      ds.length = fs.length ∧ (∀ k ≤ fs.length, (stream (fs.take k)).length ≤ (ds.take k).flatten.length) ∧
        ∀ f ∈ fs, Known srv (asked f) := by
  have hempty : init.ibuf.readable = [] := Buffer.new_readable _
  have hsplit' : init.ibuf.readable ++ ds.flatten = stream fs := by
    rw [hempty]
    exact hsplit
  have hnone : init.dispatched = [] := rfl
  have hiff := run_iff init_inv (fun r hr => by cases hr) hsplit' h
  rw [hempty, hnone, List.nil_append] at hiff
  simpa only [Paced, List.length_nil, Nat.zero_add, and_assoc] using hiff

/-! ## The login service of the examples -/

def userService : Bytes := [117, 115, 101, 114, 95, 115, 101, 114, 118, 105, 99, 101]

def login : Bytes := [108, 111, 103, 105, 110]

/-- The header of the first call of a channel, with six bytes of arguments:
the type `REQUEST` and the id 0 are defaults, which protobuf leaves out. -/
def loginHeader : ArpcHeader :=
  { type := .request, id := 0, serviceName := userService, methodName := login, argsSize := 6 }

def loginHeaderBytes : Bytes := [26, 12] ++ userService ++ [34, 5] ++ login ++ [40, 6]

/-- The name `a` and the password `b`. -/
def loginArgs : Bytes := [10, 1, 97, 18, 1, 98]

def loginServer : ArpcServer :=
  { serviceMap := fun name => if name = userService then some [login] else none
    parseHeader := fun bs => if bs = loginHeaderBytes then some loginHeader else none
    parseRequest := fun _ _ args => decide (args = loginArgs) }

def loginFrame : Framed loginServer.parseHeader :=
  { header := loginHeader, headerBytes := loginHeaderBytes, args := loginArgs, short := by decide, parses := by decide,
    size := by decide }

theorem loginFrame_known : Known loginServer (asked loginFrame) := ⟨[login], by decide, by decide, by decide⟩

/-- Two calls, each in a delivery of its own. -/
theorem frames_iff_login :
    ∃ c, Run.run (step loginServer) init [loginFrame.bytes, loginFrame.bytes] = some c ∧
      c.dispatched = [asked loginFrame, asked loginFrame] ∧ c.Within := by
  have hsplit : [loginFrame.bytes, loginFrame.bytes].flatten = stream [loginFrame, loginFrame] := by decide +kernel
  have hsome : (Run.run (step loginServer) init [loginFrame.bytes, loginFrame.bytes]).isSome = true := by
    decide +kernel
  obtain ⟨c, hc⟩ := Option.isSome_iff_exists.1 hsome
  refine ⟨c, hc, (frames_iff hsplit hc).2 ⟨rfl, by decide +kernel, ?_⟩⟩
  intro f hf
  rw [(by simpa using hf : f = loginFrame)]
  exact loginFrame_known

/-- One call in two deliveries, cut after the length: the header is looked for
before it is there, and nothing is dispatched. -/
theorem cut_after_length :
    [loginFrame.bytes.take 4, loginFrame.bytes.drop 4].flatten = stream [loginFrame] ∧
      Known loginServer (asked loginFrame) ∧
      ∃ c, Run.run (step loginServer) init [loginFrame.bytes.take 4, loginFrame.bytes.drop 4] = some c ∧
        c.dispatched = [] ∧ ¬ c.Within := by
  have hrun : (Run.run (step loginServer) init [loginFrame.bytes.take 4, loginFrame.bytes.drop 4]).map
      (fun c => (c.dispatched, decide ((23, 0) ∈ c.retrieved))) = some ([], true) := by
    decide +kernel
  obtain ⟨c, hc, he⟩ := Option.map_eq_some_iff.1 hrun
  rw [Prod.mk.injEq, decide_eq_true_eq] at he
  refine ⟨by decide +kernel, loginFrame_known, c, hc, he.1, fun hw => ?_⟩
  exact absurd (hw _ he.2) (by decide)

end RpcConn

end Learncc
