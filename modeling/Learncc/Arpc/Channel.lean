/-
The way back of a call: `arpc_server::send_response`
(src/arpc/arpc_server.cc) puts a response on the wire, and the thread that
`arpc_channel::CallMethod` starts (src/arpc/arpc_channel.cc) takes it off
again, with one `recv` into 1024 bytes.

`response_iff`: the response arrives as it was sent exactly when that `recv`
brings all of it, and what else arrives is reported to the controller exactly
in the cases named there.
-/
import Learncc.Arpc.Frame

namespace Learncc

/-- The protobuf library, for headers and for messages `M` of the types `T`. -/
structure Protobuf (T M : Type) where
  serializeHeader : ArpcHeader → Option Bytes
  parseHeader : Bytes → Option ArpcHeader
  typeOf : M → T
  serialize : M → Option Bytes
  parse : T → Bytes → Option M

/-- What the code relies on: parsing undoes serializing, and serializing
fails rather than give 2 GiB. -/
structure Protobuf.Lawful {T M : Type} (pb : Protobuf T M) : Prop where
  header : ∀ {h bs}, pb.serializeHeader h = some bs → pb.parseHeader bs = some h
  header_lt : ∀ {h bs}, pb.serializeHeader h = some bs → bs.length < 2 ^ 31
  message : ∀ {m bs}, pb.serialize m = some bs → pb.parse (pb.typeOf m) bs = some m
  message_lt : ∀ {m bs}, pb.serialize m = some bs → bs.length < 2 ^ 31

/-- `out_call`: the type of the object behind `response`, and `done`, named by
the call it came with. -/
structure OutCall (T : Type) where
  response : Option T
  done : Option ℕ
deriving Repr, DecidableEq

/-- The pointer `controller` as the thread finds it. The thread holds a
reference to the parameter of `CallMethod`, which is gone once that has
returned. -/
inductive Controller
  | live
  | null
  | gone
deriving Repr, DecidableEq

/-- How the thread ends. -/
inductive Outcome (M : Type)
  /-- The response of the call `id` was parsed, and its `done`, if any, ran. -/
  | answered (id : UInt32) (response : M) (ran : Option ℕ)
  /-- The call `id` has nowhere to put a response. -/
  | dropped (id : UInt32)
  /-- Not a response at all. -/
  | ignored
  /-- `controller->SetFailed(text)`. -/
  | reported (text : String)
  /-- A failed `recv`, without a controller. -/
  | unreported
  /-- `std::out_of_range` leaves the thread. -/
  | threw
  /-- A call through a `controller` that is null or gone. -/
  | undefined
deriving Repr, DecidableEq

/-- `std::string::substr`. -/
def substr (s : Bytes) (pos len : ℕ) : Option Bytes :=
  if s.length < pos then none else some ((s.drop pos).take len)

def setFailed {M : Type} (controller : Controller) (text : String) : Outcome M :=
  match controller with
  | .live => .reported text
  | .null => .undefined
  | .gone => .undefined

/-- `calls_`. -/
abbrev CallMap (T : Type) := UInt32 → Option (OutCall T)

/-- The size of `recv_buf`. -/
def recvBuf : ℕ := 1024

section

variable {T M : Type} (pb : Protobuf T M)

/-- `arpc_server::send_response`: what goes to the connection, if it comes to
that. -/
def sendResponse (id : UInt32) (response : M) : Option Bytes :=
  match pb.serialize response with
  | none => none
  | some responseStr =>
    let hdr : ArpcHeader :=
      { type := .response, id := id, serviceName := [], methodName := [], argsSize := UInt32.ofNat responseStr.length }
    match pb.serializeHeader hdr with
    | none => none
    | some hdrStr => some (frame hdrStr responseStr)

/-- `4 + recv_hdr_size`, a `uint32_t`. -/
def responseAt (recvStr : Bytes) : ℕ := (4 + ofLe32 recvStr) % UInt32.size

/-- The thread, with the entry it took from `calls_`. -/
def respond (controller : Controller) (o : OutCall T) (recvStr : Bytes) (hdr : ArpcHeader) : Outcome M :=
  match o.response with
  | none => .dropped hdr.id
  | some t =>
    match substr recvStr (responseAt recvStr) hdr.argsSize.toNat with
    | none => .threw
    | some responseStr =>
      match pb.parse t responseStr with
      | none => setFailed controller "parse response failed"
      | some m => .answered hdr.id m o.done

/-- The thread, with what `recv` answered: `calls_` afterwards, and how it
ends. -/
def receive (controller : Controller) (calls : CallMap T) : ReadvResult → CallMap T × Outcome M
  | .err errno =>
    (calls, if controller = .null then .unreported
      else setFailed controller ("recv failed, errno : " ++ toString errno))
  | .ok recvStr =>
    match substr recvStr 4 (ofLe32 recvStr) with
    | none => (calls, .threw)
    | some hdrStr =>
      match pb.parseHeader hdrStr with
      | none => (calls, setFailed controller "parse recv arpc header failed")
      | some hdr =>
        if hdr.type = .response then
          match calls hdr.id with
          | none => (calls, setFailed controller "rpc call not find")
          | some o => (Function.update calls hdr.id none, respond pb controller o recvStr hdr)
        else (calls, .ignored)

/-! ## What the thread does with the bytes -/

variable {pb}

theorem substr_of_le {s : Bytes} {pos len : ℕ} (h : pos ≤ s.length) : substr s pos len = some ((s.drop pos).take len) :=
  if_neg (by omega)

theorem substr_of_lt {s : Bytes} {pos len : ℕ} (h : s.length < pos) : substr s pos len = none := if_pos h

@[simp] theorem setFailed_ne_answered {controller : Controller} {text : String} {id : UInt32} {m : M} {ran : Option ℕ} :
    (setFailed controller text : Outcome M) ≠ .answered id m ran := by
  cases controller <;> simp [setFailed]

theorem setFailed_reported {controller : Controller} {text : String} :
    (∃ t, (setFailed controller text : Outcome M) = .reported t) ↔ controller = .live := by
  cases controller <;> simp [setFailed]

/-- The header's bytes, when the length is there. -/
def headerStr (recvStr : Bytes) : Bytes := (recvStr.drop 4).take (ofLe32 recvStr)

/-- Less than a length: `substr(4, ..)` throws. -/
theorem receive_short {controller : Controller} {calls : CallMap T} {recvStr : Bytes} (h : recvStr.length < 4) :
    receive pb controller calls (.ok recvStr) = (calls, .threw) := by
  simp only [receive, substr_of_lt h]

section

variable {controller : Controller} {calls : CallMap T} {recvStr : Bytes} {hdr : ArpcHeader} (h4 : 4 ≤ recvStr.length)

include h4

theorem receive_no_header (hh : pb.parseHeader (headerStr recvStr) = none) :
    receive pb controller calls (.ok recvStr) = (calls, setFailed controller "parse recv arpc header failed") := by
  rw [headerStr] at hh
  simp only [receive, substr_of_le h4, hh]

theorem receive_no_response (hh : pb.parseHeader (headerStr recvStr) = some hdr) (ht : hdr.type ≠ .response) :
    receive pb controller calls (.ok recvStr) = (calls, .ignored) := by
  rw [headerStr] at hh
  simp only [receive, substr_of_le h4, hh, if_neg ht]

theorem receive_no_call (hh : pb.parseHeader (headerStr recvStr) = some hdr) (ht : hdr.type = .response)
    (hc : calls hdr.id = none) :
    receive pb controller calls (.ok recvStr) = (calls, setFailed controller "rpc call not find") := by
  rw [headerStr] at hh
  simp only [receive, substr_of_le h4, hh, if_pos ht, hc]

theorem receive_call (hh : pb.parseHeader (headerStr recvStr) = some hdr) (ht : hdr.type = .response) {o : OutCall T}
    (hc : calls hdr.id = some o) :
    receive pb controller calls (.ok recvStr) =
      (Function.update calls hdr.id none, respond pb controller o recvStr hdr) := by
  rw [headerStr] at hh
  simp only [receive, substr_of_le h4, hh, if_pos ht, hc]

end

section

variable {controller : Controller} {o : OutCall T} {recvStr : Bytes} {hdr : ArpcHeader} {t : T}

theorem respond_dropped (ho : o.response = none) : respond pb controller o recvStr hdr = .dropped hdr.id := by
  unfold respond
  generalize responseAt recvStr = start
  rw [ho]

theorem respond_past (ho : o.response = some t) (h : recvStr.length < responseAt recvStr) :
    respond pb controller o recvStr hdr = .threw := by
  unfold respond
  generalize responseAt recvStr = start at h ⊢
  rw [substr_of_lt h, ho]

theorem respond_within (ho : o.response = some t) (h : responseAt recvStr ≤ recvStr.length) :
    respond pb controller o recvStr hdr =
      match pb.parse t ((recvStr.drop (responseAt recvStr)).take hdr.argsSize.toNat) with
      | none => setFailed controller "parse response failed"
      | some m => .answered hdr.id m o.done := by
  unfold respond
  generalize responseAt recvStr = start at h ⊢
  rw [substr_of_le h, ho]

theorem respond_answered {id : UInt32} {m : M} {ran : Option ℕ}
    (h : respond pb controller o recvStr hdr = .answered id m ran) : responseAt recvStr ≤ recvStr.length := by
  by_contra hlt
  cases ho : o.response with
  | none =>
    rw [respond_dropped ho] at h
    cases h
  | some t =>
    rw [respond_past ho (Nat.not_le.1 hlt)] at h
    cases h

end

/-- Nothing is answered from bytes that end before the response starts. -/
theorem receive_answered {controller : Controller} {calls : CallMap T} {recvStr : Bytes} {id : UInt32} {m : M}
    {ran : Option ℕ} (h : (receive pb controller calls (.ok recvStr)).2 = .answered id m ran) :
    4 ≤ recvStr.length ∧ responseAt recvStr ≤ recvStr.length := by
  by_cases h4 : recvStr.length < 4
  · rw [receive_short h4] at h
    cases h
  have h4' := Nat.not_lt.1 h4
  cases hh : pb.parseHeader (headerStr recvStr) with
  | none =>
    rw [receive_no_header h4' hh] at h
    exact absurd h setFailed_ne_answered
  | some hdr =>
    by_cases ht : hdr.type = .response
    · cases hc : calls hdr.id with
      | none =>
        rw [receive_no_call h4' hh ht hc] at h
        exact absurd h setFailed_ne_answered
      | some o =>
        rw [receive_call h4' hh ht hc] at h
        exact ⟨h4', respond_answered h⟩
    · rw [receive_no_response h4' hh ht] at h
      cases h

/-- The bytes reach beyond the header, and the response in them does not
parse, or one of the reasons before applies. -/
def Refused (pb : Protobuf T M) (calls : CallMap T) (recvStr : Bytes) : Prop :=
  4 ≤ recvStr.length ∧
    (pb.parseHeader (headerStr recvStr) = none ∨
      ∃ hdr, pb.parseHeader (headerStr recvStr) = some hdr ∧ hdr.type = .response ∧
        (calls hdr.id = none ∨
          ∃ o t, calls hdr.id = some o ∧ o.response = some t ∧ responseAt recvStr ≤ recvStr.length ∧
            pb.parse t ((recvStr.drop (responseAt recvStr)).take hdr.argsSize.toNat) = none))

theorem respond_reported {controller : Controller} {o : OutCall T} {recvStr : Bytes} {hdr : ArpcHeader} :
    (∃ text, respond pb controller o recvStr hdr = .reported text) ↔
      controller = .live ∧ ∃ t, o.response = some t ∧ responseAt recvStr ≤ recvStr.length ∧
        pb.parse t ((recvStr.drop (responseAt recvStr)).take hdr.argsSize.toNat) = none := by
  cases ho : o.response with
  | none =>
    rw [respond_dropped ho]
    simp
  | some t =>
    by_cases hlt : recvStr.length < responseAt recvStr
    · rw [respond_past ho hlt]
      simp [Nat.not_le.2 hlt]
    · have hle := Nat.not_lt.1 hlt
      rw [respond_within ho hle]
      cases hp : pb.parse t ((recvStr.drop (responseAt recvStr)).take hdr.argsSize.toNat) with
      | none => simp [setFailed_reported, hle, hp]
      | some m => simp [hp]

/-- When the thread reports a failure. -/
theorem receive_reported {controller : Controller} {calls : CallMap T} {r : ReadvResult} :
    (∃ text, (receive pb controller calls r).2 = .reported text) ↔
      controller = .live ∧ ((∃ errno, r = .err errno) ∨ ∃ recvStr, r = .ok recvStr ∧ Refused pb calls recvStr) := by
  cases r with
  | err errno => cases controller <;> simp [receive, setFailed]
  | ok recvStr =>
    simp only [reduceCtorEq, exists_false, false_or, ReadvResult.ok.injEq, exists_eq_left']
    by_cases h4 : recvStr.length < 4
    · have hno : ¬ Refused pb calls recvStr := fun hr => absurd hr.1 (by omega)
      simp [receive_short h4, hno]
    have h4' := Nat.not_lt.1 h4
    unfold Refused
    cases hh : pb.parseHeader (headerStr recvStr) with
    | none =>
      rw [receive_no_header h4' hh]
      simp [setFailed_reported, h4']
    | some hdr =>
      by_cases ht : hdr.type = .response
      · cases hc : calls hdr.id with
        | none =>
          rw [receive_no_call h4' hh ht hc]
          simp [setFailed_reported, ht, hc, h4']
        | some o =>
          rw [receive_call h4' hh ht hc, respond_reported]
          simp [ht, hc, h4']
      · rw [receive_no_response h4' hh ht]
        simp [ht]

/-! ## A response from the server -/

theorem sendResponse_framed (hpb : pb.Lawful) {id : UInt32} {m : M} {bs : Bytes} (h : sendResponse pb id m = some bs) :
    ∃ f : Framed pb.parseHeader,
      bs = f.bytes ∧ f.header.type = .response ∧ f.header.id = id ∧ pb.serialize m = some f.args := by
  unfold sendResponse at h
  split at h
  · cases h
  rename_i responseStr hm
  simp only at h
  split at h
  · cases h
  rename_i hdrStr hh
  rw [Option.some.injEq] at h
  have hlt := hpb.message_lt hm
  refine ⟨⟨_, hdrStr, responseStr, hpb.header_lt hh, hpb.header hh, ?_⟩, h.symm, rfl, rfl, hm⟩
  rw [UInt32.toNat_ofNat']
  exact Nat.mod_eq_of_lt (by omega)

namespace Framed

variable (f : Framed pb.parseHeader) {n : ℕ}

theorem responseAt_take (hn : 4 ≤ n) : responseAt (f.bytes.take n) = 4 + f.headerBytes.length := by
  have hshort := f.short
  have hlen := f.ofLe32_bytes []
  rw [List.append_nil] at hlen
  rw [responseAt, ofLe32_take hn, hlen]
  exact Nat.mod_eq_of_lt (by unfold UInt32.size; omega)

/-- A front of the frame that has the header has it where it is looked for. -/
theorem headerStr_take (hn : 4 + f.headerBytes.length ≤ n) : headerStr (f.bytes.take n) = f.headerBytes := by
  have hlen := f.ofLe32_bytes []
  have hdrop := f.drop_four []
  rw [List.append_nil] at hlen hdrop
  rw [List.append_nil] at hdrop
  rw [headerStr, ofLe32_take (by omega), hlen, List.drop_take, hdrop, List.take_take, Nat.min_eq_left (by omega),
    List.take_left]

/-- What is there of the arguments. -/
theorem args_take :
    (f.bytes.take n).drop (4 + f.headerBytes.length) = f.args.take (n - (4 + f.headerBytes.length)) := by
  have hdrop : f.bytes.drop (4 + f.headerBytes.length) = f.args := by
    rw [bytes, frame]
    exact List.drop_left' (by rw [List.length_append, le32_length])
  rw [List.drop_take, hdrop]

/-- What the thread makes of a front of a response. -/
theorem receive_take {controller : Controller} {calls : CallMap T} {t : T} {m : M} {d : ℕ}
    (ht : f.header.type = .response) (hc : calls f.header.id = some ⟨some t, some d⟩) (hn : n ≤ f.bytes.length) :
    (receive pb controller calls (.ok (f.bytes.take n))).2 = .answered f.header.id m (some d) ↔
      4 + f.headerBytes.length ≤ n ∧ pb.parse t (f.args.take (n - (4 + f.headerBytes.length))) = some m := by
  have hlen : (f.bytes.take n).length = n := by rw [List.length_take]; omega
  by_cases hlt : n < 4 + f.headerBytes.length
  · -- The header is cut off: the response would start past the end.
    have hno : (receive pb controller calls (.ok (f.bytes.take n))).2 ≠ .answered f.header.id m (some d) := by
      intro he
      obtain ⟨h4, hat⟩ := receive_answered he
      rw [hlen] at h4 hat
      rw [f.responseAt_take h4] at hat
      omega
    exact ⟨fun he => absurd he hno, fun he => absurd he.1 (by omega)⟩
  have hle := Nat.not_lt.1 hlt
  have hargs : (f.args.take (n - (4 + f.headerBytes.length))).take f.header.argsSize.toNat =
      f.args.take (n - (4 + f.headerBytes.length)) := by
    have := f.bytes_length
    rw [f.size, List.take_take, Nat.min_eq_right (by omega)]
  rw [receive_call (by omega) (by rw [f.headerStr_take hle, f.parses]) ht hc,
    respond_within rfl (by rw [f.responseAt_take (by omega)]; omega), f.responseAt_take (by omega), f.args_take,
    hargs]
  cases hp : pb.parse t (f.args.take (n - (4 + f.headerBytes.length))) with
  | none => simp
  | some m' => simp [hle]

end Framed

/-- **One `recv` decides.** Of a response that the server sends, any front of
at most 1024 bytes may be what `recv` brings. The message reaches the caller
and `done` runs if and only if that is all of it (or the rest of the arguments
does not matter to the message, which is nothing the protobuf format allows).
For whatever `recv` answers, a failure is reported if and only if the
controller can still be used and `recv` failed, or the bytes hold a length and
are refused: their header does not parse, or it is the header of a response to
no call, or of a response that starts inside the bytes and does not parse. -/
theorem response_iff (hpb : pb.Lawful) (controller : Controller) (calls : CallMap T) :
    (∀ id m d bs n, sendResponse pb id m = some bs → calls id = some ⟨some (pb.typeOf m), some d⟩ →
      0 < n → n ≤ recvBuf → n ≤ bs.length →
      ((receive pb controller calls (.ok (bs.take n))).2 = .answered id m (some d) ↔
        n = bs.length ∨ ∃ args, pb.serialize m = some args ∧ bs.length - args.length ≤ n ∧
          pb.parse (pb.typeOf m) (args.take (n - (bs.length - args.length))) = some m)) ∧
      ∀ r, (∃ text, (receive pb controller calls r).2 = .reported text) ↔
        controller = .live ∧ ((∃ errno, r = .err errno) ∨ ∃ recvStr, r = .ok recvStr ∧ Refused pb calls recvStr) := by
  refine ⟨fun id m d bs n hs hc _ _ hn => ?_, fun r => receive_reported⟩
  obtain ⟨f, rfl, ht, rfl, hm⟩ := sendResponse_framed hpb hs
  have hsub : f.bytes.length - f.args.length = 4 + f.headerBytes.length := by
    rw [f.bytes_length]
    omega
  rw [f.receive_take ht hc hn]
  constructor
  · intro he
    refine .inr ⟨f.args, hm, ?_⟩
    rw [hsub]
    exact he
  · intro he
    rcases he with rfl | ⟨args, ha, he⟩
    · have hlen := f.bytes_length
      refine ⟨by omega, ?_⟩
      rw [List.take_of_length_le (by omega)]
      exact hpb.message hm
    · rw [hm, Option.some.injEq] at ha
      subst ha
      rw [hsub] at he
      exact he

end

/-! ## The login service of the examples -/

/-- The header of the response to the first call of a channel, with two bytes
of arguments. -/
def loginReplyHeader : ArpcHeader :=
  { type := .response, id := 0, serviceName := [], methodName := [], argsSize := 2 }

def loginReplyHeaderBytes : Bytes := [8, 1, 40, 2]

/-- No bytes at all parse as a header with every field at its default. -/
def noHeader : ArpcHeader := { type := .request, id := 0, serviceName := [], methodName := [], argsSize := 0 }

/-- A `login_response` with no `result`, which is its field `sucess`. -/
def loginProto : Protobuf Unit Bool :=
  { serializeHeader := fun h => if h = loginReplyHeader then some loginReplyHeaderBytes else none
    parseHeader := fun bs =>
      if bs = loginReplyHeaderBytes then some loginReplyHeader else if bs = [] then some noHeader else none
    typeOf := fun _ => ()
    serialize := fun sucess => some (if sucess then [16, 1] else [])
    parse := fun _ bs => if bs = [16, 1] then some true else if bs = [] then some false else none }

theorem loginProto_lawful : loginProto.Lawful := by
  refine ⟨fun {h bs} hs => ?_, fun {h bs} hs => ?_, fun {m bs} hs => ?_, fun {m bs} hs => ?_⟩
  · simp only [loginProto, Option.ite_none_right_eq_some, Option.some.injEq] at hs ⊢
    rw [hs.1, ← hs.2]
    simp
  · simp only [loginProto, Option.ite_none_right_eq_some, Option.some.injEq] at hs
    rw [← hs.2]
    decide
  · cases m <;> cases hs <;> decide
  · cases m <;> cases hs <;> decide

/-- The table with the first call in it. -/
def loginCalls : CallMap Unit := fun id => if id = 0 then some ⟨some (), some 0⟩ else none

def loginReply : Bytes := frame loginReplyHeaderBytes [16, 1]

/-- The whole reply in one `recv`, after `CallMethod` has returned; and a
failed `recv` while it has not. -/
theorem response_iff_login :
    sendResponse loginProto 0 true = some loginReply ∧
      (receive loginProto .gone loginCalls (.ok (loginReply.take 10))).2 = .answered 0 true (some 0) ∧
      ∃ text, (receive loginProto .live loginCalls (.err ECONNRESET)).2 = .reported text := by
  have hsend : sendResponse loginProto 0 true = some loginReply := by decide
  refine ⟨hsend, ?_, ?_⟩
  · exact ((response_iff loginProto_lawful .gone loginCalls).1 0 true 0 loginReply 10 hsend (by decide) (by decide)
      (by decide) (by decide)).2 (.inl (by decide))
  · exact ((response_iff loginProto_lawful .live loginCalls).2 (.err ECONNRESET)).2 ⟨rfl, .inl ⟨_, rfl⟩⟩

/-- When `recv` brings the length alone, the thread ends without a word, and
when the peer has closed, it throws. -/
theorem early_close :
    sendResponse loginProto 0 true = some loginReply ∧
      (receive loginProto .live loginCalls (.ok (loginReply.take 4))).2 = .ignored ∧
      (receive loginProto .live loginCalls (.ok [])).2 = .threw := by
  refine ⟨by decide, by decide, by decide⟩

end Learncc
