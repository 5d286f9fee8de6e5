/-
A call from end to end: `arpc_channel::CallMethod` (src/arpc/arpc_channel.cc) in any
number of clients, `arpc_server::on_message` and `send_response`
(src/arpc/arpc_server.cc), and the socket that each call opens for itself.

The `done` that `on_message` makes holds a reference to the connection pointer that
`handle_read` has made for the call of `on_message`, so a service can run it only
before its `CallMethod` returns, in the loop's own thread.

`calls_answered`: where no request and no response is split on its way, a `done` runs
at most once, with what the service answered to the request of its own call, and a
call that came to its end has had it run.
-/
import Learncc.Arpc.CallTable
import Learncc.Arpc.Server

namespace Learncc

/-- What is registered with the server: the methods of each service, the types of their
messages, and what they may answer. -/
structure Services {T M : Type} (pb : Protobuf T M) where
  methods : Bytes → Option (List Bytes)
  requestType : Bytes → Bytes → T
  responseType : Bytes → Bytes → T
  serves : Bytes → Bytes → M → M → Bool
  typed : ∀ {serviceName methodName : Bytes} {request response : M},
    serves serviceName methodName request response = true → pb.typeOf response = responseType serviceName methodName

/-- What a caller gives `CallMethod`, through the stub of the method, which has its types:
`response` and `done` say whether the pointers are there. -/
structure RpcCall {T M : Type} {pb : Protobuf T M} (sv : Services pb) where
  serviceName : Bytes
  methodName : Bytes
  request : M
  response : Bool
  done : Bool
  typed : pb.typeOf request = sv.requestType serviceName methodName

namespace Rpc

variable {T M : Type} {pb : Protobuf T M} {sv : Services pb}

def server (sv : Services pb) : ArpcServer :=
  { serviceMap := sv.methods
    parseHeader := pb.parseHeader
    parseRequest := fun serviceName methodName args =>
      (pb.parse (sv.requestType serviceName methodName) args).isSome }

/-- `CallMethod`: what goes to the socket. -/
def sendRequest (r : RpcCall sv) (id : UInt32) : Option Bytes :=
  match pb.serialize r.request with
  | none => none
  | some argsStr =>
    let hdr : ArpcHeader :=
      { type := .request, id := id, serviceName := r.serviceName, methodName := r.methodName,
        argsSize := UInt32.ofNat argsStr.length }
    match pb.serializeHeader hdr with
    | none => none
    | some hdrStr => some (frame hdrStr argsStr)

/-- `out_call`. -/
def outCall (r : RpcCall sv) (c : ℕ) : OutCall T :=
  { response := if r.response then some (sv.responseType r.serviceName r.methodName) else none
    done := if r.done then some c else none }

/-- The socket of a call, with both ends: what is on its way, the server's connection, and the
requests that the service answered, with the answers. -/
structure Link (M : Type) where
  toServer : Bytes
  conn : RpcConn
  answers : List (Dispatch × M)
  connected : Bool
  toClient : Bytes

def Link.init : Link M :=
  { toServer := [], conn := .init, answers := [], connected := true, toClient := [] }

/-- The `done` that the server made for a request, run with the answer `m`: `send_response`,
which shuts the connection down. -/
def Link.answer (sv : Services pb) (l : Link M) (d : Dispatch) (m : M) : Option (Link M) :=
  match pb.parse (sv.requestType d.serviceName d.methodName) d.args with
  | none => none
  | some request =>
    if sv.serves d.serviceName d.methodName request m = true then
      some { l with
        answers := l.answers ++ [(d, m)]
        connected := false
        toClient := if l.connected then l.toClient ++ (sendResponse pb d.id m).getD [] else l.toClient }
    else none

/-- `handle_read` with the first `n` bytes. If `on_message` calls the service, that runs its
`done` with `m`, or never does. -/
def Link.deliver (sv : Services pb) (l : Link M) (n : ℕ) (m : Option M) : Option (Link M) :=
  (l.conn.step (server sv) (l.toServer.take n)).bind fun conn =>
    let l' := { l with toServer := l.toServer.drop n, conn := conn }
    match conn.dispatched.drop l.conn.dispatched.length, m with
    | d :: _, some m => l'.answer sv d m
    | _, _ => some l'

/-- One client: its channel, and the sockets of its calls. -/
structure Client (T M : Type) where
  channel : ArpcChannel T M
  link : ℕ → Link M

def Client.init (first : UInt32) : Client T M := { channel := .init first, link := fun _ => .init }

/-- What happens to a call, in its client, on its socket and at the server. -/
inductive Act (M : Type)
  | fail (why : Failure)
  | fetchAdd
  | insert
  | send
  | deliver (n : ℕ) (answer : Option M)
  | recv (controller : Controller) (n : ℕ)
  | recvFails (controller : Controller) (errno : Errno)

/-- Whether `CallMethod` can give up there. -/
def canFail (r : RpcCall sv) (stage : CallStage) : Failure → Bool
  | .serializeRequest => (pb.serialize r.request).isNone
  | .serializeHeader =>
    match stage.idOf with
    | none => false
    | some id => (sendRequest r id).isNone
  | .socket | .connect | .send => true

namespace Client

/-- A step of the call's own code, with the socket as it leaves it. -/
def own (pb : Protobuf T M) (s : Client T M) (c : ℕ) (op : CallOp T) (l : Link M) : Option (Client T M) :=
  (s.channel.step pb op).map fun channel => { channel := channel, link := Function.update s.link c l }

def send (r : RpcCall sv) (s : Client T M) (c : ℕ) : Option (Client T M) :=
  match (s.channel.stage c).idOf with
  | none => none
  | some id =>
    match sendRequest r id with
    | none => none
    | some str => own pb s c (.send c) { s.link c with toServer := str }

/-- `recv`, which answers nothing when the server has shut the connection down and all of
it was read. -/
def recv (pb : Protobuf T M) (s : Client T M) (c : ℕ) (controller : Controller) (n : ℕ) : Option (Client T M) :=
  let l := s.link c
  let str := l.toClient.take (min n recvBuf)
  if str ≠ [] ∨ l.toClient = [] ∧ l.connected = false then
    own pb s c (.recv c controller (.ok str)) { l with toClient := l.toClient.drop str.length }
  else none

def act (r : RpcCall sv) (s : Client T M) (c : ℕ) : Act M → Option (Client T M)
  | .fail why => if canFail r (s.channel.stage c) why then own pb s c (.fail c why) (s.link c) else none
  | .fetchAdd => if (pb.serialize r.request).isSome then own pb s c (.fetchAdd c) (s.link c) else none
  | .insert => own pb s c (.insert c (outCall r c).response r.done) (s.link c)
  | .send => send r s c
  | .deliver n m => ((s.link c).deliver sv n m).map fun l => { s with link := Function.update s.link c l }
  | .recv controller n => recv pb s c controller n
  | .recvFails controller errno => own pb s c (.recv c controller (.err errno)) (s.link c)

end Client

/-- All clients: what happens to one call of one of them. -/
def step {κ : Type} [DecidableEq κ] (calls : κ → ℕ → RpcCall sv) (s : κ → Client T M) (e : κ × ℕ × Act M) :
    Option (κ → Client T M) :=
  ((s e.1).act (calls e.1 e.2.1) e.2.1 e.2.2).map fun client => Function.update s e.1 client

/-- What is on its way arrives in one piece. -/
def Client.Whole (s : Client T M) (c : ℕ) : Act M → Prop
  | .deliver n _ => (s.link c).toServer.length ≤ n
  | .recv _ n => (s.link c).toClient.length ≤ min n recvBuf
  | .fail _ | .fetchAdd | .insert | .send | .recvFails .. => True

def Whole {κ : Type} (s : κ → Client T M) (e : κ × ℕ × Act M) : Prop := (s e.1).Whole e.2.1 e.2.2

/-! ## One socket -/

/-- The request of a call, as the server sees it. -/
def dispatchOf (r : RpcCall sv) (id : UInt32) (args : Bytes) : Dispatch := ⟨r.serviceName, r.methodName, id, args⟩

/-- A socket after the request was sent, after the server took it, and after the service
answered it. The response may be read already. -/
inductive Reached (r : RpcCall sv) (id : UInt32) : Link M → Prop
  | sent {str : Bytes} (hstr : sendRequest r id = some str) : Reached r id { Link.init with toServer := str }
  | taken {conn : RpcConn}
      (hconn : conn.dispatched = [] ∨
        ∃ args, pb.serialize r.request = some args ∧ conn.dispatched = [dispatchOf r id args]) :
      Reached r id { toServer := [], conn := conn, answers := [], connected := true, toClient := [] }
  | answered {conn : RpcConn} {args t : Bytes} {m : M} (hargs : pb.serialize r.request = some args)
      (hconn : conn.dispatched = [dispatchOf r id args])
      (hserves : sv.serves r.serviceName r.methodName r.request m = true)
      (hstr : t = [] ∨ sendResponse pb id m = some t) :
      Reached r id
        { toServer := [], conn := conn, answers := [(dispatchOf r id args, m)], connected := false, toClient := t }

section

variable {r : RpcCall sv} {id : UInt32} {l l' : Link M} {str : Bytes} {n : ℕ} {d : Dispatch} {m : M}

theorem sendRequest_framed (hpb : pb.Lawful) (h : sendRequest r id = some str) :
    ∃ f : Framed pb.parseHeader, str = f.bytes ∧ pb.serialize r.request = some f.args ∧
      RpcConn.asked f = dispatchOf r id f.args := by
  unfold sendRequest at h
  split at h
  · cases h
  rename_i argsStr hargs
  simp only at h
  split at h
  · cases h
  rename_i hdrStr hhdr
  have hlt := hpb.message_lt hargs
  refine ⟨⟨_, hdrStr, argsStr, hpb.header_lt hhdr, hpb.header hhdr, ?_⟩, (Option.some.inj h).symm, hargs, rfl⟩
  rw [UInt32.toNat_ofNat']
  exact Nat.mod_eq_of_lt (by omega)

/-- A new connection that gets one frame dispatches that, or nothing. -/
theorem step_frame {f : Framed pb.parseHeader} {conn : RpcConn}
    (hs : RpcConn.init.step (server sv) f.bytes = some conn) :
    conn.dispatched = [] ∨ conn.dispatched = [RpcConn.asked f] := by
  obtain ⟨-, c₀, rfl, hi, hreadable, -, hnone⟩ := RpcConn.step_cases RpcConn.init_inv hs
  have hread : c₀.ibuf.readable = f.bytes ++ [] := by
    rw [hreadable, List.append_nil]
    exact congrArg (· ++ f.bytes) (Buffer.new_readable _)
  obtain ⟨c₁, heq, htook⟩ := @RpcConn.onMessage_whole (server sv) _ hi f _ hread
  have hempty : c₁.dispatched = [] := htook.dispatched.trans hnone
  rw [heq]
  rcases RpcConn.dispatch_cases (server sv) c₁ f.header f.args with he | ⟨-, he⟩
  · exact .inl (he.trans hempty)
  · rw [hempty] at he
    exact .inr he

theorem deliver_nil {m : Option M} (h : l.toServer = []) : l.deliver sv n m = none := by
  simp [Link.deliver, h, RpcConn.step]

theorem answer_cases (hs : l.answer sv d m = some l') :
    ∃ request, pb.parse (sv.requestType d.serviceName d.methodName) d.args = some request ∧
      sv.serves d.serviceName d.methodName request m = true ∧
      l' = { l with
        answers := l.answers ++ [(d, m)]
        connected := false
        toClient := if l.connected then l.toClient ++ (sendResponse pb d.id m).getD [] else l.toClient } := by
  unfold Link.answer at hs
  split at hs
  · cases hs
  rename_i request hrequest
  by_cases hserves : sv.serves d.serviceName d.methodName request m = true
  · rw [if_pos hserves] at hs
    exact ⟨request, hrequest, hserves, (Option.some.inj hs).symm⟩
  · rw [if_neg hserves] at hs
    cases hs

/-- The service answers the request of the call. -/
theorem answer_taken (hpb : pb.Lawful) {conn : RpcConn} {args : Bytes} (hargs : pb.serialize r.request = some args)
    (hconn : conn.dispatched = [dispatchOf r id args])
    (hs : Link.answer sv { Link.init with conn := conn } (dispatchOf r id args) m = some l') : Reached r id l' := by
  -- What the service reads is what the caller wrote.
  have hparse : pb.parse (sv.requestType r.serviceName r.methodName) args = some r.request := by
    rw [← r.typed]
    exact hpb.message hargs
  obtain ⟨request, hrequest, hserves, rfl⟩ := answer_cases hs
  obtain rfl : r.request = request := Option.some.inj (hparse.symm.trans hrequest)
  refine .answered hargs hconn hserves ?_
  show (sendResponse pb id m).getD [] = [] ∨ sendResponse pb id m = some ((sendResponse pb id m).getD [])
  cases sendResponse pb id m with
  | none => exact .inl rfl
  | some str => exact .inr rfl

theorem Reached.deliver (hpb : pb.Lawful) (h : Reached r id l) {answer : Option M} (hwhole : l.toServer.length ≤ n)
    (hs : l.deliver sv n answer = some l') : Reached r id l' := by
  cases h with
  | sent hstr =>
    obtain ⟨f, rfl, hargs, hasked⟩ := sendRequest_framed hpb hstr
    obtain ⟨conn, hconn, hs⟩ := Option.bind_eq_some_iff.1 hs
    simp only [Link.init] at hwhole hconn
    rw [List.take_of_length_le hwhole] at hconn
    have hnone : RpcConn.init.dispatched = [] := rfl
    simp only [Link.init, List.drop_eq_nil_of_le hwhole, hnone, List.length_nil, List.drop_zero] at hs
    rcases step_frame hconn with he | he
    · rw [he] at hs
      cases hs
      exact .taken (.inl he)
    · have hdispatch : conn.dispatched = [dispatchOf r id f.args] := by rw [← hasked]; exact he
      rw [hdispatch] at hs
      cases answer with
      | none =>
        cases hs
        exact .taken (.inr ⟨f.args, hargs, hdispatch⟩)
      | some m => exact answer_taken hpb hargs hdispatch hs
  | taken | answered =>
    rw [deliver_nil rfl] at hs
    cases hs

/-- The thread of a call, with a whole response to it. -/
theorem receive_whole (hpb : pb.Lawful) {controller : Controller} {table : CallMap T} {c : ℕ}
    (hserves : sv.serves r.serviceName r.methodName r.request m = true) (hstr : sendResponse pb id m = some str)
    (htable : table id = some (outCall r c)) :
    receive pb controller table (.ok str) =
      (Function.update table id none,
        if r.response then .answered id m (if r.done then some c else none) else .dropped id) := by
  obtain ⟨f, rfl, htype, rfl, hm⟩ := sendResponse_framed hpb hstr
  have hlen := f.bytes_length
  have hall : f.bytes.take f.bytes.length = f.bytes := List.take_length
  have hheader : headerStr f.bytes = f.headerBytes := by
    rw [← hall]
    exact f.headerStr_take (by omega)
  have hat : responseAt f.bytes = 4 + f.headerBytes.length := by
    rw [← hall]
    exact f.responseAt_take (by omega)
  rw [receive_call (by omega) (by rw [hheader, f.parses]) htype htable]
  by_cases hresponse : r.response = true
  · have ho : (outCall r c).response = some (pb.typeOf m) := by rw [outCall, if_pos hresponse, sv.typed hserves]
    have hargs : (f.bytes.drop (4 + f.headerBytes.length)).take f.header.argsSize.toNat = f.args := by
      have := f.args_take (n := f.bytes.length)
      rw [hall] at this
      rw [this, f.size, hlen, Nat.add_sub_cancel_left, List.take_length, List.take_length]
    rw [if_pos hresponse, respond_within ho (by rw [hat]; omega), hat, hargs, hpb.message hm]
    rfl
  · have ho : (outCall r c).response = none := by rw [outCall, if_neg hresponse]
    rw [if_neg hresponse, respond_dropped ho]

end

/-! ## One client -/

/-- The id under which a call waits for its response. -/
def waitsOf : CallStage → Option UInt32
  | .entered id | .sent id => some id
  | .idle | .numbered _ | .over _ | .failed _ => none

theorem idOf_of_waits {stage : CallStage} {id : UInt32} (h : waitsOf stage = some id) : stage.idOf = some id := by
  cases stage with
  | entered | sent => exact h
  | idle | numbered | «over» | failed => cases h

/-- A socket goes with its call. -/
def LinkOk (r : RpcCall sv) (l : Link M) : CallStage → Prop
  | .idle | .numbered _ | .entered _ | .failed none => l = Link.init
  | .sent id | .over id => Reached r id l
  | .failed (some id) => l = Link.init ∨ Reached r id l

/-- The service answered the call with `m`, and its `done`, if it has one, ran with that. -/
def Closed (r : RpcCall sv) (c : ℕ) (ran : List (DoneRun M)) (l : Link M) (id : UInt32) : Prop :=
  ∃ args m, l.answers = [(dispatchOf r id args, m)] ∧ (r.response = true → r.done = true → ⟨c, id, m⟩ ∈ ran)

/-- What is true of a client whose calls are `calls`. -/
structure Client.Ok (calls : ℕ → RpcCall sv) (first : UInt32) (s : Client T M) : Prop where
  ids : ArpcChannel.Ids first s.channel.id s.channel.started fun c => (s.channel.stage c).idOf
  entry : ∀ c id, waitsOf (s.channel.stage c) = some id → s.channel.calls id = some (outCall (calls c) c)
  link : ∀ c, LinkOk (calls c) (s.link c) (s.channel.stage c)
  closed : ∀ c id, s.channel.stage c = .over id → Closed (calls c) c s.channel.ran (s.link c) id
  once : (s.channel.ran.map DoneRun.call).Nodup
  ran : ∀ e ∈ s.channel.ran, s.channel.stage e.call = .over e.id ∧ ∃ d, (s.link e.call).answers = [(d, e.response)]

namespace Client

variable {calls : ℕ → RpcCall sv} {first : UInt32} {s t : Client T M} {c : ℕ} {n : ℕ}

theorem init_ok (calls : ℕ → RpcCall sv) (first : UInt32) : (init first : Client T M).Ok calls first := by
  refine ⟨(ArpcChannel.init_inv (M := M) first).ids, fun c id h => ?_, fun c => rfl, fun c id h => ?_,
    List.nodup_nil, fun e he => ?_⟩
  · cases h
  · cases h
  · cases he

/-- A call moves on to `stage`, with its socket, and perhaps has its `done` run. -/
theorem Ok.move (h : s.Ok calls first) {channel : ArpcChannel T M} {l : Link M} {w : CallStage}
    (hstage : channel.stage = Function.update s.channel.stage c w)
    (hids : ArpcChannel.Ids first channel.id channel.started fun x => (channel.stage x).idOf)
    (hother : ∀ x id, x ≠ c → waitsOf (s.channel.stage x) = some id → channel.calls id = s.channel.calls id)
    (hentry : ∀ id, waitsOf w = some id → channel.calls id = some (outCall (calls c) c))
    (hlink : LinkOk (calls c) l w)
    (hclosed : ∀ id, w = .over id → Closed (calls c) c channel.ran l id)
    (hran : channel.ran = s.channel.ran ∨
      ∃ id d m, w = .over id ∧ l.answers = [(d, m)] ∧ channel.ran = ⟨c, id, m⟩ :: s.channel.ran)
    (hopen : ∀ id, s.channel.stage c ≠ .over id) :
    Ok calls first { channel := channel, link := Function.update s.link c l } := by
  have hself : channel.stage c = w := by rw [hstage, Function.update_self]
  have hold : ∀ x, x ≠ c → channel.stage x = s.channel.stage x := fun x hx => by
    rw [hstage, Function.update_of_ne hx]
  have hnot : ∀ e ∈ s.channel.ran, e.call ≠ c := fun e he hec => hopen e.id (hec ▸ (h.ran e he).1)
  have hgrow : ∀ e ∈ s.channel.ran, e ∈ channel.ran := by
    intro e he
    rcases hran with hsame | ⟨_, _, _, -, -, hmore⟩
    · rw [hsame]
      exact he
    · rw [hmore]
      exact List.mem_cons_of_mem _ he
  have hkeep : ∀ e ∈ s.channel.ran, channel.stage e.call = .over e.id ∧
      ∃ d, (Function.update s.link c l e.call).answers = [(d, e.response)] := by
    intro e he
    rw [hold _ (hnot e he), Function.update_of_ne (hnot e he)]
    exact h.ran e he
  refine ⟨hids, fun x id hx => ?_, fun x => ?_, fun x id hx => ?_, ?_, ?_⟩
  · by_cases hxc : x = c
    · subst hxc
      exact hentry id (hself ▸ hx)
    · have hx' : waitsOf (s.channel.stage x) = some id := hold x hxc ▸ hx
      show channel.calls id = _
      rw [hother x id hxc hx']
      exact h.entry x id hx'
  · show LinkOk (calls x) (Function.update s.link c l x) (channel.stage x)
    by_cases hxc : x = c
    · subst hxc
      rw [Function.update_self, hself]
      exact hlink
    · rw [Function.update_of_ne hxc, hold x hxc]
      exact h.link x
  · show Closed (calls x) x channel.ran (Function.update s.link c l x) id
    by_cases hxc : x = c
    · subst hxc
      rw [Function.update_self]
      exact hclosed id (hself ▸ hx)
    · rw [Function.update_of_ne hxc]
      obtain ⟨args, m, hanswer, hdone⟩ := h.closed x id (hold x hxc ▸ hx)
      exact ⟨args, m, hanswer, fun h₁ h₂ => hgrow _ (hdone h₁ h₂)⟩
  · rcases hran with hsame | ⟨id, _, m, -, -, hmore⟩
    · show (channel.ran.map DoneRun.call).Nodup
      rw [hsame]
      exact h.once
    · show (channel.ran.map DoneRun.call).Nodup
      rw [hmore, List.map_cons, List.nodup_cons]
      refine ⟨fun hmem => ?_, h.once⟩
      obtain ⟨e, he, hec⟩ := List.mem_map.1 hmem
      exact hnot e he hec
  · intro e he
    rcases hran with hsame | ⟨id, d, m, hover, hanswer, hmore⟩
    · exact hkeep e (hsame ▸ he)
    · have he' : e ∈ (⟨c, id, m⟩ : DoneRun M) :: s.channel.ran := hmore ▸ he
      rcases List.mem_cons.1 he' with rfl | he'
      · refine ⟨hself.trans hover, d, ?_⟩
        show (Function.update s.link c l c).answers = _
        rw [Function.update_self]
        exact hanswer
      · exact hkeep e he'

/-- What happens on a socket does not move its call. -/
theorem Ok.relink (h : s.Ok calls first) {l : Link M} (hlink : LinkOk (calls c) l (s.channel.stage c))
    (hanswers : (s.link c).answers ≠ [] → l.answers = (s.link c).answers) :
    Ok calls first { s with link := Function.update s.link c l } := by
  have hsame : ∀ x p, (s.link x).answers = [p] → (Function.update s.link c l x).answers = [p] := by
    intro x p hp
    by_cases hxc : x = c
    · subst hxc
      rw [Function.update_self, hanswers (by rw [hp]; simp), hp]
    · rw [Function.update_of_ne hxc, hp]
  refine ⟨h.ids, h.entry, fun x => ?_, fun x id hx => ?_, h.once, fun e he => ?_⟩
  · show LinkOk (calls x) (Function.update s.link c l x) (s.channel.stage x)
    by_cases hxc : x = c
    · subst hxc
      rw [Function.update_self]
      exact hlink
    · rw [Function.update_of_ne hxc]
      exact h.link x
  · obtain ⟨args, m, hanswer, hdone⟩ := h.closed x id hx
    exact ⟨args, m, hsame x _ hanswer, hdone⟩
  · obtain ⟨hstage, d, hd⟩ := h.ran e he
    exact ⟨hstage, d, hsame _ _ hd⟩

theorem Ok.deliver (hpb : pb.Lawful) (h : s.Ok calls first) {l : Link M} {m : Option M}
    (hwhole : (s.link c).toServer.length ≤ n) (hs : (s.link c).deliver sv n m = some l) :
    Ok calls first { s with link := Function.update s.link c l } := by
  have hreached : ∀ id, Reached (calls c) id (s.link c) → Reached (calls c) id l :=
    fun id hr => hr.deliver hpb hwhole hs
  have hsome : (s.link c).toServer ≠ [] := by
    intro he
    rw [deliver_nil he] at hs
    cases hs
  have hinit : s.link c ≠ Link.init := fun he => hsome (by rw [he]; rfl)
  -- Where the request is still on its way, nothing has been answered.
  have hnone : ∀ id, Reached (calls c) id (s.link c) → (s.link c).answers = [] := by
    intro id hr
    generalize s.link c = l₀ at hr hsome
    cases hr with
    | sent => rfl
    | taken | answered => exact absurd rfl hsome
  have hlink := h.link c
  have hstage : LinkOk (calls c) l (s.channel.stage c) ∧ (s.link c).answers = [] := by
    revert hlink
    cases s.channel.stage c with
    | idle | numbered | entered => exact fun hlink => absurd hlink hinit
    | sent id | «over» id => exact fun hlink => ⟨hreached id hlink, hnone id hlink⟩
    | failed id =>
      cases id with
      | none => exact fun hlink => absurd hlink hinit
      | some id =>
        intro hlink
        have hr := hlink.resolve_left hinit
        exact ⟨.inr (hreached id hr), hnone id hr⟩
  exact h.relink hstage.1 fun hx => absurd hstage.2 hx

theorem Ok.fail (h : s.Ok calls first) {channel : ArpcChannel T M} {why : Failure}
    (hs : s.channel.fail c why = some channel) :
    Ok calls first { channel := channel, link := Function.update s.link c (s.link c) } := by
  have hlink := h.link c
  have hmove : ∀ id, s.channel.stage c = .idle ∧ id = none ∨ (∃ i, s.channel.stage c = .entered i ∧ id = some i) →
      Ok calls first { channel := s.channel.setStage c (.failed id), link := Function.update s.link c (s.link c) } := by
    intro id hid
    refine h.move (w := .failed id) rfl ?_ (fun _ _ _ _ => rfl) (fun _ hw => by cases hw) ?_
      (fun _ hover => by cases hover) (.inl rfl) ?_
    · show ArpcChannel.Ids first s.channel.id s.channel.started _
      rw [ArpcChannel.comp_setStage_eq CallStage.idOf]
      · exact h.ids
      · rcases hid with ⟨hc, rfl⟩ | ⟨i, hc, rfl⟩
        · rw [hc]; rfl
        · rw [hc]; rfl
    · rcases hid with ⟨hc, rfl⟩ | ⟨i, hc, rfl⟩
      · rw [hc] at hlink
        exact hlink
      · rw [hc] at hlink
        exact .inl hlink
    · rcases hid with ⟨hc, -⟩ | ⟨i, hc, -⟩ <;> simp [hc]
  unfold ArpcChannel.fail at hs
  split at hs
  · rename_i hc
    split at hs <;> cases hs
    exact hmove none (.inl ⟨hc, rfl⟩)
  · rename_i id hc
    split at hs <;> cases hs
    exact hmove (some id) (.inr ⟨id, hc, rfl⟩)
  · cases hs

theorem Ok.fetchAdd (h : s.Ok calls first) {channel : ArpcChannel T M}
    (hs : ArpcChannel.step pb s.channel (.fetchAdd c) = some channel) (hlt : channel.started ≤ 2 ^ 32) :
    Ok calls first { channel := channel, link := Function.update s.link c (s.link c) } := by
  have hlink := h.link c
  simp only [ArpcChannel.step] at hs
  split at hs
  · rename_i hc
    cases hs
    rw [hc] at hlink
    refine h.move (w := .numbered s.channel.id) rfl ?_ (fun _ _ _ _ => rfl) (fun _ hw => by cases hw) hlink
      (fun _ hover => by cases hover) (.inl rfl) (by simp [hc])
    show ArpcChannel.Ids first (s.channel.id + 1) (s.channel.started + 1) _
    rw [ArpcChannel.comp_setStage CallStage.idOf]
    exact h.ids.fetchAdd hlt
  · cases hs

/-- Two calls that wait do so under different ids. -/
theorem Ok.ne_id (h : s.Ok calls first) {x : ℕ} {id i : UInt32} (hc : (s.channel.stage c).idOf = some id) (hx : x ≠ c)
    (hw : waitsOf (s.channel.stage x) = some i) : i ≠ id := by
  intro hi
  exact hx (h.ids.unique x c id (hi ▸ idOf_of_waits hw) hc)

theorem Ok.insert (h : s.Ok calls first) {channel : ArpcChannel T M}
    (hs : ArpcChannel.step pb s.channel (.insert c (outCall (calls c) c).response (calls c).done) = some channel) :
    Ok calls first { channel := channel, link := Function.update s.link c (s.link c) } := by
  have hlink := h.link c
  simp only [ArpcChannel.step] at hs
  split at hs
  · rename_i id hc
    cases hs
    have hid : (s.channel.stage c).idOf = some id := by rw [hc]; rfl
    rw [hc] at hlink
    refine h.move (w := .entered id) rfl ?_ (fun x i hx hw => ?_) (fun i hw => ?_) hlink
      (fun _ hover => by cases hover) (.inl rfl) (by simp [hc])
    · show ArpcChannel.Ids first s.channel.id s.channel.started _
      rw [ArpcChannel.comp_setStage_eq CallStage.idOf (b := .entered id) hid.symm]
      exact h.ids
    · exact Function.update_of_ne (h.ne_id hid hx hw) ..
    · cases hw
      exact Function.update_self ..
  · cases hs

theorem Ok.send (h : s.Ok calls first) (hs : send (calls c) s c = some t) : t.Ok calls first := by
  have hlink := h.link c
  unfold Client.send at hs
  split at hs
  · cases hs
  rename_i id hid
  split at hs
  · cases hs
  rename_i str hstr
  obtain ⟨channel, hchannel, rfl⟩ := Option.map_eq_some_iff.1 hs
  simp only [ArpcChannel.step] at hchannel
  split at hchannel
  · rename_i id' hc
    rw [hc] at hid hlink
    cases hid
    cases hchannel
    have hinit : s.link c = Link.init := hlink
    rw [hinit]
    refine h.move (w := .sent id) rfl ?_ (fun _ _ _ _ => rfl) (fun i hw => ?_) (.sent hstr)
      (fun _ hover => by cases hover) (.inl rfl) (by simp [hc])
    · show ArpcChannel.Ids first s.channel.id s.channel.started _
      rw [ArpcChannel.comp_setStage_eq CallStage.idOf (by rw [hc]; rfl)]
      exact h.ids
    · cases hw
      exact h.entry c id (by rw [hc]; rfl)
  · cases hchannel

/-- A response that takes the entry of its call. -/
theorem Ok.over (h : s.Ok calls first) {id : UInt32} {l : Link M} {completed : List UInt32} {ran : List (DoneRun M)}
    {args : Bytes} {m : M} (hc : s.channel.stage c = .sent id) (hlink : Reached (calls c) id l)
    (hanswer : l.answers = [(dispatchOf (calls c) id args, m)])
    (hran : ran =
      if (calls c).response = true ∧ (calls c).done = true then ⟨c, id, m⟩ :: s.channel.ran else s.channel.ran) :
    Ok calls first
      { channel := { s.channel.setStage c (.over id) with
          calls := Function.update s.channel.calls id none, completed := completed, ran := ran }
        link := Function.update s.link c l } := by
  have hid : (s.channel.stage c).idOf = some id := by rw [hc]; rfl
  refine h.move (w := .over id) rfl ?_ (fun x i hx hw => ?_) (fun _ hw => by cases hw) hlink (fun i hover => ?_) ?_
    (by simp [hc])
  · show ArpcChannel.Ids first s.channel.id s.channel.started fun x => ((s.channel.setStage c _).stage x).idOf
    rw [ArpcChannel.comp_setStage_eq CallStage.idOf (b := .over id) hid.symm]
    exact h.ids
  · exact Function.update_of_ne (h.ne_id hid hx hw) ..
  · cases hover
    refine ⟨args, m, hanswer, fun hresponse hdone => ?_⟩
    show _ ∈ ran
    rw [hran, if_pos ⟨hresponse, hdone⟩]
    exact List.mem_cons_self
  · show ran = _ ∨ _
    rw [hran]
    split
    · exact .inr ⟨id, _, m, rfl, hanswer, rfl⟩
    · exact .inl rfl

theorem Ok.recv (hpb : pb.Lawful) (h : s.Ok calls first) {controller : Controller}
    (hwhole : (s.link c).toClient.length ≤ min n recvBuf) (hs : recv pb s c controller n = some t) :
    t.Ok calls first := by
  have hlink := h.link c
  unfold Client.recv at hs
  simp only at hs
  split at hs
  · rename_i hcond
    obtain ⟨channel, hchannel, rfl⟩ := Option.map_eq_some_iff.1 hs
    simp only [ArpcChannel.step] at hchannel
    split at hchannel
    · rename_i id hc
      rw [hc] at hlink
      rw [List.take_of_length_le hwhole] at hcond hchannel ⊢
      generalize s.link c = l at hlink hcond hchannel ⊢
      cases hlink with
      | sent | taken => simp [Link.init] at hcond
      | answered hargs hconn hserves hstr =>
        rcases hstr with rfl | hstr
        · rw [receive_short (by simp)] at hchannel
          cases hchannel
        rw [receive_whole hpb hserves hstr (h.entry c id (by rw [hc]; rfl))] at hchannel
        have hreached := Reached.answered (t := []) hargs hconn hserves (.inl rfl)
        simp only [List.drop_length]
        by_cases hresponse : (calls c).response = true
        · rw [if_pos hresponse] at hchannel
          cases hchannel
          refine h.over hc hreached rfl ?_
          by_cases hdone : (calls c).done = true
          · simp [hresponse, hdone]
          · simp [hdone]
        · rw [if_neg hresponse] at hchannel
          cases hchannel
          exact h.over hc hreached rfl (if_neg fun hx => hresponse hx.1).symm
    · cases hchannel
  · cases hs

theorem Ok.recvFails (h : s.Ok calls first) {channel : ArpcChannel T M} {controller : Controller} {errno : Errno}
    (hs : ArpcChannel.step pb s.channel (.recv c controller (.err errno)) = some channel) :
    Ok calls first { channel := channel, link := Function.update s.link c (s.link c) } := by
  have hlink := h.link c
  simp only [ArpcChannel.step] at hs
  split at hs
  · rename_i id hc
    rw [hc] at hlink
    have hchannel : channel = { s.channel.setStage c (.failed (some id)) with calls := s.channel.calls } := by
      cases controller with
      | live | null => exact (Option.some.inj hs).symm
      | gone => cases hs
    subst hchannel
    refine h.move (w := .failed (some id)) rfl ?_ (fun _ _ _ _ => rfl) (fun _ hw => by cases hw) (.inr hlink)
      (fun _ hover => by cases hover) (.inl rfl) (by simp [hc])
    show ArpcChannel.Ids first s.channel.id s.channel.started fun x => ((s.channel.setStage c _).stage x).idOf
    rw [ArpcChannel.comp_setStage_eq CallStage.idOf (by rw [hc]; rfl)]
    exact h.ids
  · cases hs

theorem act_cases {r : RpcCall sv} {a : Act M} (hs : act r s c a = some t) :
    (∃ op l, own pb s c op l = some t) ∨ t.channel = s.channel := by
  cases a with
  | fail why =>
    simp only [act] at hs
    split at hs
    · exact .inl ⟨_, _, hs⟩
    · cases hs
  | fetchAdd =>
    simp only [act] at hs
    split at hs
    · exact .inl ⟨_, _, hs⟩
    · cases hs
  | insert | recvFails controller errno => exact .inl ⟨_, _, hs⟩
  | send =>
    simp only [act, Client.send] at hs
    split at hs
    · cases hs
    split at hs
    · cases hs
    exact .inl ⟨_, _, hs⟩
  | deliver n m =>
    obtain ⟨l, -, rfl⟩ := Option.map_eq_some_iff.1 hs
    exact .inr rfl
  | recv controller n =>
    simp only [act, Client.recv] at hs
    split at hs
    · exact .inl ⟨_, _, hs⟩
    · cases hs

theorem act_started {r : RpcCall sv} {a : Act M} (hs : act r s c a = some t) :
    s.channel.started ≤ t.channel.started := by
  rcases act_cases hs with ⟨op, l, hown⟩ | hsame
  · obtain ⟨channel, hchannel, rfl⟩ := Option.map_eq_some_iff.1 hown
    exact ArpcChannel.step_started hchannel
  · rw [hsame]

theorem act_ok (hpb : pb.Lawful) (h : s.Ok calls first) {a : Act M} (hwhole : s.Whole c a)
    (hs : act (calls c) s c a = some t) (hlt : t.channel.started ≤ 2 ^ 32) : t.Ok calls first := by
  cases a with
  | fail why =>
    simp only [act] at hs
    split at hs
    · obtain ⟨channel, hchannel, rfl⟩ := Option.map_eq_some_iff.1 hs
      exact h.fail hchannel
    · cases hs
  | fetchAdd =>
    simp only [act] at hs
    split at hs
    · obtain ⟨channel, hchannel, rfl⟩ := Option.map_eq_some_iff.1 hs
      exact h.fetchAdd hchannel hlt
    · cases hs
  | insert =>
    obtain ⟨channel, hchannel, rfl⟩ := Option.map_eq_some_iff.1 hs
    exact h.insert hchannel
  | send => exact h.send hs
  | deliver n m =>
    obtain ⟨l, hl, rfl⟩ := Option.map_eq_some_iff.1 hs
    exact h.deliver hpb hwhole hl
  | recv controller n => exact h.recv hpb hwhole hs
  | recvFails controller errno =>
    obtain ⟨channel, hchannel, rfl⟩ := Option.map_eq_some_iff.1 hs
    exact h.recvFails hchannel

end Client

/-! ## All clients -/

section

variable {κ : Type} [DecidableEq κ] {calls : κ → ℕ → RpcCall sv} {first : κ → UInt32} {s t : κ → Client T M}

def init (first : κ → UInt32) : κ → Client T M := fun k => .init (first k)

theorem step_ok (hpb : pb.Lawful) {e : κ × ℕ × Act M} (h : ∀ k, (s k).Ok (calls k) (first k)) (hwhole : Whole s e)
    (hs : step calls s e = some t) (hlt : ∀ k, (t k).channel.started ≤ 2 ^ 32) : ∀ k, (t k).Ok (calls k) (first k) := by
  obtain ⟨k', c, a⟩ := e
  obtain ⟨client, hclient, rfl⟩ := Option.map_eq_some_iff.1 hs
  intro k
  by_cases hk : k = k'
  · subst hk
    have hlt' := hlt k
    rw [Function.update_self] at hlt' ⊢
    exact Client.act_ok hpb (h k) hwhole hclient hlt'
  · rw [Function.update_of_ne hk]
    exact h k

theorem step_started {e : κ × ℕ × Act M} (hs : step calls s e = some t) (k : κ) :
    (s k).channel.started ≤ (t k).channel.started := by
  obtain ⟨client, hclient, rfl⟩ := Option.map_eq_some_iff.1 hs
  by_cases hk : k = e.1
  · subst hk
    rw [Function.update_self]
    exact Client.act_started hclient
  · rw [Function.update_of_ne hk]

theorem run_ok (hpb : pb.Lawful) {es : List (κ × ℕ × Act M)} (hwhole : Run.Along (step calls) Whole (init first) es)
    (h : Run.run (step calls) (init first) es = some s) (hlt : ∀ k, (s k).channel.started ≤ 2 ^ 32) :
    ∀ k, (s k).Ok (calls k) (first k) := by
  refine Run.run_along_invariant (fun s => (∀ k, (s k).channel.started ≤ 2 ^ 32) → ∀ k, (s k).Ok (calls k) (first k))
    (fun s e t hi hc hs ht => ?_) (fun _ k => Client.init_ok (calls k) (first k)) hwhole h hlt
  exact step_ok hpb (hi fun k => Nat.le_trans (step_started hs k) (ht k)) hc hs ht

/-- On a socket that goes with its call at most one request came to the service, and it
was that of the call. -/
theorem LinkOk.dispatched {r : RpcCall sv} {l : Link M} {stage : CallStage} (h : LinkOk r l stage) :
    l.conn.dispatched = [] ∨
      ∃ id args, pb.serialize r.request = some args ∧ l.conn.dispatched = [dispatchOf r id args] := by
  have hreached : ∀ id, Reached r id l → l.conn.dispatched = [] ∨
      ∃ id args, pb.serialize r.request = some args ∧ l.conn.dispatched = [dispatchOf r id args] := by
    intro id hr
    cases hr with
    | sent => exact .inl rfl
    | taken hconn =>
      rcases hconn with hconn | ⟨args, hargs, hconn⟩
      · exact .inl hconn
      · exact .inr ⟨id, args, hargs, hconn⟩
    | answered hargs hconn => exact .inr ⟨id, _, hargs, hconn⟩
  cases stage with
  | idle | numbered | entered => exact .inl (by rw [show l = Link.init from h]; rfl)
  | sent id | «over» id => exact hreached id h
  | failed id =>
    cases id with
    | none => exact .inl (by rw [show l = Link.init from h]; rfl)
    | some id =>
      rcases h with rfl | h
      · exact .inl rfl
      · exact hreached id h

/-- **What a `done` is run with.** Take any number of clients, any order of what happens
to their calls, and at most 2^32 calls of each, and let no request and no response be
split on its way; the service answers a request while it is called with it, or never. At most one request of each call comes to the service, that of the
call as its caller wrote it. No `done` runs twice, and each runs with the one answer that
the service gave to the request of its own call. A call that came to its end, with a
response to fill in and a `done`, has had it run. -/
theorem calls_answered (hpb : pb.Lawful) {es : List (κ × ℕ × Act M)}
    (hwhole : Run.Along (step calls) Whole (init first) es) (h : Run.run (step calls) (init first) es = some s)
    (hlt : ∀ k, (s k).channel.started ≤ 2 ^ 32) (k : κ) :
    (∀ c, ((s k).link c).conn.dispatched = [] ∨
        ∃ id args, pb.serialize (calls k c).request = some args ∧
          ((s k).link c).conn.dispatched = [dispatchOf (calls k c) id args]) ∧
      ((s k).channel.ran.map DoneRun.call).Nodup ∧
      (∀ e ∈ (s k).channel.ran,
        sv.serves (calls k e.call).serviceName (calls k e.call).methodName (calls k e.call).request e.response = true ∧
          ∃ args, pb.serialize (calls k e.call).request = some args ∧
            ((s k).link e.call).answers = [(dispatchOf (calls k e.call) e.id args, e.response)]) ∧
      ∀ c id, (s k).channel.stage c = .over id → (calls k c).response = true → (calls k c).done = true →
        ∃ e ∈ (s k).channel.ran, e.call = c := by
  have hok := run_ok hpb hwhole h hlt k
  refine ⟨fun c => (hok.link c).dispatched, hok.once, fun e he => ?_, fun c id hc hresponse hdone => ?_⟩
  · obtain ⟨hstage, d, hanswers⟩ := hok.ran e he
    have hlink := hok.link e.call
    rw [hstage] at hlink
    generalize (s k).link e.call = l at hanswers hlink ⊢
    cases hlink with
    | sent | taken => cases hanswers
    | answered hargs hconn hserves hstr =>
      cases hanswers
      exact ⟨hserves, _, hargs, rfl⟩
  · obtain ⟨args, m, -, hran⟩ := hok.closed c id hc
    exact ⟨_, hran hresponse hdone, rfl⟩

end

/-! ## Two clients of the login service -/

inductive LoginMessage
  | request
  | response
deriving DecidableEq

/-- The first call of a channel: the headers and the messages of both directions. -/
def loginWire : Protobuf Bool LoginMessage :=
  { serializeHeader := fun h =>
      if h = RpcConn.loginHeader then some RpcConn.loginHeaderBytes
      else if h = loginReplyHeader then some loginReplyHeaderBytes
      else none
    parseHeader := fun bs =>
      if bs = RpcConn.loginHeaderBytes then some RpcConn.loginHeader
      else if bs = loginReplyHeaderBytes then some loginReplyHeader
      else none
    typeOf := fun m => decide (m = .request)
    serialize := fun m => some (if m = .request then RpcConn.loginArgs else [16, 1])
    parse := fun t bs =>
      if t = true ∧ bs = RpcConn.loginArgs then some .request
      else if t = false ∧ bs = [16, 1] then some .response
      else none }

theorem loginWire_lawful : loginWire.Lawful := by
  have hheader : ∀ {h : ArpcHeader} {bs : Bytes}, loginWire.serializeHeader h = some bs →
      h = RpcConn.loginHeader ∧ bs = RpcConn.loginHeaderBytes ∨ h = loginReplyHeader ∧ bs = loginReplyHeaderBytes := by
    intro h bs hs
    simp only [loginWire] at hs
    split at hs
    · rename_i hh
      exact .inl ⟨hh, (Option.some.inj hs).symm⟩
    · split at hs
      · rename_i hh
        exact .inr ⟨hh, (Option.some.inj hs).symm⟩
      · cases hs
  refine ⟨fun hs => ?_, fun hs => ?_, fun {m bs} hs => ?_, fun {m bs} hs => ?_⟩
  · rcases hheader hs with ⟨rfl, rfl⟩ | ⟨rfl, rfl⟩ <;> decide
  · rcases hheader hs with ⟨rfl, rfl⟩ | ⟨rfl, rfl⟩ <;> decide
  · cases m <;> cases hs <;> decide
  · cases m <;> cases hs <;> decide

def loginServices : Services loginWire :=
  { methods := fun name => if name = RpcConn.userService then some [RpcConn.login] else none
    requestType := fun _ _ => true
    responseType := fun _ _ => false
    serves := fun _ _ m m' => decide (m = .request ∧ m' = .response)
    typed := fun h => by
      rw [decide_eq_true_eq] at h
      rw [h.2]
      rfl }

def loginCall : RpcCall loginServices :=
  { serviceName := RpcConn.userService, methodName := RpcConn.login, request := .request, response := true,
    done := true, typed := rfl }

/-- Two clients use the same id at the same time. -/
def loginActs : List (Bool × ℕ × Act LoginMessage) :=
  let both (a : Act LoginMessage) : List (Bool × ℕ × Act LoginMessage) := [(false, 0, a), (true, 0, a)]
  both .fetchAdd ++ both .insert ++ both .send ++ both (.deliver 33 (some .response)) ++ both (.recv .gone 1024)

instance (s : Client T M) (c : ℕ) : ∀ a : Act M, Decidable (s.Whole c a)
  | .deliver n _ => inferInstanceAs (Decidable ((s.link c).toServer.length ≤ n))
  | .recv _ n => inferInstanceAs (Decidable ((s.link c).toClient.length ≤ min n recvBuf))
  | .fail _ | .fetchAdd | .insert | .send | .recvFails .. => .isTrue trivial

instance {κ : Type} (s : κ → Client T M) (e : κ × ℕ × Act M) : Decidable (Whole s e) :=
  inferInstanceAs (Decidable ((s e.1).Whole e.2.1 e.2.2))

theorem calls_answered_login :
    ∃ s : Bool → Client Bool LoginMessage,
      Run.run (step fun _ _ => loginCall) (init fun _ => 0) loginActs = some s ∧
        ∀ k, ∃ e ∈ (s k).channel.ran, e.call = 0 ∧ e.response = .response := by
  have hrun : (Run.run (step fun _ _ => loginCall) (init fun _ => 0) loginActs).map
      (fun s => [false, true].map fun k => ((s k).channel.stage 0, (s k).channel.started)) =
      some [(.over 0, 1), (.over 0, 1)] := by
    decide +kernel
  obtain ⟨s, hs, he⟩ := Option.map_eq_some_iff.1 hrun
  have hstage : ∀ k, (s k).channel.stage 0 = .over 0 ∧ (s k).channel.started = 1 := by
    simp only [List.map_cons, List.map_nil, List.cons.injEq, Prod.mk.injEq, and_true] at he
    intro k
    cases k with
    | false => exact he.1
    | true => exact he.2
  refine ⟨s, hs, fun k => ?_⟩
  have hwhole : Run.Along (step fun _ _ => loginCall) Whole (init fun _ => 0) loginActs := by decide +kernel
  obtain ⟨-, -, hran, hover⟩ := calls_answered loginWire_lawful hwhole hs (fun k => by rw [(hstage k).2]; decide) k
  obtain ⟨e, he, hcall⟩ := hover 0 0 (hstage k).1 rfl rfl
  exact ⟨e, he, hcall, (of_decide_eq_true (hran e he).1).2⟩

end Rpc

end Learncc
