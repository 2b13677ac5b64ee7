import UvCpp.Systems.Duplex
import UvCpp.Http.HttpServer
import UvCpp.Http.HttpClient
import UvCpp.Http.Completed

/-!
# A request and its answer

An `HttpClient` and an `HttpServer`, and the connection between them. The client writes its request
when the connection stands, the server parses what has come of it every time something arrives and
writes the answer when it is whole, and the client parses what has come of the answer in the same
way. When the answer is written the server closes the connection.

What is written arrives in chunks cut anywhere, and what arrives on one side arrives whenever it does
on the other. Still the server's callback is called once, with the request that was sent, and the
client's callback is told of nothing but the answer that was given (`exchange`). It is told once of
an answer without a `Content-Length`, when the connection is closed, and twice of one that has it.
Unless the connection has failed, every run can be led on to that end (`Stage.ends`).
-/

namespace UvCpp.Http

open UvCpp.Cpp UvCpp.Buffer UvCpp.Systems

/-! ### Responses in parts -/

namespace Response

/-- The content of a response is whole by its `Content-Length`; or there is none, and the end of the
connection is the end of the content. -/
def Framed (r : Response) : Prop :=
  (r.heads_[bytes "Content-Length"]? = some (numeral 10 r.content_.length) ∧ r.content_.length < 2 ^ 31) ∨
    (r.contentLength = none ∧ r.heads_[bytes "Transfer-Encoding"]? ≠ some (bytes "chunked"))

instance (r : Response) : Decidable r.Framed := inferInstanceAs (Decidable (_ ∨ _))

/-- A response that can be sent to the client. -/
structure Sendable (r : Response) : Prop extends Headed r where
  /-- The end of the content can be told. -/
  framed : r.Framed
  /-- There is room for it in the buffer of the client. -/
  room : (pack r).length < 2 ^ 32

variable {r : Response}

theorem Sendable.unpack_pack (h : Sendable r) : unpack new (pack r) = .ok (.Success, r) := by
  rw [pack, Message.pack_eq]
  exact h.unpack_head r.content_

/-- Whether a part of the content counts as the whole. -/
theorem Sendable.unpackAndCompleted_head (h : Sendable r) (content : Bytes) :
    unpackAndCompleted new (r.head (firstLine r.line) ++ content) =
      .ok (if r.contentLength.isSome ∧ content.length = r.content_.length then .Success else .Fail,
        { r with content_ := content }) := by
  have hunpack := h.unpack_head content
  obtain ⟨hlen, hsmall⟩ | ⟨hnone, hchunked⟩ := h.framed
  · have hvalue : Message.contentLength { r with content_ := content } = some (numeral 10 r.content_.length) := by
      rw [Message.contentLength, hlen]
    have hvalue' : r.contentLength = some (numeral 10 r.content_.length) := hvalue
    rw [unpackAndCompleted_of_length hunpack hvalue, hvalue', measured,
      stoi_numeral (by decide) (by decide) hsmall]
    simp only [toUInt64_natCast, Option.isSome_some, true_and, eq_comm]
  · have hnone' : Message.contentLength { r with content_ := content } = none := hnone
    rw [unpackAndCompleted_of_none hunpack hnone', if_neg hchunked, hnone]
    simp

/-- **A response with a length is whole when its last byte has come**; one without is not. -/
theorem Sendable.unpackAndCompleted_pack (h : Sendable r) :
    unpackAndCompleted new (pack r) = .ok (if r.contentLength.isSome then .Success else .Fail, r) := by
  have hwhole := h.unpackAndCompleted_head r.content_
  simp only [and_true] at hwhole
  rwa [← Message.pack_eq] at hwhole

/-- **Before that it is neither whole nor an error.** -/
theorem Sendable.unpackAndCompleted_of_isPrefix (h : Sendable r) {data : Bytes} (hdata : data <+: pack r)
    (hne : data ≠ pack r) : ∃ resp, unpackAndCompleted new data = .ok (.Fail, resp) := by
  have hpack : pack r = r.head (firstLine r.line) ++ r.content_ := Message.pack_eq (firstLine r.line) r
  by_cases hlt : data.length < (r.head (firstLine r.line)).length
  · exact ⟨new, unpackAndCompleted_of_ne (h.unpack_of_isPrefix (hpack ▸ hdata) hlt) (by decide)⟩
  · -- the head is whole, the content is not
    obtain ⟨t, ht⟩ := hdata
    obtain ⟨content, rfl⟩ : r.head (firstLine r.line) <+: data :=
      List.prefix_of_prefix_length_le (hpack ▸ List.prefix_append _ _) (ht ▸ List.prefix_append data t)
        (by omega)
    rw [hpack, List.append_assoc, List.append_cancel_left_eq] at ht
    have hlt : content.length ≠ r.content_.length := by
      rintro heq
      apply hne
      rw [hpack, ← List.IsPrefix.eq_of_length ⟨t, ht⟩ heq]
    exact ⟨_, by rw [h.unpackAndCompleted_head content, if_neg fun hwhole => hlt hwhole.2]⟩

end Response

/-! ### The two parties -/

namespace Exchange

open HttpClient (Action)

/-- The client, and what has become of it. -/
structure Caller (μ : Type) where
  /-- The client. -/
  client : HttpClient μ
  /-- The last status its connection has reported. -/
  status : Option ConnectStatus
  /-- The calls to its callback. -/
  called : List (Action μ)

/-- The server, as far as this connection goes. -/
structure Answerer (κ β : Type) where
  /-- The packet buffer of the connection. -/
  packetbuf : Option β
  /-- The requests that have been handled. -/
  dispatched : List (Dispatch κ)

variable {κ μ β : Type} [PacketBuffer β]

/-- What an action writes. -/
def written : Action μ → Bytes
  | .write str => str
  | .call _ _ _ => []

/-- What the client does about an event. -/
def Caller.handle (x : Caller μ) (e : HttpClient.Event) : Exec (Caller μ × Bytes) := do
  let (client, actions) ← x.client.handle e
  let status := match e with
    | .status status => some status
    | .message _ => x.status
  .ok (⟨client, status, x.called ++ actions.filter Action.isCall⟩, actions.flatMap written)

/-- What the server does about received bytes. -/
def Answerer.receive (s : HttpServer κ) (call : κ → Request → Response → Response) (x : Answerer κ β)
    (data : Bytes) : Exec (Answerer κ β × Bytes) := do
  let (packetbuf, d) ← s.onMesage call x.packetbuf data
  .ok (⟨packetbuf, x.dispatched ++ d.toList⟩, d.toList.flatMap Dispatch.respData)

/-- The client on the left, and the server on the right. -/
def parties (s : HttpServer κ) (call : κ → Request → Response → Response) :
    Parties (Caller μ) (Answerer κ β) ConnectStatus UInt8 where
  receiveLeft x data := x.handle (.message data)
  receiveRight := Answerer.receive s call
  act x status := x.handle (.status status)

/-- A connection fails, or stands until the server has answered, and the client is told of its end
when it has received all. -/
def Allows (d : Duplex (Caller μ) (Answerer κ β) UInt8) (e : Duplex.Event ConnectStatus) : Prop :=
  d.Arrives e ∧ match e with
    | .toRight _ => d.left.status = some .OnConnectSuccess
    | .toLeft _ => d.left.status = some .OnConnectSuccess
    | .act .OnConnectSuccess => d.left.status = none
    | .act .OnConnnectFail => d.left.status = none
    | .act .OnConnnectClose =>
      d.left.status = some .OnConnectSuccess ∧ d.right.dispatched ≠ [] ∧ d.toLeft = []

/-- The beginning: `Req` has been called, and the server has an empty buffer for the connection. -/
def start (c : HttpClient μ) (callback : μ) (req : Request) (b : β) :
    Duplex (Caller μ) (Answerer κ β) UInt8 :=
  ⟨⟨(c.setOnResp (some callback)).Req req, none, []⟩, ⟨some b, []⟩, [], []⟩

variable {s : HttpServer κ} {call : κ → Request → Response → Response}

theorem act_eq {x : Caller μ} {status : ConnectStatus} {client : HttpClient μ} {actions : List (Action μ)}
    (h : x.client.handle (.status status) = .ok (client, actions)) :
    (parties s call : Parties (Caller μ) (Answerer κ β) ConnectStatus UInt8).act x status =
      .ok (⟨client, some status, x.called ++ actions.filter Action.isCall⟩, actions.flatMap written) := by
  simp only [parties, Caller.handle, h]
  rfl

theorem receiveLeft_eq {x : Caller μ} {data : Bytes} {client : HttpClient μ} {actions : List (Action μ)}
    (h : x.client.handle (.message data) = .ok (client, actions)) :
    (parties s call : Parties (Caller μ) (Answerer κ β) ConnectStatus UInt8).receiveLeft x data =
      .ok (⟨client, x.status, x.called ++ actions.filter Action.isCall⟩, actions.flatMap written) := by
  simp only [parties, Caller.handle, h]
  rfl

theorem receiveRight_eq {x : Answerer κ β} {data : Bytes} {packetbuf : Option β} {d : Option (Dispatch κ)}
    (h : s.onMesage call x.packetbuf data = .ok (packetbuf, d)) :
    (parties s call : Parties (Caller μ) (Answerer κ β) ConnectStatus UInt8).receiveRight x data =
      .ok (⟨packetbuf, x.dispatched ++ d.toList⟩, d.toList.flatMap Dispatch.respData) := by
  simp only [parties, Answerer.receive, h]
  rfl

/-- A status is kept. -/
theorem status_of_act {status : ConnectStatus} {x y : Duplex (Caller μ) (Answerer κ β) UInt8}
    (h : x.step (parties s call) (.act status) = .ok y) : y.left.status = some status := by
  rw [Duplex.step, Exec.bind_eq_ok_iff] at h
  obtain ⟨⟨left, out⟩, hact, hy⟩ := h
  obtain ⟨⟨client, actions⟩, -, hleft⟩ := Exec.bind_eq_ok_iff.mp hact
  cases hleft
  cases hy
  rfl

/-- The status stays what it was when something arrives. -/
theorem status_of_toLeft {n : ℕ} {x y : Duplex (Caller μ) (Answerer κ β) UInt8}
    (h : x.step (parties s call) (.toLeft n) = .ok y) : y.left.status = x.left.status := by
  rw [Duplex.step, Exec.bind_eq_ok_iff] at h
  obtain ⟨⟨left, out⟩, hreceive, hy⟩ := h
  obtain ⟨⟨client, actions⟩, -, hleft⟩ := Exec.bind_eq_ok_iff.mp hreceive
  cases hleft
  cases hy
  rfl

open LawfulPacketBuffer

/-- The answer, reported. -/
def answer (callback : μ) (resp : Response) : Action μ := .call callback .Success (some resp)

/-- What the client has been told when all has arrived. -/
def reports (callback : μ) (resp : Response) : List (Action μ) :=
  if resp.contentLength.isSome then [answer callback resp] else []

/-- How far an exchange has come: `req` is the request, `d` is how it is handled, `resp` the answer. -/
inductive Stage [LawfulPacketBuffer β] (callback : μ) (req : Request) (d : Dispatch κ) (resp : Response) :
    Duplex (Caller μ) (Answerer κ β) UInt8 → Prop where
  /-- The client waits for the connection. -/
  | waiting {c : HttpClient μ} {b : β} : c.callback_ = some callback → c.req_ = req → c.buffer_ = [] →
      Valid b → contents b = [] → Stage callback req d resp ⟨⟨c, none, []⟩, ⟨some b, []⟩, [], []⟩
  /-- The connection has failed. -/
  | failed {c : HttpClient μ} {b : β} : Stage callback req d resp
      ⟨⟨c, some .OnConnnectFail, [.call callback .ConnectFail none]⟩, ⟨some b, []⟩, [], []⟩
  /-- A part of the request, but not all, has arrived. -/
  | asking {c : HttpClient μ} {b : β} {toRight : Bytes} : c.callback_ = some callback → c.buffer_ = [] →
      Valid b → contents b ++ toRight = req.pack → toRight ≠ [] →
      Stage callback req d resp ⟨⟨c, some .OnConnectSuccess, []⟩, ⟨some b, []⟩, toRight, []⟩
  /-- A part of the answer, but not all, has arrived. -/
  | answering {c : HttpClient μ} {b : β} {toLeft : Bytes} : c.callback_ = some callback → Valid b →
      c.buffer_ ++ toLeft = resp.pack → toLeft ≠ [] →
      Stage callback req d resp ⟨⟨c, some .OnConnectSuccess, []⟩, ⟨some b, [d]⟩, [], toLeft⟩
  /-- All has arrived. -/
  | answered {c : HttpClient μ} {b : β} : c.callback_ = some callback → c.buffer_ = resp.pack →
      Stage callback req d resp
        ⟨⟨c, some .OnConnectSuccess, reports callback resp⟩, ⟨some b, [d]⟩, [], []⟩
  /-- The connection is closed. -/
  | closed {c : HttpClient μ} {b : β} : Stage callback req d resp
      ⟨⟨c, some .OnConnnectClose, reports callback resp ++ [answer callback resp]⟩, ⟨some b, [d]⟩, [], []⟩

variable [LawfulPacketBuffer β] {callback : μ} {req : Request} {d : Dispatch κ} {resp : Response}

theorem Stage.start (c : HttpClient μ) {b : β} (hb : Valid b) (hnil : contents b = []) :
    Stage callback req d resp (start c callback req b : Duplex (Caller μ) (Answerer κ β) UInt8) :=
  .waiting rfl rfl rfl hb hnil

/-- Received bytes on the client's side: the answer is reported when it is whole and has a length. -/
theorem handle_message {c : HttpClient μ} {chunk rest : Bytes} (hresp : resp.Sendable)
    (hcallback : c.callback_ = some callback) (h : c.buffer_ ++ (chunk ++ rest) = resp.pack) :
    ∃ c', c'.callback_ = some callback ∧ c'.buffer_ = c.buffer_ ++ chunk ∧
      c.handle (.message chunk) = .ok (c', if rest = [] then reports callback resp else []) := by
  have hroom := hresp.room
  rw [← h, List.length_append, List.length_append] at hroom
  have heq := HttpClient.onMessage_eq (c := c) (by omega) chunk
  rw [if_pos (by omega)] at heq
  refine ⟨{ c with buffer_ := c.buffer_ ++ chunk }, hcallback, rfl, ?_⟩
  rw [HttpClient.handle, heq]
  by_cases hrest : rest = []
  · subst hrest
    rw [List.append_nil] at h
    rw [h, hresp.unpackAndCompleted_pack, if_pos rfl, reports]
    by_cases hlength : resp.contentLength.isSome = true
    · simp [hlength, HttpClient.onResp, hcallback, answer]
    · simp [hlength]
  · have hne : c.buffer_ ++ chunk ≠ resp.pack := by
      intro hpack
      rw [← List.append_assoc, ← hpack, List.append_right_eq_self] at h
      exact hrest h
    have hpre : c.buffer_ ++ chunk <+: resp.pack := ⟨rest, by rw [List.append_assoc, h]⟩
    obtain ⟨resp', hfail⟩ := hresp.unpackAndCompleted_of_isPrefix hpre hne
    simp [hfail, hrest]

/-- The end of the connection: what has come is read once more, and reported. -/
theorem handle_close {c : HttpClient μ} (hresp : resp.Sendable) (hcallback : c.callback_ = some callback)
    (h : c.buffer_ = resp.pack) : ∃ c', c.handle (.status .OnConnnectClose) = .ok (c', [answer callback resp]) := by
  rw [HttpClient.handle, HttpClient.onConnectStatus, h, hresp.unpack_pack]
  simp [HttpClient.onResp, hcallback, answer]

/-! ### Steps -/

theorem filter_reports (callback : μ) (resp : Response) :
    (reports callback resp).filter Action.isCall = reports callback resp := by
  rw [reports]
  split <;> rfl

theorem written_reports (callback : μ) (resp : Response) : (reports callback resp).flatMap written = [] := by
  rw [reports]
  split <;> rfl

/-- The connection stands, and the request is under way. -/
theorem Stage.connected {c : HttpClient μ} {b : β} (hroom : req.pack.length < 2 ^ 32)
    (hcallback : c.callback_ = some callback) (hreq : c.req_ = req) (hbuffer : c.buffer_ = []) (hb : Valid b)
    (hnil : contents b = []) : ∃ y, Duplex.step (parties s call) ⟨⟨c, none, []⟩, ⟨some b, []⟩, [], []⟩
      (.act .OnConnectSuccess) = .ok y ∧ Stage callback req d resp y := by
  have hhandle : c.handle (.status .OnConnectSuccess) = .ok ({ c with isConnected := true }, [.write req.pack]) := by
    rw [HttpClient.handle, HttpClient.onConnectStatus, hreq, Nat.mod_eq_of_lt hroom, List.take_length]
  refine ⟨_, Duplex.step_act (act_eq hhandle), .asking hcallback hbuffer hb ?_ ?_⟩
  · rw [hnil]
    simp [written]
  · simp [written, Request.pack, Message.pack_eq, Message.head]

/-- A part of the request arrives. -/
theorem Stage.asked {route : RadixTree (Option κ)} {k : κ} (hreq : req.Sendable)
    (hfit : ∀ n ≤ req.pack.length, Fits β n) (hroute : s.route_[req.line.methon_.value]? = some route)
    (hget : route.get req.line.path_ = .ok (some (some k)))
    (hd : d = ⟨k, req.received, resp.pack⟩) (hcall : resp = call k req.received Response.new)
    {c : HttpClient μ} {b : β} {toRight : Bytes} (hcallback : c.callback_ = some callback)
    (hbuffer : c.buffer_ = []) (hb : Valid b) (htext : contents b ++ toRight = req.pack) {n : ℕ} :
    ∃ y, Duplex.step (parties s call)
      ⟨⟨c, some .OnConnectSuccess, []⟩, ⟨some b, []⟩, toRight, []⟩ (.toRight n) = .ok y ∧
        Stage callback req d resp y := by
  have hle : (contents b).length + (toRight.take n).length ≤ req.pack.length := by
    rw [← htext, List.length_append, List.length_take]
    omega
  rw [← List.take_append_drop n toRight, ← List.append_assoc] at htext
  by_cases hrest : toRight.drop n = []
  · -- the last part
    rw [hrest, List.append_nil] at htext
    have hparse : Request.unpackAndCompleted Request.new (contents b ++ toRight.take n) =
        .ok (.Success, req.received) := htext ▸ Request.unpackAndCompleted_pack hreq
    obtain ⟨b', hon, hb', hnil⟩ := HttpServer.onMesage_of_success call hb (hfit _ hle) hparse hroute hget
    have hhandled : HttpServer.handled call req.received (some (some k)) = some d := by
      rw [HttpServer.handled, hd, hcall]
    rw [hhandled] at hon
    refine ⟨_, Duplex.step_toRight (receiveRight_eq hon), ?_⟩
    rw [hrest]
    refine .answering hcallback hb' ?_ ?_
    · simp [hbuffer, hd]
    · simp [hd, Response.pack, Message.pack_eq, Message.head]
  · have hne : contents b ++ toRight.take n ≠ req.pack := by
      intro hpack
      rw [hpack, List.append_right_eq_self] at htext
      exact hrest htext
    obtain ⟨req', hfail⟩ := Request.unpackAndCompleted_of_isPrefix hreq ⟨_, htext⟩ hne
    obtain ⟨b', hon, hb', hcont⟩ := HttpServer.onMesage_of_fail call (s := s) hb (hfit _ hle) hfail
    refine ⟨_, Duplex.step_toRight (receiveRight_eq hon), .asking hcallback hbuffer hb' ?_ hrest⟩
    rw [hcont, htext]

/-- A part of the answer arrives. -/
theorem Stage.told (hresp : resp.Sendable) {c : HttpClient μ} {b : β} {toLeft : Bytes}
    (hcallback : c.callback_ = some callback) (hb : Valid b) (htext : c.buffer_ ++ toLeft = resp.pack) {n : ℕ} :
    ∃ y, Duplex.step (parties s call) ⟨⟨c, some .OnConnectSuccess, []⟩, ⟨some b, [d]⟩, [], toLeft⟩ (.toLeft n) =
      .ok y ∧ Stage callback req d resp y := by
  rw [← List.take_append_drop n toLeft] at htext
  obtain ⟨c', hcallback', hbuffer, hhandle⟩ := handle_message hresp hcallback htext
  refine ⟨_, Duplex.step_toLeft (receiveLeft_eq hhandle), ?_⟩
  rw [← List.append_assoc, ← hbuffer] at htext
  by_cases hrest : toLeft.drop n = []
  · rw [hrest, List.append_nil] at htext
    rw [if_pos hrest, hrest, filter_reports, written_reports]
    exact .answered hcallback' htext
  · rw [if_neg hrest]
    exact .answering hcallback' hb htext hrest

/-- **The step lemma.** -/
theorem Stage.step {route : RadixTree (Option κ)} {k : κ} (hreq : req.Sendable) (hresp : resp.Sendable)
    (hroom : req.pack.length < 2 ^ 32) (hfit : ∀ n ≤ req.pack.length, Fits β n)
    (hroute : s.route_[req.line.methon_.value]? = some route)
    (hget : route.get req.line.path_ = .ok (some (some k)))
    (hd : d = ⟨k, req.received, resp.pack⟩) (hcall : resp = call k req.received Response.new)
    {x : Duplex (Caller μ) (Answerer κ β) UInt8} (h : Stage callback req d resp x)
    {e : Duplex.Event ConnectStatus} (he : Allows x e) :
    ∃ y, x.step (parties s call) e = .ok y ∧ Stage callback req d resp y := by
  obtain ⟨harrives, he⟩ := he
  cases h with
  | @waiting c b hcallback hreq' hbuffer hb hnil =>
    cases e with
    | toRight n => cases he
    | toLeft n => cases he
    | act status =>
      cases status with
      | OnConnectSuccess => exact Stage.connected hroom hcallback hreq' hbuffer hb hnil
      | OnConnnectFail =>
        have hhandle : c.handle (.status .OnConnnectFail) =
            .ok ({ c with isConnected := false }, [.call callback .ConnectFail none]) := by
          rw [HttpClient.handle, HttpClient.onConnectStatus, HttpClient.onResp, hcallback]
        exact ⟨_, Duplex.step_act (act_eq hhandle), .failed⟩
      | OnConnnectClose => cases he.1
  | failed =>
    cases e with
    | toRight n => cases he
    | toLeft n => cases he
    | act status =>
      cases status with
      | OnConnectSuccess => cases he
      | OnConnnectFail => cases he
      | OnConnnectClose => cases he.1
  | @asking c b toRight hcallback hbuffer hb htext hne =>
    cases e with
    | toRight n => exact Stage.asked hreq hfit hroute hget hd hcall hcallback hbuffer hb htext
    | toLeft n => exact absurd rfl harrives.toLeft_ne_nil
    | act status =>
      cases status with
      | OnConnectSuccess => cases he
      | OnConnnectFail => cases he
      | OnConnnectClose => exact absurd rfl he.2.1
  | @answering c b toLeft hcallback hb htext hne =>
    cases e with
    | toRight n => exact absurd rfl harrives.toRight_ne_nil
    | toLeft n => exact Stage.told hresp hcallback hb htext
    | act status =>
      cases status with
      | OnConnectSuccess => cases he
      | OnConnnectFail => cases he
      | OnConnnectClose => exact absurd he.2.2 hne
  | @answered c b hcallback hbuffer =>
    cases e with
    | toRight n => exact absurd rfl harrives.toRight_ne_nil
    | toLeft n => exact absurd rfl harrives.toLeft_ne_nil
    | act status =>
      cases status with
      | OnConnectSuccess => cases he
      | OnConnnectFail => cases he
      | OnConnnectClose =>
        obtain ⟨c', hhandle⟩ := handle_close hresp hcallback hbuffer
        exact ⟨_, Duplex.step_act (act_eq hhandle), .closed⟩
  | closed =>
    cases e with
    | toRight n => cases he
    | toLeft n => cases he
    | act status =>
      cases status with
      | OnConnectSuccess => cases he
      | OnConnnectFail => cases he
      | OnConnnectClose => cases he.1

/-! ### Any run -/

/-- What holds of an exchange: `d` is how the request is handled, `resp` the answer. -/
structure Sound (s : HttpServer κ) (call : κ → Request → Response → Response) (callback : μ) (d : Dispatch κ)
    (resp : Response) (x : Duplex (Caller μ) (Answerer κ β) UInt8) : Prop where
  /-- What can happen next does not fault. -/
  safe : ∀ e, Allows x e → Exec.Returns (x.step (parties s call) e)
  /-- The request is handled once, as it was sent. -/
  dispatched : x.right.dispatched = [] ∨ x.right.dispatched = [d]
  /-- The client is told the answer, and nothing else, unless the connection has failed. -/
  called : ∀ a ∈ x.left.called, a = .call callback .Success (some resp) ∨
    x.left.status = some .OnConnnectFail ∧ a = .call callback .ConnectFail none
  /-- When all has arrived, the request has been handled, and an answer with a length is told. -/
  arrived : x.left.status = some .OnConnectSuccess → x.toRight = [] → x.toLeft = [] →
    x.right.dispatched = [d] ∧ x.left.called.length = if resp.contentLength.isSome then 1 else 0
  /-- When the connection is closed, the answer is told once more. -/
  closed : x.left.status = some .OnConnnectClose →
    x.left.called.length = if resp.contentLength.isSome then 2 else 1

theorem length_reports (callback : μ) (resp : Response) :
    (reports callback resp).length = if resp.contentLength.isSome then 1 else 0 := by
  rw [reports]
  split <;> rfl

theorem eq_of_mem_reports {a : Action μ} (h : a ∈ reports callback resp) : a = answer callback resp := by
  rw [reports] at h
  split at h
  · exact List.mem_singleton.mp h
  · cases h

/-- What a stage tells. -/
theorem Stage.sound {x : Duplex (Caller μ) (Answerer κ β) UInt8} (h : Stage callback req d resp x)
    (hsafe : ∀ e, Allows x e → Exec.Returns (x.step (parties s call) e)) : Sound s call callback d resp x := by
  cases h with
  | waiting _ _ _ _ _ => exact ⟨hsafe, .inl rfl, by simp, by simp, by simp⟩
  | failed => exact ⟨hsafe, .inl rfl, by simp, by simp, by simp⟩
  | asking _ _ _ _ hne => exact ⟨hsafe, .inl rfl, by simp, fun _ hnil => absurd hnil hne, by simp⟩
  | answering _ _ _ hne => exact ⟨hsafe, .inr rfl, by simp, fun _ _ hnil => absurd hnil hne, by simp⟩
  | answered _ _ =>
    exact ⟨hsafe, .inr rfl, fun a ha => .inl (eq_of_mem_reports ha), fun _ _ _ => ⟨rfl, length_reports _ _⟩,
      by simp⟩
  | closed =>
    refine ⟨hsafe, .inr rfl, fun a ha => .inl ?_, by simp, fun _ => ?_⟩
    · rcases List.mem_append.mp ha with ha | ha
      · exact eq_of_mem_reports ha
      · exact List.mem_singleton.mp ha
    · rw [List.length_append, length_reports]
      split <;> rfl

/-- **A request is answered**, in every run, however the request and the answer are cut on their way: the
callback of its route is called once, with what was sent, and the client's callback is told of the answer
and of nothing else. -/
theorem exchange (s : HttpServer κ) (call : κ → Request → Response → Response) (c : HttpClient μ)
    (callback : μ) (req : Request) (k : κ) (route : RadixTree (Option κ)) (b : β) (hreq : req.Sendable)
    (hresp : (call k req.received Response.new).Sendable) (hroom : req.pack.length < 2 ^ 32)
    (hroute : s.route_[req.line.methon_.value]? = some route)
    (hget : route.get req.line.path_ = .ok (some (some k))) (hb : Valid b) (hnil : contents b = [])
    (hfit : ∀ n ≤ req.pack.length, Fits β n) {events : List (Duplex.Event ConnectStatus)}
    {x : Duplex (Caller μ) (Answerer κ β) UInt8}
    (hrun : Run (Steps (Duplex.step (parties s call)) Allows) (start c callback req b) events x) :
    Sound s call callback ⟨k, req.received, (call k req.received Response.new).pack⟩
      (call k req.received Response.new) x := by
  obtain ⟨hstage, hsafe⟩ := hrun.safe _ (Stage.start c hb hnil) fun x e hx he =>
    Stage.step hreq hresp hroom hfit hroute hget rfl rfl hx he
  exact hstage.sound hsafe

/-! ### To the end -/

/-- The answer has been given, and the connection is closed. -/
def Ended (d : Dispatch κ) (x : Duplex (Caller μ) (Answerer κ β) UInt8) : Prop :=
  x.left.status = some .OnConnnectClose ∧ x.right.dispatched = [d]

section

variable {route : RadixTree (Option κ)} {k : κ} {x₀ x : Duplex (Caller μ) (Answerer κ β) UInt8}
  {events : List (Duplex.Event ConnectStatus)} (hreq : req.Sendable) (hresp : resp.Sendable)
  (hroom : req.pack.length < 2 ^ 32) (hfit : ∀ n ≤ req.pack.length, Fits β n)
  (hroute : s.route_[req.line.methon_.value]? = some route) (hget : route.get req.line.path_ = .ok (some (some k)))
  (hd : d = ⟨k, req.received, resp.pack⟩) (hcall : resp = call k req.received Response.new)

include hreq hresp hroom hfit hroute hget hd hcall

/-- Behind an answer the connection can be closed, when the client has received all. -/
theorem Stage.ends_of_dispatched (h : Stage callback req d resp x)
    (hstatus : x.left.status = some .OnConnectSuccess) (hdispatched : x.right.dispatched ≠ [])
    (hrun : Run (Steps (Duplex.step (parties s call)) Allows) x₀ events x) :
    ∃ more y, Run (Steps (Duplex.step (parties s call)) Allows) x₀ (events ++ more) y ∧ Ended d y := by
  induction hn : x.toLeft.length generalizing x events with
  | zero =>
    have he : Allows x (.act .OnConnnectClose) :=
      ⟨trivial, hstatus, hdispatched, List.eq_nil_of_length_eq_zero hn⟩
    obtain ⟨y, hy, hstage⟩ := h.step hreq hresp hroom hfit hroute hget hd hcall he
    have hclosed := status_of_act hy
    refine ⟨[_], y, hrun.snoc ⟨he, hy⟩, hclosed, ?_⟩
    cases hstage with
    | closed => rfl
    | _ => cases hclosed
  | succ n ih =>
    have he : Allows x (.toLeft 1) := ⟨⟨Nat.one_pos, by omega⟩, hstatus⟩
    obtain ⟨y, hy, hstage⟩ := h.step hreq hresp hroom hfit hroute hget hd hcall he
    obtain ⟨hright, htoLeft⟩ := Duplex.eq_of_step_toLeft hy
    obtain ⟨more, z, hmore, hended⟩ := ih hstage ((status_of_toLeft hy).trans hstatus) (hright ▸ hdispatched)
      (hrun.snoc ⟨he, hy⟩)
      (by rw [htoLeft, List.length_drop, hn, Nat.add_sub_cancel])
    exact ⟨_ :: more, z, by rwa [List.append_assoc] at hmore, hended⟩

/-- While the connection stands, more of the request can arrive until it is answered. -/
theorem Stage.ends_of_connected (h : Stage callback req d resp x)
    (hstatus : x.left.status = some .OnConnectSuccess)
    (hrun : Run (Steps (Duplex.step (parties s call)) Allows) x₀ events x) :
    ∃ more y, Run (Steps (Duplex.step (parties s call)) Allows) x₀ (events ++ more) y ∧ Ended d y := by
  induction hn : x.toRight.length generalizing x events with
  | zero =>
    have hdispatched : x.right.dispatched ≠ [] := by
      cases h with
      | asking _ _ _ _ hne => exact absurd (List.eq_nil_of_length_eq_zero hn) hne
      | waiting => cases hstatus
      | failed => cases hstatus
      | _ => exact List.cons_ne_nil _ _
    exact h.ends_of_dispatched hreq hresp hroom hfit hroute hget hd hcall hstatus hdispatched hrun
  | succ n ih =>
    have he : Allows x (.toRight 1) := ⟨⟨Nat.one_pos, by omega⟩, hstatus⟩
    obtain ⟨y, hy, hstage⟩ := h.step hreq hresp hroom hfit hroute hget hd hcall he
    obtain ⟨hleft, htoRight⟩ := Duplex.eq_of_step_toRight hy
    obtain ⟨more, z, hmore, hended⟩ := ih hstage (hleft ▸ hstatus) (hrun.snoc ⟨he, hy⟩)
      (by rw [htoRight, List.length_drop, hn, Nat.add_sub_cancel])
    exact ⟨_ :: more, z, by rwa [List.append_assoc] at hmore, hended⟩

/-- **An exchange can come to its end**, wherever a run has led, unless the connection has failed. -/
theorem Stage.ends (h : Stage callback req d resp x)
    (hstands : x.left.status ≠ some .OnConnnectFail)
    (hrun : Run (Steps (Duplex.step (parties s call)) Allows) x₀ events x) :
    ∃ more y, Run (Steps (Duplex.step (parties s call)) Allows) x₀ (events ++ more) y ∧ Ended d y := by
  cases hstatus : x.left.status with
  | none =>
    have he : Allows x (.act .OnConnectSuccess) := ⟨trivial, hstatus⟩
    obtain ⟨y, hy, hstage⟩ := h.step hreq hresp hroom hfit hroute hget hd hcall he
    obtain ⟨more, z, hmore, hended⟩ := hstage.ends_of_connected hreq hresp hroom hfit hroute hget hd hcall
      (status_of_act hy) (hrun.snoc ⟨he, hy⟩)
    exact ⟨_ :: more, z, by rwa [List.append_assoc] at hmore, hended⟩
  | some status =>
    cases status with
    | OnConnectSuccess => exact h.ends_of_connected hreq hresp hroom hfit hroute hget hd hcall hstatus hrun
    | OnConnnectFail => exact absurd hstatus hstands
    | OnConnnectClose =>
      refine ⟨[], x, by rwa [List.append_nil], hstatus, ?_⟩
      cases h with
      | closed => rfl
      | _ => cases hstatus

end

/-- An answer with a content of two bytes. -/
def sampleAnswer (_ : Unit) (_ : Request) (resp : Response) : Response :=
  ⟨{ resp.line with statusInfo_ := bytes "OK" }, .ofList [(bytes "Content-Length", bytes "2")], bytes "hi"⟩

theorem sendable_sampleAnswer : (sampleAnswer () HttpServer.sampleRequest.received .new).Sendable :=
  ⟨⟨⟨by decide, by decide, by decide⟩, by decide, by decide, by decide⟩, by decide, by decide⟩

/-- A run in which the request is handled, the answer arrives and the connection is closed; the answer is told
when it has arrived, and once more at the end. -/
theorem exchange_sample : ∃ (s : HttpServer Unit) (events : List (Duplex.Event ConnectStatus))
    (x : Duplex (Caller Bool) (Answerer Unit ListBuffer) UInt8),
    Run (Steps (Duplex.step (parties s sampleAnswer)) Allows)
      (start .new true HttpServer.sampleRequest ⟨[]⟩) events x ∧ x.left.status = some .OnConnnectClose ∧
    x.right.dispatched =
      [⟨(), HttpServer.sampleRequest.received, (sampleAnswer () HttpServer.sampleRequest.received .new).pack⟩] ∧
    x.left.called.length = 2 := by
  obtain ⟨s, hs, -⟩ := HttpServer.addRoutes_eq [⟨.Post, bytes "/ab", some (), by decide⟩]
  have hpost : ∃ r ∈ [(⟨.Post, bytes "/ab", some (), by decide⟩ : HttpServer.Route Unit)], r.methon = Methon.Post :=
    ⟨_, List.mem_cons_self, rfl⟩
  obtain ⟨route, hroute, hget⟩ := HttpServer.get_route (by decide) hpost hs
  have hstart : Stage true HttpServer.sampleRequest
      ⟨(), HttpServer.sampleRequest.received, (sampleAnswer () HttpServer.sampleRequest.received .new).pack⟩
      (sampleAnswer () HttpServer.sampleRequest.received .new)
      (start .new true HttpServer.sampleRequest (⟨[]⟩ : ListBuffer)) := Stage.start .new trivial rfl
  obtain ⟨events, x, hrun, hclosed, hdispatched⟩ := hstart.ends HttpServer.sendable_sampleRequest
    sendable_sampleAnswer (by decide) (fun _ _ => rfl) hroute (hget _) rfl rfl (by decide) (.nil _)
  have hsound := exchange s sampleAnswer _ _ HttpServer.sampleRequest () route (⟨[]⟩ : ListBuffer)
    HttpServer.sendable_sampleRequest sendable_sampleAnswer (by decide) hroute (hget _) trivial rfl
    (fun _ _ => rfl) hrun
  exact ⟨s, _, x, hrun, hclosed, hdispatched, hsound.closed hclosed⟩

end Exchange

end UvCpp.Http
