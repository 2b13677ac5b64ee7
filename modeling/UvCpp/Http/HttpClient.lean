import UvCpp.Tcp.TcpClient
import UvCpp.Http.Request
import UvCpp.Http.ChunkRounds

/-!
# The HTTP client

`Req` connects; when the connection stands, the request is written, and what is received is
added to `buffer_` and parsed as a whole every time. The client calls its callback from three
places: when the connection fails, when a response has come whole, and when the peer closes the
connection.

Two things go wrong, and both only when the peer closes or sends on. Nothing remembers that the
response was reported, so a close reports it again, and more of a chunked one does too
(`invoked_once_iff`). And on a close the buffer is parsed by `unpack`, which does not ask whether
the content is whole (`reports_complete`).
-/

namespace UvCpp.Http

open UvCpp.Cpp UvCpp.Systems

/-- `HttpClient::ReqResult`. -/
inductive ReqResult where
  /-- There is a response. -/
  | Success
  /-- No connection. -/
  | ConnectFail
  /-- What was received is not a response. -/
  | ParseFail
  /-- Not used. -/
  | Unknow
  deriving DecidableEq

/-- `uv::http::HttpClient`, with callbacks in `κ`; `none` is `nullptr`. -/
structure HttpClient (κ : Type) where
  /-- The callback for the response. -/
  callback_ : Option κ
  /-- The request. -/
  req_ : Request
  /-- What has been received. -/
  buffer_ : Bytes
  /-- Whether the connection stands. -/
  isConnected : Bool

namespace HttpClient

variable {κ : Type}

/-- What the client does. -/
inductive Action (κ : Type) where
  /-- It writes to the connection. -/
  | write (str : Bytes)
  /-- It calls the callback; without a response, `resp` is `nullptr`. -/
  | call (callback : κ) (rst : ReqResult) (resp : Option Response)

/-- What happens to the client: what `TcpClient` calls it for. -/
inductive Event where
  /-- A new status of the connection. -/
  | status (status : ConnectStatus)
  /-- Received bytes. -/
  | message (data : Bytes)
  deriving DecidableEq

/-- A new client. -/
def new : HttpClient κ := ⟨none, .new, resize [] 20480, false⟩

/-- `setOnResp`. -/
def setOnResp (c : HttpClient κ) (callback : Option κ) : HttpClient κ := { c with callback_ := callback }

/-- `Req`, up to the call to `connect`. -/
def Req (c : HttpClient κ) (req : Request) : HttpClient κ := { c with req_ := req, buffer_ := [] }

/-- `onResp`. -/
def onResp (c : HttpClient κ) (rst : ReqResult) (resp : Option Response) : List (Action κ) :=
  match c.callback_ with
  | none => []
  | some callback => [.call callback rst resp]

/-- `onConnectStatus`. -/
def onConnectStatus (c : HttpClient κ) : ConnectStatus → Exec (HttpClient κ × List (Action κ))
  | .OnConnectSuccess =>
    let str := Request.pack c.req_
    .ok ({ c with isConnected := true }, [.write (str.take (str.length % 2 ^ 32))])
  | .OnConnnectFail => .ok ({ c with isConnected := false }, c.onResp .ConnectFail none)
  | .OnConnnectClose => do
    let (rst, resp) ← Response.unpack .new c.buffer_
    if rst = .Success then .ok ({ c with isConnected := false }, c.onResp .Success (some resp))
    else .ok ({ c with isConnected := false }, c.onResp .ParseFail none)

/-- `onMessage`: sizes are 32-bit unsigned numbers. -/
def onMessage (c : HttpClient κ) (data : Bytes) : Exec (HttpClient κ × List (Action κ)) := do
  let bufsize := c.buffer_.length % 2 ^ 32
  let datasize := (bufsize + data.length % 2 ^ 32) % 2 ^ 32
  let buffer ← copyTo (resize c.buffer_ datasize) bufsize data
  let (rst, resp) ← Response.unpackAndCompleted .new buffer
  if rst = .Success then .ok ({ c with buffer_ := buffer }, c.onResp .Success (some resp))
  else if rst = .Error then .ok ({ c with buffer_ := [] }, [])
  else .ok ({ c with buffer_ := buffer }, [])

/-- What the client does about an event. -/
def handle (c : HttpClient κ) : Event → Exec (HttpClient κ × List (Action κ))
  | .status status => c.onConnectStatus status
  | .message data => c.onMessage data

/-- What can happen after `Req`. -/
inductive Session : List Event → Prop where
  /-- Nothing yet. -/
  | waiting : Session []
  /-- The connection fails. -/
  | failed : Session [.status .OnConnnectFail]
  /-- The connection stands, and bytes are received. -/
  | opened {chunks : List Bytes} : (∀ data ∈ chunks, data ≠ []) →
      Session (.status .OnConnectSuccess :: chunks.map .message)
  /-- The peer closes it. -/
  | closed {chunks : List Bytes} : (∀ data ∈ chunks, data ≠ []) →
      Session (.status .OnConnectSuccess :: (chunks.map .message ++ [.status .OnConnnectClose]))

/-! ### Received bytes -/

variable {c c' : HttpClient κ} {data : Bytes} {o : List (Action κ)}

/-- Received bytes are added to the buffer, as long as it stays below `2³²` bytes. -/
theorem onMessage_eq (hroom : c.buffer_.length < 2 ^ 32) (data : Bytes) : c.onMessage data =
    if c.buffer_.length + data.length < 2 ^ 32 then do
      let (rst, resp) ← Response.unpackAndCompleted .new (c.buffer_ ++ data)
      if rst = .Success then
        .ok ({ c with buffer_ := c.buffer_ ++ data }, c.onResp .Success (some resp))
      else if rst = .Error then .ok ({ c with buffer_ := [] }, [])
      else .ok ({ c with buffer_ := c.buffer_ ++ data }, [])
    else .error .undefined := by
  rw [onMessage, Nat.mod_eq_of_lt hroom]
  split
  · next hlt =>
    rw [Nat.mod_eq_of_lt (show data.length < 2 ^ 32 by omega), Nat.mod_eq_of_lt hlt, copyTo_resize]
    rfl
  · next hge =>
    have hwrap : (c.buffer_.length + data.length % 2 ^ 32) % 2 ^ 32 < 2 ^ 32 := Nat.mod_lt _ (by decide)
    have hout : ¬ c.buffer_.length + data.length ≤
        (resize c.buffer_ ((c.buffer_.length + data.length % 2 ^ 32) % 2 ^ 32)).length := by
      rw [length_resize]
      omega
    rw [copyTo, if_neg hout]
    rfl

/-- Nothing is not a response. -/
theorem unpackAndCompleted_nil : Response.unpackAndCompleted .new [] = .ok (.Fail, .new) := rfl

/-- **What received bytes do**: they are added to the buffer, and a buffer that is a whole
response is reported. -/
theorem onMessage_eq_ok (hroom : c.buffer_.length < 2 ^ 32) (h : c.onMessage data = .ok (c', o)) :
    c.buffer_.length + data.length < 2 ^ 32 ∧ ∃ rst resp,
      Response.unpackAndCompleted .new (c.buffer_ ++ data) = .ok (rst, resp) ∧
      c' = { c with buffer_ := if rst = .Error then [] else c.buffer_ ++ data } ∧
      o = if rst = .Success then c.onResp .Success (some resp) else [] := by
  rw [onMessage_eq hroom] at h
  split at h
  · next hlt =>
    rw [Exec.bind_eq_ok_iff] at h
    obtain ⟨⟨rst, resp⟩, hresp, h⟩ := h
    refine ⟨hlt, rst, resp, hresp, ?_⟩
    cases rst <;> simp only [reduceCtorEq, if_true, if_false, Except.ok.injEq, Prod.mk.injEq] at h ⊢ <;>
      exact ⟨h.1.symm, h.2.symm⟩
  · cases h

/-! ### How often the callback is called -/

/-- Whether an action is a call to the callback. -/
def Action.isCall : Action κ → Bool
  | .write _ => false
  | .call _ _ _ => true

/-- How many calls to the callback there are. -/
def calls (os : List (List (Action κ))) : ℕ := os.flatten.countP Action.isCall

@[simp] theorem calls_nil : calls ([] : List (List (Action κ))) = 0 := rfl

@[simp] theorem calls_cons (o : List (Action κ)) (os : List (List (Action κ))) :
    calls (o :: os) = o.countP Action.isCall + calls os := by
  rw [calls, List.flatten_cons, List.countP_append]
  rfl

@[simp] theorem calls_append (os os' : List (List (Action κ))) :
    calls (os ++ os') = calls os + calls os' := by
  rw [calls, List.flatten_append, List.countP_append]
  rfl

/-- How often the callback is called in a session. A session goes on until a call throws, never
returns or is undefined. -/
def invocations (c : HttpClient κ) (events : List Event) : ℕ := calls (outputs handle c events)

/-- The buffer is a whole response. -/
def Whole (c : HttpClient κ) (resp : Response) : Prop :=
  Response.unpackAndCompleted .new c.buffer_ = .ok (.Success, resp)

/-- From the moment the buffer is a whole response the connection is not closed and, if the
response is chunked, nothing more is received. -/
def QuietWhenWhole (c : HttpClient κ) (events : List Event) : Prop :=
  ∀ before next after c₁ os₁ c₂ os₂ resp, events = before ++ (next ++ after) →
    runAll handle c before = .ok (c₁, os₁) → c₁.Whole resp → runAll handle c₁ next = .ok (c₂, os₂) →
      .status .OnConnnectClose ∉ next ∧ (resp.contentLength = none → next = [])

/-- A client with a callback, whose buffer has room. -/
structure Serving (callback : κ) (c : HttpClient κ) : Prop where
  /-- The callback. -/
  callback : c.callback_ = some callback
  /-- The buffer is shorter than `2³²` bytes. -/
  room : c.buffer_.length < 2 ^ 32

variable {callback : κ}

/-- A call. -/
theorem Serving.countP_onResp (hc : Serving callback c) (rst : ReqResult) (resp : Option Response) :
    (c.onResp rst resp).countP Action.isCall = 1 := by
  rw [onResp, hc.callback]
  rfl

/-- A new status leaves the buffer. -/
theorem onConnectStatus_eq_ok {status : ConnectStatus} (h : c.onConnectStatus status = .ok (c', o)) :
    ∃ connected, c' = { c with isConnected := connected } := by
  cases status with
  | OnConnectSuccess =>
    cases h
    exact ⟨true, rfl⟩
  | OnConnnectFail =>
    cases h
    exact ⟨false, rfl⟩
  | OnConnnectClose =>
    rw [onConnectStatus, Exec.bind_eq_ok_iff] at h
    obtain ⟨⟨rst, resp⟩, -, h⟩ := h
    dsimp only at h
    split at h <;> cases h <;> exact ⟨false, rfl⟩

/-- A close is reported. -/
theorem Serving.close (hc : Serving callback c)
    (h : c.handle (.status .OnConnnectClose) = .ok (c', o)) : o.countP Action.isCall = 1 := by
  rw [handle, onConnectStatus, Exec.bind_eq_ok_iff] at h
  obtain ⟨⟨rst, resp⟩, -, h⟩ := h
  dsimp only at h
  split at h <;> cases h <;> exact hc.countP_onResp _ _

theorem Serving.handle (hc : Serving callback c) {e : Event} (h : c.handle e = .ok (c', o)) :
    Serving callback c' := by
  cases e with
  | status status =>
    obtain ⟨connected, rfl⟩ := onConnectStatus_eq_ok h
    exact ⟨hc.callback, hc.room⟩
  | message data =>
    obtain ⟨hlt, rst, resp, -, rfl, -⟩ := onMessage_eq_ok hc.room h
    refine ⟨hc.callback, ?_⟩
    dsimp only
    split
    · exact Nat.two_pow_pos 32
    · rw [List.length_append]
      exact hlt

/-- Received bytes are reported when they make the buffer a whole response, and only then. -/
theorem Serving.message (hc : Serving callback c) (h : c.handle (.message data) = .ok (c', o)) :
    (∃ resp, c'.Whole resp) ∧ o.countP Action.isCall = 1 ∨
      (∀ resp, ¬ c'.Whole resp) ∧ o.countP Action.isCall = 0 := by
  obtain ⟨-, rst, resp, hresp, rfl, rfl⟩ := onMessage_eq_ok hc.room h
  cases rst with
  | Success => exact .inl ⟨⟨resp, hresp⟩, hc.countP_onResp _ _⟩
  | Fail =>
    refine .inr ⟨fun resp' hwhole => ?_, rfl⟩
    have hwhole : Response.unpackAndCompleted .new (c.buffer_ ++ data) = .ok (.Success, resp') := hwhole
    simp [hwhole] at hresp
  | Error =>
    refine .inr ⟨fun resp' hwhole => ?_, rfl⟩
    have hwhole : Response.unpackAndCompleted .new [] = .ok (.Success, resp') := hwhole
    simp [unpackAndCompleted_nil] at hwhole

/-- **A whole response has been reported.** -/
theorem Serving.calls_of_whole (hc : Serving callback c) (hnew : ∀ resp, ¬ c.Whole resp)
    {events : List Event} {os : List (List (Action κ))} (h : runAll HttpClient.handle c events = .ok (c', os))
    {resp : Response} (hwhole : c'.Whole resp) : 1 ≤ calls os := by
  induction events generalizing c os with
  | nil =>
    cases h
    exact absurd hwhole (hnew resp)
  | cons e events ih =>
    obtain ⟨t, o, os', he, hevents, rfl⟩ := runAll_cons_eq_ok_iff.mp h
    rw [calls_cons]
    have ih := fun hnew => ih (hc.handle he) hnew hevents
    cases e with
    | status status =>
      obtain ⟨connected, rfl⟩ := onConnectStatus_eq_ok he
      have := ih hnew
      omega
    | message data =>
      obtain ⟨-, hcall⟩ | ⟨hnew', -⟩ := hc.message he
      · omega
      · have := ih hnew'
        omega

/-- A run with a close calls the callback. -/
theorem Serving.calls_of_close (hc : Serving callback c) {events : List Event}
    {os : List (List (Action κ))} (h : runAll HttpClient.handle c events = .ok (c', os))
    (hclose : .status .OnConnnectClose ∈ events) : 1 ≤ calls os := by
  induction events generalizing c os with
  | nil => cases hclose
  | cons e events ih =>
    obtain ⟨t, o, os', he, hevents, rfl⟩ := runAll_cons_eq_ok_iff.mp h
    rw [calls_cons]
    cases hclose with
    | head =>
      have := hc.close he
      omega
    | tail _ hclose =>
      have := ih (hc.handle he) hevents hclose
      omega

/-- What can happen when the connection stands. -/
theorem mem_messages {chunks : List Bytes} (hchunks : ∀ data ∈ chunks, data ≠ []) {last : List Event}
    (hlast : last = [] ∨ last = [.status .OnConnnectClose]) {e : Event}
    (he : e ∈ chunks.map .message ++ last) :
    e = .status .OnConnnectClose ∨ ∃ data ≠ [], e = .message data := by
  obtain he | he := List.mem_append.mp he
  · obtain ⟨data, hdata, rfl⟩ := List.mem_map.mp he
    exact .inr ⟨data, hchunks data hdata, rfl⟩
  · obtain rfl | rfl := hlast
    · cases he
    · exact .inl (List.mem_singleton.mp he)

theorem Session.mem_tail {events : List Event} (h : Session events) {e : Event} (he : e ∈ events.tail) :
    e = .status .OnConnnectClose ∨ ∃ data ≠ [], e = .message data := by
  cases h with
  | waiting => cases he
  | failed => cases he
  | opened hchunks => exact mem_messages hchunks (.inl rfl) (List.mem_append_left [] he)
  | closed hchunks => exact mem_messages hchunks (.inr rfl) he

/-- More of a chunked response is reported again. -/
theorem Serving.message_of_whole (hc : Serving callback c) {resp : Response} (hwhole : c.Whole resp)
    (hnone : resp.contentLength = none) (hdata : data ≠ [])
    (h : c.handle (.message data) = .ok (c', o)) : o.countP Action.isCall = 1 := by
  obtain ⟨hlt, rst, resp', hresp, -, rfl⟩ := onMessage_eq_ok hc.room h
  rw [← List.length_append] at hlt
  obtain ⟨resp'', -, happend⟩ := Response.unpackAndCompleted_append hwhole hdata hlt
  rw [happend, if_pos hnone] at hresp
  simp only [Except.ok.injEq, Prod.mk.injEq] at hresp
  rw [← hresp.1, if_pos rfl]
  exact hc.countP_onResp _ _

/-- **A client that calls at most once is left alone** when the response is whole. -/
theorem Serving.quietWhenWhole (hc : Serving callback c) (hnew : ∀ resp, ¬ c.Whole resp)
    {events : List Event} (hsession : Session events) (hle : c.invocations events ≤ 1) :
    QuietWhenWhole c events := by
  rintro before next after c₁ os₁ c₂ os₂ resp rfl hbefore hwhole hnext
  have hc₁ : Serving callback c₁ := runAll_invariant (fun _ _ _ _ hc h => hc.handle h) hbefore hc
  have hcalled := hc.calls_of_whole hnew hbefore hwhole
  have hquiet : calls os₂ = 0 := by
    rw [invocations, outputs_append hbefore, outputs_append hnext, calls_append, calls_append] at hle
    omega
  constructor
  · intro hclose
    have := hc₁.calls_of_close hnext hclose
    omega
  · intro hnone
    cases next with
    | nil => rfl
    | cons e next =>
      obtain ⟨t, o, os', he, -, rfl⟩ := runAll_cons_eq_ok_iff.mp hnext
      rw [calls_cons] at hquiet
      cases before with
      | nil =>
        cases hbefore
        exact absurd hwhole (hnew resp)
      | cons b before =>
        have hmem : e ∈ (b :: before ++ (e :: next ++ after)).tail := by simp
        obtain rfl | ⟨data, hdata, rfl⟩ := hsession.mem_tail hmem
        · have := hc₁.close he
          omega
        · have := hc₁.message_of_whole hwhole hnone hdata he
          omega

/-- The buffer begins with a response that has been whole, and has a length. -/
def Passed (c : HttpClient κ) : Prop :=
  ∃ data more resp, c.buffer_ = data ++ more ∧
    Response.unpackAndCompleted .new data = .ok (.Success, resp) ∧ resp.contentLength ≠ none

/-- Bytes behind a response with a length are not reported. -/
theorem Passed.message (hc : Serving callback c) (hpassed : c.Passed) (hdata : data ≠ [])
    (h : c.handle (.message data) = .ok (c', o)) : o.countP Action.isCall = 0 ∧ c'.Passed := by
  obtain ⟨data₀, more, resp₀, hbuffer, hwhole, hsome⟩ := hpassed
  obtain ⟨hlt, rst, resp, hresp, rfl, rfl⟩ := onMessage_eq_ok hc.room h
  have hmore : more ++ data ≠ [] := by simp [hdata]
  rw [← List.length_append, hbuffer, List.append_assoc] at hlt
  obtain ⟨resp', -, happend⟩ := Response.unpackAndCompleted_append hwhole hmore hlt
  rw [hbuffer, List.append_assoc, happend, if_neg hsome] at hresp
  simp only [Except.ok.injEq, Prod.mk.injEq] at hresp
  obtain ⟨rfl, -⟩ := hresp
  refine ⟨rfl, data₀, more ++ data, resp₀, ?_, hwhole, hsome⟩
  simp [hbuffer]

/-- Behind a response with a length nothing is reported but a close. -/
theorem Passed.invocations (hc : Serving callback c) (hpassed : c.Passed) {events : List Event}
    (hevents : ∀ e ∈ events, e = .status .OnConnnectClose ∨ ∃ data ≠ [], e = .message data)
    (hopen : ∀ next after c₂ os, events = next ++ after → runAll handle c next = .ok (c₂, os) →
      .status .OnConnnectClose ∉ next) : c.invocations events = 0 := by
  induction events generalizing c with
  | nil => rfl
  | cons e events ih =>
    rw [HttpClient.invocations]
    cases he : c.handle e with
    | error fault => rw [outputs, he, calls_nil]
    | ok r =>
      obtain ⟨c', o⟩ := r
      rw [outputs_cons_of he, calls_cons]
      obtain rfl | ⟨data, hdata, rfl⟩ := hevents e List.mem_cons_self
      · have hclose := hopen [_] events c' [o] rfl (runAll_cons_of he rfl)
        simp at hclose
      · obtain ⟨hcall, hpassed'⟩ := hpassed.message hc hdata he
        have htail := ih (hc.handle he) hpassed' (fun e he => hevents e (List.mem_cons_of_mem _ he))
          fun next after c₂ os hsplit hnext hclose =>
            hopen (_ :: next) after c₂ (o :: os) (by rw [hsplit]; rfl) (runAll_cons_of he hnext)
              (List.mem_cons_of_mem _ hclose)
        rw [HttpClient.invocations] at htail
        rw [hcall, htail]

theorem QuietWhenWhole.tail {e : Event} {events : List Event} (h : QuietWhenWhole c (e :: events))
    (he : c.handle e = .ok (c', o)) : QuietWhenWhole c' events := by
  rintro before next after c₁ os₁ c₂ os₂ resp rfl hbefore hwhole hnext
  exact h (e :: before) next after c₁ (o :: os₁) c₂ os₂ resp rfl (runAll_cons_of he hbefore) hwhole hnext

/-- A client that is left alone when the response is whole does not call again. -/
theorem Serving.invocations_of_whole (hc : Serving callback c) {resp : Response} (hwhole : c.Whole resp)
    {events : List Event}
    (hevents : ∀ e ∈ events, e = .status .OnConnnectClose ∨ ∃ data ≠ [], e = .message data)
    (hquiet : QuietWhenWhole c events) : c.invocations events = 0 := by
  have hopen : ∀ next after c₂ os, events = next ++ after → runAll HttpClient.handle c next = .ok (c₂, os) →
      .status .OnConnnectClose ∉ next ∧ (resp.contentLength = none → next = []) :=
    fun next after c₂ os hsplit hnext => hquiet [] next after c [] c₂ os resp hsplit rfl hwhole hnext
  by_cases hnone : resp.contentLength = none
  · cases events with
    | nil => rfl
    | cons e events =>
      rw [HttpClient.invocations]
      cases he : c.handle e with
      | error fault => rw [outputs, he, calls_nil]
      | ok r =>
        have := (hopen [e] events r.1 [r.2] rfl (runAll_cons_of he rfl)).2 hnone
        cases this
  · have hpassed : c.Passed := ⟨c.buffer_, [], resp, by simp, hwhole, hnone⟩
    exact hpassed.invocations hc hevents fun next after c₂ os hsplit hnext =>
      (hopen next after c₂ os hsplit hnext).1

/-- **A client that is left alone** when the response is whole calls at most once. -/
theorem Serving.invocations_le (hc : Serving callback c) (hnew : ∀ resp, ¬ c.Whole resp)
    {chunks : List Bytes} (hchunks : ∀ data ∈ chunks, data ≠ []) {last : List Event}
    (hlast : last = [] ∨ last = [.status .OnConnnectClose])
    (hquiet : QuietWhenWhole c (chunks.map .message ++ last)) :
    c.invocations (chunks.map .message ++ last) ≤ 1 := by
  rw [HttpClient.invocations]
  induction chunks generalizing c with
  | nil =>
    obtain rfl | rfl := hlast
    · exact Nat.zero_le 1
    · rw [List.map_nil, List.nil_append]
      cases he : c.handle (.status .OnConnnectClose) with
      | error fault =>
        rw [outputs, he]
        exact Nat.zero_le 1
      | ok r =>
        rw [outputs_cons_of he, calls_cons, hc.close he]
        exact le_refl 1
  | cons data chunks ih =>
    have hchunks' : ∀ data ∈ chunks, data ≠ [] := fun d hd => hchunks d (List.mem_cons_of_mem _ hd)
    rw [List.map_cons, List.cons_append] at hquiet ⊢
    cases he : c.handle (.message data) with
    | error fault =>
      rw [outputs, he]
      exact Nat.zero_le 1
    | ok r =>
      rw [outputs_cons_of he, calls_cons]
      obtain ⟨⟨resp, hwhole⟩, hcall⟩ | ⟨hnew', hcall⟩ := hc.message he
      · have hrest := (hc.handle he).invocations_of_whole hwhole
          (fun e => mem_messages hchunks' hlast) (hquiet.tail he)
        rw [HttpClient.invocations] at hrest
        rw [hcall, hrest]
      · have := ih (hc.handle he) hnew' hchunks' (hquiet.tail he)
        rw [hcall]
        omega

/-- The request is written when the connection stands. -/
theorem Serving.invocations_opened (hc : Serving callback c) (hnew : ∀ resp, ¬ c.Whole resp)
    {chunks : List Bytes} (hchunks : ∀ data ∈ chunks, data ≠ []) {last : List Event}
    (hlast : last = [] ∨ last = [.status .OnConnnectClose])
    (hquiet : QuietWhenWhole c (.status .OnConnectSuccess :: (chunks.map .message ++ last))) :
    c.invocations (.status .OnConnectSuccess :: (chunks.map .message ++ last)) ≤ 1 := by
  obtain ⟨str, hwrite⟩ : ∃ str, c.handle (.status .OnConnectSuccess) =
      .ok ({ c with isConnected := true }, [.write str]) := ⟨_, rfl⟩
  have hle := (hc.handle hwrite).invocations_le hnew hchunks hlast (hquiet.tail hwrite)
  rw [HttpClient.invocations, outputs_cons_of hwrite, calls_cons]
  rw [HttpClient.invocations] at hle
  simpa [Action.isCall] using hle

/-- **The callback is called at most once** in the sessions in which the client is left alone
when the response is whole, and in no others. -/
theorem invoked_once_iff (c : HttpClient κ) (callback : κ) (req : Request) {events : List Event}
    (h : Session events) :
    ((c.setOnResp (some callback)).Req req).invocations events ≤ 1 ↔
      QuietWhenWhole ((c.setOnResp (some callback)).Req req) events := by
  have hc : Serving callback ((c.setOnResp (some callback)).Req req) := ⟨rfl, Nat.two_pow_pos 32⟩
  have hnew : ∀ resp, ¬ ((c.setOnResp (some callback)).Req req).Whole resp := by
    intro resp hwhole
    rw [Whole, Req, unpackAndCompleted_nil] at hwhole
    simp at hwhole
  constructor
  · exact hc.quietWhenWhole hnew h
  · intro hquiet
    cases h with
    | waiting => exact Nat.zero_le 1
    | failed => exact le_refl 1
    | @opened chunks hchunks =>
      rw [← List.append_nil (chunks.map _)] at hquiet ⊢
      exact hc.invocations_opened hnew hchunks (.inl rfl) hquiet
    | closed hchunks => exact hc.invocations_opened hnew hchunks (.inr rfl) hquiet

/-- A response with a length, whole. -/
def sampleWhole : Bytes := bytes "HTTP/1.1 200 OK\r\nContent-Length: 2\r\n\r\nhi"

theorem invoked_once_iff_sample :
    (((new : HttpClient Unit).setOnResp (some ())).Req .new).invocations
        [.status .OnConnectSuccess, .message sampleWhole] ≤ 1 ↔
      QuietWhenWhole (((new : HttpClient Unit).setOnResp (some ())).Req .new)
        [.status .OnConnectSuccess, .message sampleWhole] :=
  invoked_once_iff new () .new (@Session.opened [sampleWhole] (by decide))

/-- The peer sends a response, and closes the connection: the callback is called twice. -/
theorem invoked_twice :
    Session [.status .OnConnectSuccess, .message sampleWhole, .status .OnConnnectClose] ∧
      (((new : HttpClient Unit).setOnResp (some ())).Req .new).invocations
        [.status .OnConnectSuccess, .message sampleWhole, .status .OnConnnectClose] = 2 := by
  exact ⟨@Session.closed [sampleWhole] (by decide), by decide⟩

/-! ### What is reported -/

/-- The response is chunked: it says so, and has no length. -/
def Chunked (resp : Response) : Prop :=
  resp.contentLength = none ∧ resp.heads_[bytes "Transfer-Encoding"]? = some (bytes "chunked")

/-- The content has the length the headers give, if they give one. -/
def RightLength (resp : Response) : Prop :=
  ∀ value n, resp.contentLength = some value → IsNumeral 10 value n → n < 2 ^ 31 → resp.content_.length = n

/-- A response reported for these bytes is whole: it has the right length or, if it is chunked,
the bytes hold its last chunk and its content is the chunks. -/
structure Complete (buffer : Bytes) (resp : Response) : Prop where
  /-- The content has the right length. -/
  rightLength : RightLength resp
  /-- The last chunk has come, and the content is the chunks. -/
  decoded : Chunked resp → ∃ m ds w, Response.unpack .new buffer = .ok (.Success, m) ∧ Coding ds w ∧
    w <+: m.content_ ∧ resp.content_ = ds.flatten

/-- Whatever response an event makes the client report is whole. -/
def ReportsComplete (c : HttpClient κ) (e : Event) : Prop :=
  ∀ c' o callback resp, c.handle e = .ok (c', o) → .call callback .Success (some resp) ∈ o →
    Complete c'.buffer_ resp

/-- The bytes begin with a head, up to the blank line, that is read as `head`. -/
def BeginsWith (buffer : Bytes) (head : Response) : Prop :=
  ∃ lines content, buffer = lines ++ content ∧ Response.unpack .new lines = .ok (.Success, head) ∧ head.content_ = []

/-- The headers give a length. -/
def GivesLength (head : Response) : Prop :=
  ∃ value n, head.contentLength = some value ∧ IsNumeral 10 value n ∧ n < 2 ^ 31

/-- The connection is not closed before the response has come whole: when it is closed, what was received does
not begin with the head of a chunked response, and if it begins with one that gives a length, it is whole. And no
chunk received has a negative size. -/
def WholeOnClose (c : HttpClient κ) : Event → Prop
  | .status .OnConnnectClose => ∀ head, BeginsWith c.buffer_ head →
      ¬ Chunked head ∧ (GivesLength head → ∃ resp, c.Whole resp)
  | .status _ => True
  | .message data => ∀ resp, Response.unpack .new (c.buffer_ ++ data) = .ok (.Success, resp) →
      Chunked resp → NonnegSizes resp.content_

/-- What begins with a head is read, and what is read begins with one. -/
theorem BeginsWith.unpack {buffer : Bytes} {head : Response} (h : BeginsWith buffer head) :
    ∃ content, Response.unpack .new buffer = .ok (.Success, { head with content_ := content }) := by
  obtain ⟨lines, content, rfl, hread, -⟩ := h
  exact ⟨_, Message.unpack_append hread content⟩

theorem beginsWith_of_unpack {buffer : Bytes} {resp : Response} (hroom : buffer.length < 2 ^ 32)
    (h : Response.unpack .new buffer = .ok (.Success, resp)) : BeginsWith buffer { resp with content_ := [] } := by
  obtain ⟨lines, hbuffer, hread⟩ := Message.exists_head_of_unpack hroom h
  exact ⟨lines, resp.content_, hbuffer, hread, rfl⟩

/-- A content that has the length given is whole, and no other. -/
theorem whole_iff_of_length {resp : Response} (h : Response.unpack .new c.buffer_ = .ok (.Success, resp))
    {value : Bytes} {n : ℕ} (hvalue : resp.contentLength = some value) (hn : IsNumeral 10 value n)
    (hlt : n < 2 ^ 31) : (∃ resp', c.Whole resp') ↔ resp.content_.length = n := by
  have hmeasured := Response.unpackAndCompleted_of_length h hvalue
  rw [measured_of_numeral hn, if_pos hlt] at hmeasured
  constructor
  · rintro ⟨resp', hwhole⟩
    rw [Whole, hmeasured, Except.ok.injEq, Prod.mk.injEq] at hwhole
    by_contra hne
    rw [if_neg (Ne.symm hne)] at hwhole
    cases hwhole.1
  · intro hlen
    rw [if_pos hlen.symm] at hmeasured
    exact ⟨resp, hmeasured⟩

/-- What a call reports. -/
theorem eq_of_call_mem {rst rst' : ReqResult} {resp resp' : Option Response} {callback : κ}
    (h : .call callback rst resp ∈ c.onResp rst' resp') : rst = rst' ∧ resp = resp' := by
  rw [onResp] at h
  split at h
  · cases h
  · cases List.mem_singleton.mp h
    exact ⟨rfl, rfl⟩

/-- What is reported while bytes are received is whole. -/
theorem complete_of_unpackAndCompleted {buffer : Bytes} {resp : Response} (hroom : buffer.length < 2 ^ 32)
    (h : Response.unpackAndCompleted .new buffer = .ok (.Success, resp))
    (hsizes : ∀ m, Response.unpack .new buffer = .ok (.Success, m) → Chunked m →
      NonnegSizes m.content_) : Complete buffer resp := by
  obtain ⟨m, hm, ⟨value, z, hvalue, hz, hlen, rfl⟩ | ⟨hnone, hchunked, hwhole⟩⟩ :=
    Response.unpackAndCompleted_success h
  · refine ⟨fun value' n hvalue' hn hlt => ?_, fun hresp => ?_⟩
    · rw [hvalue, Option.some.injEq] at hvalue'
      subst hvalue'
      rw [hn.stoi_eq (by decide) hlt, Except.ok.injEq] at hz
      rw [← hlen, ← hz, toUInt64_natCast]
    · rw [hresp.1] at hvalue
      cases hvalue
  · have hlen : m.content_.length < 2 ^ 63 := by
      have := Message.length_content_le hm
      omega
    obtain ⟨ds, w, hcoding, hpre, hcontent⟩ :=
      Response.coding_of_isCompletedChunked hwhole hlen (hsizes m hm ⟨hnone, hchunked⟩)
    obtain ⟨_, -, rfl⟩ := Response.isCompletedChunked_eq_ok hwhole
    refine ⟨fun value n hvalue _ _ => ?_, fun _ => ⟨m, ds, w, hm, hcoding, hpre, hcontent⟩⟩
    have hvalue : m.contentLength = some value := hvalue
    rw [hnone] at hvalue
    cases hvalue

/-- A step that meets the condition reports nothing but whole responses. -/
theorem Serving.reportsComplete (hc : Serving callback c) {e : Event} (h : c.WholeOnClose e) :
    c.ReportsComplete e := by
  rintro c' o callback' resp he hmem
  cases e with
  | message data =>
    obtain ⟨hlt, rst, resp', hresp, rfl, rfl⟩ := onMessage_eq_ok hc.room he
    split at hmem
    · next hrst =>
      subst hrst
      obtain ⟨-, hsame⟩ := eq_of_call_mem hmem
      cases hsame
      rw [← List.length_append] at hlt
      exact complete_of_unpackAndCompleted hlt hresp h
    · cases hmem
  | status status =>
    cases status with
    | OnConnectSuccess =>
      cases he
      simp at hmem
    | OnConnnectFail =>
      cases he
      have := (eq_of_call_mem hmem).1
      cases this
    | OnConnnectClose =>
      rw [HttpClient.handle, onConnectStatus, Exec.bind_eq_ok_iff] at he
      obtain ⟨⟨rst, resp'⟩, hresp, he⟩ := he
      dsimp only at he
      split at he
      · next hrst =>
        subst hrst
        cases he
        obtain ⟨-, hsame⟩ := eq_of_call_mem hmem
        cases hsame
        obtain ⟨hchunked, hwhole⟩ := h _ (beginsWith_of_unpack hc.room hresp)
        exact ⟨fun value n hvalue hn hlt =>
          (whole_iff_of_length hresp hvalue hn hlt).mp (hwhole ⟨value, n, hvalue, hn, hlt⟩),
          fun hc => absurd hc hchunked⟩
      · cases he
        have := (eq_of_call_mem hmem).1
        cases this

/-- On a close the condition is also necessary. -/
theorem Serving.wholeOnClose (hc : Serving callback c)
    (h : c.ReportsComplete (.status .OnConnnectClose)) : c.WholeOnClose (.status .OnConnnectClose) := by
  intro head hbegins
  obtain ⟨content, hresp⟩ := hbegins.unpack
  set resp : Response := { head with content_ := content } with hdef
  have hclose : c.handle (.status .OnConnnectClose) =
      .ok ({ c with isConnected := false }, [.call callback .Success (some resp)]) := by
    have hcall : c.onResp .Success (some resp) = [.call callback .Success (some resp)] := by
      rw [onResp, hc.callback]
    rw [HttpClient.handle, onConnectStatus, hresp, ← hcall]
    rfl
  obtain ⟨hlen, hdecoded⟩ := h _ _ callback resp hclose (List.mem_singleton.mpr rfl)
  refine ⟨fun hchunked => ?_, fun ⟨value, n, hvalue, hn, hlt⟩ =>
    (whole_iff_of_length hresp hvalue hn hlt).mpr (hlen value n hvalue hn hlt)⟩
  -- the content is what was received, and that is longer than what it codes
  obtain ⟨m, ds, w, hm, hcoding, hpre, hcontent⟩ := hdecoded hchunked
  have hm : Response.unpack .new c.buffer_ = .ok (.Success, m) := hm
  rw [hresp] at hm
  cases hm
  have h1 := hcoding.length_lt
  have h2 := hpre.length_le
  rw [hcontent] at h2
  omega

/-- **What the client reports is whole**, in every run in which the connection is not closed
before the response is. -/
theorem reports_complete (c : HttpClient κ) (callback : κ) (req : Request) {events : List Event}
    (h : AllSteps handle WholeOnClose ((c.setOnResp (some callback)).Req req) events) :
    AllSteps handle ReportsComplete ((c.setOnResp (some callback)).Req req) events := by
  rintro before e after c₁ os₁ hsplit hbefore
  have hc : Serving callback ((c.setOnResp (some callback)).Req req) := ⟨rfl, Nat.two_pow_pos 32⟩
  have hc₁ : Serving callback c₁ := runAll_invariant (fun _ _ _ _ hc h => hc.handle h) hbefore hc
  exact hc₁.reportsComplete (h before e after c₁ os₁ hsplit hbefore)

theorem reports_complete_sample :
    AllSteps handle ReportsComplete (((new : HttpClient Unit).setOnResp (some ())).Req .new)
      [.status .OnConnectSuccess, .message sampleWhole, .status .OnConnnectClose] := by
  have hresp : ∀ resp, Response.unpack .new sampleWhole = .ok (.Success, resp) →
      resp.contentLength = some (bytes "2") := by
    intro resp h
    cases h
    decide
  have hmessage : handle (⟨some (), .new, [], true⟩ : HttpClient Unit) (.message sampleWhole) =
      .ok (⟨some (), .new, sampleWhole, true⟩, _) := rfl
  refine reports_complete new () .new (.cons trivial fun c₁ o₁ h₁ => ?_)
  cases h₁
  refine .cons (fun resp h hchunked => ?_) fun c₂ o₂ h₂ => ?_
  · have hlen := hresp resp h
    rw [hchunked.1] at hlen
    cases hlen
  · cases hmessage.symm.trans h₂
    refine .cons (fun head hbegins => ⟨fun hchunked => ?_, fun _ => ⟨_, rfl⟩⟩) fun _ _ _ => .nil
    obtain ⟨content, hread⟩ := hbegins.unpack
    have hlen : head.contentLength = some (bytes "2") := hresp { head with content_ := content } hread
    rw [hchunked.1] at hlen
    cases hlen

/-- The connection is closed one byte before the end of the content, and what there is of it is
reported. -/
theorem not_reports_complete_cut :
    Session [.status .OnConnectSuccess, .message (sampleWhole.take 39), .status .OnConnnectClose] ∧
      ¬ AllSteps handle ReportsComplete (((new : HttpClient Unit).setOnResp (some ())).Req .new)
        [.status .OnConnectSuccess, .message (sampleWhole.take 39), .status .OnConnnectClose] := by
  refine ⟨@Session.closed [sampleWhole.take 39] (by decide), fun h => ?_⟩
  have hclose := h [_, _] (.status .OnConnnectClose) [] ⟨some (), .new, sampleWhole.take 39, true⟩ _ rfl rfl
  obtain ⟨resp, hresp, hlen, hcontent⟩ : ∃ resp,
      handle (⟨some (), .new, sampleWhole.take 39, true⟩ : HttpClient Unit) (.status .OnConnnectClose) =
          .ok (⟨some (), .new, sampleWhole.take 39, false⟩, [.call () .Success (some resp)]) ∧
        resp.contentLength = some (bytes "2") ∧ resp.content_.length = 1 :=
    ⟨_, rfl, by decide, by decide⟩
  have hright := (hclose _ _ () resp hresp List.mem_cons_self).rightLength _ 2 hlen
    ⟨by decide, by decide +kernel, by decide +kernel⟩ (by decide)
  rw [hcontent] at hright
  cases hright

end HttpClient

end UvCpp.Http
