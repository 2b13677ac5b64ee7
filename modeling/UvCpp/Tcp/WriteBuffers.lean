import UvCpp.Tcp.Writes
import UvCpp.Systems.Blocks
import UvCpp.Systems.Duplex

/-!
# Write buffers

`uv_write` does not copy what it is to write: libuv takes the bytes out of the buffer, at once as far as the
socket accepts them, and the others later. The buffer must stay until libuv calls back.

The functions that use `write` part here. `sendProtocol` of the example `rpc` passes an array that the write
callback deletes: it stays as long as it is needed, and is deleted once, whatever becomes of the write.
`HttpServer::onMesage`, `HttpClient::onConnectStatus` and the packet examples pass a string that is a local
variable, which is gone when the function returns. That is in order as long as libuv takes every such write
whole at once (`buffers_kept`); the first one it does not take whole is read after it is gone
(`next_safe_iff`).
-/

namespace UvCpp

open UvCpp.Cpp UvCpp.Systems

namespace WriteSystem

variable {ι κ : Type} {s s' : WriteSystem ι κ} {ticket : ℕ} {args : WriteArgs κ}

/-- The connection that a write goes to, if there is one. -/
def target (s : WriteSystem ι κ) : Writer → Option ℕ
  | .connection id => some id
  | .server connection => connection
  | .serverName name => s.connnections_ name
  | .client => s.connection_

/-- `uv_write` is called for a write, and accepts it. -/
def Accepts (s : WriteSystem ι κ) (w : Writer) (rst : ℤ) : Prop :=
  ∃ id c h, s.target w = some id ∧ s.connections id = some (c, h) ∧ c.connected_ = true ∧ rst = 0

/-- What comes of a write: libuv accepts it, or it is refused and the callback is told so. -/
inductive Outcome (s : WriteSystem ι κ) (ticket : ℕ) (args : WriteArgs κ) : Bool → WriteSystem ι κ → Prop where
  /-- libuv has a request. -/
  | accepted (connections : ℕ → Option (TcpConnection ι × UvTcp)) : Outcome s ticket args true
      { s with
        connections, requests := s.requests ++ [⟨ticket, args.buf, args.size % 2 ^ 32, args.callback⟩] }
  /-- The callback is invoked, if there is one. -/
  | refused {status : ℤ} : status ≠ 0 →
      Outcome s ticket args false (s.invokeIf ticket args.callback ⟨status, args.buf, args.size⟩)

theorem disconnected_ne_zero : WriteInfo.Disconnected ≠ 0 := by decide

theorem outcome_write (s : WriteSystem ι κ) (id : ℕ) (c : TcpConnection ι) (h : UvTcp) (ticket : ℕ)
    (args : WriteArgs κ) (rst : ℤ) :
    Outcome s ticket args (c.connected_ && rst = 0) (s.write id c h ticket args rst) := by
  rw [WriteSystem.write, TcpConnection.write]
  by_cases hconnected : c.connected_ = true
  · by_cases hrst : rst = 0
    · rw [if_pos hconnected, if_pos hrst]
      simpa [hconnected, hrst] using Outcome.accepted _
    · rw [if_pos hconnected, if_neg hrst]
      simpa [hconnected, hrst] using Outcome.refused hrst
  · rw [if_neg hconnected]
    simpa [hconnected] using Outcome.refused (show (-1 : ℤ) ≠ 0 by decide)

@[simp] theorem asked_invokeIf {callback : Option κ} {info : WriteInfo} :
    (s.invokeIf ticket callback info).asked = s.asked := by
  cases callback <;> rfl

@[simp] theorem posted_invokeIf {callback : Option κ} {info : WriteInfo} :
    (s.invokeIf ticket callback info).posted = s.posted := by
  cases callback <;> rfl

@[simp] theorem requests_invokeIf {callback : Option κ} {info : WriteInfo} :
    (s.invokeIf ticket callback info).requests = s.requests := by
  cases callback <;> rfl

theorem mem_invokeIf {callback : Option κ} {info : WriteInfo} {i : Invocation κ}
    (h : i ∈ (s.invokeIf ticket callback info).invoked) : i ∈ s.invoked ∨ i = ⟨ticket, callback, info⟩ := by
  cases callback with
  | none => exact .inl h
  | some callback =>
    obtain hi | hi := List.mem_append.mp h
    · exact .inl hi
    · exact .inr (List.mem_singleton.mp hi)

/-- What comes of a write to a connection. -/
theorem outcome_connectionWrite {id : ℕ} {rst : ℤ} (h : s.connectionWrite id ticket args rst = some s') :
    ∃ c handle, s.connections id = some (c, handle) ∧ Outcome s ticket args (c.connected_ && rst = 0) s' := by
  simp only [WriteSystem.connectionWrite, Option.bind_eq_bind, Option.bind_eq_some_iff, Prod.exists] at h
  obtain ⟨c, handle, hconn, h⟩ := h
  cases h
  exact ⟨c, handle, hconn, outcome_write s id c handle ticket args rst⟩

/-- What comes of `write`. -/
theorem outcome_of_write {w : Writer} {rst : ℤ} (h : s.step (.write w args rst) = some s') :
    s.Accepts w rst ∧ Outcome (s.ask args) s.asked.length args true s' ∨
      ¬ s.Accepts w rst ∧ Outcome (s.ask args) s.asked.length args false s' := by
  have hconnection {id : ℕ} (hid : s.target w = some id)
      (h : (s.ask args).connectionWrite id s.asked.length args rst = some s') :
      s.Accepts w rst ∧ Outcome (s.ask args) s.asked.length args true s' ∨
        ¬ s.Accepts w rst ∧ Outcome (s.ask args) s.asked.length args false s' := by
    obtain ⟨c, handle, hconn, hout⟩ := outcome_connectionWrite h
    cases hb : (c.connected_ && decide (rst = 0)) with
    | true =>
      rw [hb] at hout
      rw [Bool.and_eq_true, decide_eq_true_eq] at hb
      exact .inl ⟨⟨id, c, handle, hid, hconn, hb⟩, hout⟩
    | false =>
      rw [hb] at hout
      refine .inr ⟨?_, hout⟩
      rintro ⟨id', c', handle', hid', hconn', hconnected, hrst⟩
      rw [hid, Option.some.injEq] at hid'
      subst hid'
      rw [show s.connections id = some (c, handle) from hconn, Option.some.injEq, Prod.mk.injEq] at hconn'
      rw [hconn'.1, hconnected, hrst] at hb
      cases hb
  have hor {connection : Option ℕ} (htarget : s.target w = connection)
      (h : (s.ask args).serverWrite connection s.asked.length args rst = some s') :
      s.Accepts w rst ∧ Outcome (s.ask args) s.asked.length args true s' ∨
        ¬ s.Accepts w rst ∧ Outcome (s.ask args) s.asked.length args false s' := by
    cases connection with
    | some id => exact hconnection htarget h
    | none =>
      cases h
      refine .inr ⟨?_, .refused disconnected_ne_zero⟩
      rintro ⟨id, _, _, hid, -⟩
      rw [htarget] at hid
      cases hid
  simp only [WriteSystem.step, Option.ite_none_right_eq_some] at h
  obtain ⟨-, h⟩ := h
  cases w with
  | connection id => exact hconnection rfl h
  | server connection => exact hor rfl h
  | serverName name => exact hor rfl h
  | client => exact hor rfl h

/-- What comes of `writeInLoop`: the write is posted, unless there is no connection. -/
theorem outcome_of_writeInLoop {w : Writer} (h : s.step (.writeInLoop w args) = some s') :
    (∃ id, s' = { s.ask args with posted := s.posted ++ [⟨s.asked.length, id, args⟩] }) ∨
      Outcome (s.ask args) s.asked.length args false s' := by
  have hconnection {id : ℕ} (h : (s.ask args).connectionWriteInLoop id s.asked.length args = some s') :
      ∃ id, s' = { s.ask args with posted := s.posted ++ [⟨s.asked.length, id, args⟩] } := by
    simp only [WriteSystem.connectionWriteInLoop, Option.bind_eq_bind, Option.bind_eq_some_iff] at h
    obtain ⟨-, -, h⟩ := h
    cases h
    exact ⟨id, rfl⟩
  have hor {connection : Option ℕ}
      (h : (s.ask args).serverWriteInLoop connection s.asked.length args = some s') :
      (∃ id, s' = { s.ask args with posted := s.posted ++ [⟨s.asked.length, id, args⟩] }) ∨
        Outcome (s.ask args) s.asked.length args false s' := by
    cases connection with
    | some id => exact .inl (hconnection h)
    | none =>
      cases h
      exact .inr (.refused disconnected_ne_zero)
  simp only [WriteSystem.step, Option.ite_none_right_eq_some] at h
  obtain ⟨-, h⟩ := h
  cases w with
  | connection id => exact .inl (hconnection h)
  | server connection => exact hor h
  | serverName name => exact hor h
  | client => exact hor h

/-- What comes of a posted write with a callback, when the loop runs it. -/
theorem outcome_of_run {k : ℕ} {rst : ℤ} (h : s.step (.run k rst) = some s') :
    ∃ f, s.posted[k]? = some f ∧ (f.args.callback ≠ none →
      ∃ b, Outcome { s with posted := s.posted.eraseIdx k } f.ticket f.args b s') := by
  simp only [WriteSystem.step, Option.bind_eq_bind, Option.bind_eq_some_iff] at h
  obtain ⟨f, hf, h⟩ := h
  cases h
  refine ⟨f, hf, fun hcallback => ?_⟩
  rw [WriteSystem.runPosted]
  split
  · next c handle _ => exact ⟨_, outcome_write _ f.conn c handle f.ticket f.args rst⟩
  · have hrefused := @Outcome.refused ι κ { s with posted := s.posted.eraseIdx k } f.ticket f.args _
      disconnected_ne_zero
    rw [invokeIf, if_pos (Option.isSome_iff_ne_none.mpr hcallback)] at hrefused
    exact ⟨false, hrefused⟩

end WriteSystem

/-- What a write callback does, as far as buffers go. -/
inductive AfterWrite where
  /-- `delete[] info.buf`. -/
  | delete
  /-- Something else. -/
  | other
  deriving DecidableEq

/-- The writes, and the memory that they are made from. -/
structure WriteBuffers (ι : Type) where
  /-- The connections and the writes. The address of a buffer is its place in the memory. -/
  system : WriteSystem ι AfterWrite
  /-- The buffers there have been. -/
  memory : Blocks UInt8
  /-- What was to be written, by tickets. -/
  given : List Bytes
  /-- What libuv has taken of each write. -/
  taken : ℕ → Bytes

namespace WriteBuffers

variable {ι : Type}

/-- Nothing has been written. -/
def new : WriteBuffers ι := ⟨.new, [], [], fun _ => []⟩

/-- libuv takes `n` bytes more of a write. -/
def take (n : ℕ) (s : WriteBuffers ι) (r : WriteReq AfterWrite) : Exec (WriteBuffers ι) := do
  let more ← s.memory.read r.base (s.taken r.ticket).length n
  .ok { s with taken := Function.update s.taken r.ticket (s.taken r.ticket ++ more) }

/-- A write callback runs. -/
def runCallback (s : WriteBuffers ι) (i : Invocation AfterWrite) : Exec (WriteBuffers ι) :=
  match i.callback with
  | none => .error .thrown
  | some .other => .ok s
  | some .delete => do
    let memory ← s.memory.release i.info.buf
    .ok { s with memory }

/-- The writes change: libuv takes `n` bytes at once of a request that is new, and the callbacks that are
invoked run. -/
def settle (s : WriteBuffers ι) (system : WriteSystem ι AfterWrite) (n : ℕ) : Exec (WriteBuffers ι) := do
  let t ← (system.requests.drop s.system.requests.length).foldlM (take n) { s with system }
  (system.invoked.drop s.system.invoked.length).foldlM runCallback t

/-- What happens. -/
inductive Event (ι : Type) where
  /-- `sendProtocol` of the example `rpc`, with what has been packed. -/
  | sendProtocol (w : WriteSystem.Writer) (data : Bytes)
  /-- A function writes from a local variable, and returns. `rst` is what `uv_write` returns, if it is
  called, and `n` is how much libuv takes at once, if it accepts the write. -/
  | writeLocal (w : WriteSystem.Writer) (data : Bytes) (callback : Option AfterWrite) (rst : ℤ) (n : ℕ)
  /-- The loop runs a posted function. -/
  | run (k : ℕ) (rst : ℤ) (n : ℕ)
  /-- libuv takes more of a write. -/
  | take (k n : ℕ)
  /-- libuv calls back. -/
  | written (k : ℕ) (status : ℤ)
  /-- Connections are made, disconnected, closed and destroyed. -/
  | change (connections : ℕ → Option (TcpConnection ι × UvTcp)) (connnections_ : Bytes → Option ℕ)
      (connection_ : Option ℕ)

/-- What happens to the writes; the buffer is a new one. -/
def event (s : WriteBuffers ι) : Event ι → Option (WriteSystem.Event ι AfterWrite)
  | .sendProtocol w data => some (.writeInLoop w ⟨s.memory.length, data.length, some .delete⟩)
  | .writeLocal w data callback rst _ => some (.write w ⟨s.memory.length, data.length, callback⟩ rst)
  | .run k rst _ => some (.run k rst)
  | .take _ _ => none
  | .written k status => some (.written k status)
  | .change connections connnections_ connection_ => some (.change connections connnections_ connection_)

/-- A buffer is filled. -/
def fill (s : WriteBuffers ι) (data : Bytes) : WriteBuffers ι :=
  { s with memory := s.memory.alloc data, given := s.given ++ [data] }

/-- A step. -/
def step (s : WriteBuffers ι) (e : Event ι) : Exec (WriteBuffers ι) :=
  match e, (s.event e).bind s.system.step with
  | .sendProtocol _ data, some system => (s.fill data).settle system 0
  | .writeLocal _ data _ _ n, some system => do
    let t ← (s.fill data).settle system n
    let memory ← t.memory.release s.memory.length
    .ok { t with memory }
  | .run _ _ n, some system => s.settle system n
  | .take k n, _ =>
    match s.system.requests[k]? with
    | none => .error .undefined
    | some r => s.take n r
  | .written _ _, some system => s.settle system 0
  | .change _ _ _, some system => s.settle system 0
  | _, none => .error .undefined

/-- What can happen. An `int` is the size of a protocol; a `uv_buf_t` has a size of 32 bits. libuv takes no
more than there is, and reports success when it has taken everything. -/
def Allows (s : WriteBuffers ι) (e : Event ι) : Prop :=
  (∀ e' ∈ s.event e, (s.system.step e').isSome) ∧
  match e with
  | .sendProtocol _ data => data.length < 2 ^ 31
  | .writeLocal _ data callback _ n => data.length < 2 ^ 32 ∧ n ≤ data.length ∧ callback ≠ some .delete
  | .run k _ n => ∀ f, s.system.posted[k]? = some f → n ≤ f.args.size
  | .take k n => 0 < n ∧ ∃ r, s.system.requests[k]? = some r ∧ (s.taken r.ticket).length + n ≤ r.len
  | .written k status => ∀ r, s.system.requests[k]? = some r → status = 0 → (s.taken r.ticket).length = r.len
  | .change _ _ _ => True

/-- If libuv accepts a write from a local variable, it takes it whole at once. -/
def Whole (s : WriteBuffers ι) : Event ι → Prop
  | .writeLocal w data _ rst n => s.system.Accepts w rst → n = data.length
  | _ => True

/-! ### What is kept -/

/-- What holds of a write: the array of a protocol is there as long as the write waits, and a local variable
is gone and no longer needed. -/
structure Entry (s : WriteBuffers ι) (t : ℕ) (args : WriteArgs AfterWrite) (data : Bytes) : Prop where
  /-- The address is the ticket. -/
  buf : args.buf = t
  /-- The size is that of the data. -/
  size : args.size = data.length
  /-- It has 32 bits. -/
  short : data.length < 2 ^ 32
  /-- libuv has taken the beginning. -/
  taken : s.taken t <+: data
  /-- The array of a protocol. -/
  own : args.callback = some .delete → s.memory[t]? = some (if s.system.Waits t then some data else none)
  /-- A local variable. -/
  gone : args.callback ≠ some .delete →
    s.memory[t]? = some none ∧ (t ∈ s.system.requests.map (·.ticket) → s.taken t = data)

/-- The invariant. -/
structure Inv (s : WriteBuffers ι) : Prop where
  /-- Each write with a callback is in one place. -/
  ledger : s.system.Ledger []
  /-- What is posted is a protocol, and libuv has nothing of it. -/
  posted : ∀ f ∈ s.system.posted, f.args.callback = some .delete ∧ s.taken f.ticket = []
  /-- libuv knows the sizes. -/
  requests : ∀ r ∈ s.system.requests, ∃ data, s.given[r.ticket]? = some data ∧ r.len = data.length
  /-- There is something to be written for each write. -/
  given : s.given.length = s.system.asked.length
  /-- There is a buffer for each write. -/
  memory : s.memory.length = s.system.asked.length
  /-- What holds of each. -/
  entry : ∀ t args data, s.system.asked[t]? = some args → s.given[t]? = some data → s.Entry t args data
  /-- Nothing is taken of a write before it is asked for. -/
  fresh : ∀ t, s.system.asked.length ≤ t → s.taken t = []
  /-- Everything is taken of a write that succeeds. -/
  success : ∀ i ∈ s.system.invoked, i.info.status = 0 → s.given[i.ticket]? = some (s.taken i.ticket)

/-- Nothing changes but for one write. -/
structure Apart (s s' : WriteBuffers ι) (t₀ : ℕ) : Prop where
  /-- The buffers of the others. -/
  memory : ∀ t, t ≠ t₀ → s'.memory[t]? = s.memory[t]?
  /-- What is taken of the others. -/
  taken : ∀ t, t ≠ t₀ → s'.taken t = s.taken t
  /-- The others are posted still. -/
  posted : ∀ t, t ≠ t₀ → (t ∈ s'.system.posted.map (·.ticket) ↔ t ∈ s.system.posted.map (·.ticket))
  /-- libuv holds the others still. -/
  requests : ∀ t, t ≠ t₀ → (t ∈ s'.system.requests.map (·.ticket) ↔ t ∈ s.system.requests.map (·.ticket))

variable {s s' : WriteBuffers ι} {t t₀ n k : ℕ} {args : WriteArgs AfterWrite} {data : Bytes}
  {system base : WriteSystem ι AfterWrite}

theorem Entry.apart (h : s.Entry t args data) (hapart : Apart s s' t₀) (hne : t ≠ t₀) : s'.Entry t args data := by
  have hwaits : s'.system.Waits t ↔ s.system.Waits t := or_congr (hapart.posted t hne) (hapart.requests t hne)
  refine ⟨h.buf, h.size, h.short, hapart.taken t hne ▸ h.taken, fun hdelete => ?_, fun hother => ?_⟩
  · rw [hapart.memory t hne, h.own hdelete]
    simp only [hwaits]
  · obtain ⟨hmemory, hall⟩ := h.gone hother
    refine ⟨(hapart.memory t hne).trans hmemory, fun hmem => ?_⟩
    rw [hapart.taken t hne]
    exact hall ((hapart.requests t hne).mp hmem)

/-! ### The writes change -/

/-- The request that libuv has of a write. -/
def request (t : ℕ) (args : WriteArgs AfterWrite) : WriteReq AfterWrite :=
  ⟨t, args.buf, args.size % 2 ^ 32, args.callback⟩

/-- libuv accepts a write, and takes some of it at once. -/
theorem settle_accepted (h : base.Outcome t args true system) (hrequests : base.requests = s.system.requests)
    (hinvoked : base.invoked = s.system.invoked) (n : ℕ) :
    system.asked = base.asked ∧ system.posted = base.posted ∧ system.invoked = s.system.invoked ∧
      system.requests = s.system.requests ++ [request t args] ∧
      s.settle system n = take n { s with system } (request t args) := by
  cases h with
  | accepted connections =>
    refine ⟨rfl, rfl, hinvoked, by rw [hrequests]; rfl, ?_⟩
    rw [settle]
    dsimp only
    rw [hrequests, hinvoked, List.drop_left, List.drop_length]
    simp only [List.foldlM_cons, List.foldlM_nil, bind_pure]
    rfl

/-- A callback runs, if there is one. -/
theorem settle_invokeIf (hrequests : base.requests.length ≤ s.system.requests.length)
    (hinvoked : base.invoked = s.system.invoked) (callback : Option AfterWrite) (info : WriteInfo) (n : ℕ) :
    s.settle (base.invokeIf t callback info) n = (match callback with
      | none => .ok { s with system := base.invokeIf t callback info }
      | some callback => runCallback { s with system := base.invokeIf t (some callback) info }
          ⟨t, some callback, info⟩) := by
  rw [settle]
  cases callback with
  | none =>
    rw [show base.invokeIf t none info = base from rfl, List.drop_of_length_le hrequests, hinvoked, List.drop_length]
    rfl
  | some callback =>
    rw [show (base.invokeIf t (some callback) info).requests = base.requests from rfl,
      show (base.invokeIf t (some callback) info).invoked = base.invoked ++ [⟨t, some callback, info⟩] from rfl,
      List.drop_of_length_le hrequests, hinvoked, List.drop_left, List.foldlM_nil, Exec.pure_eq_ok, Exec.ok_bind]
    simp only [List.foldlM_cons, List.foldlM_nil, bind_pure]

/-- A write is refused, and its callback runs. -/
theorem settle_refused (h : base.Outcome t args false system) (hrequests : base.requests = s.system.requests)
    (hinvoked : base.invoked = s.system.invoked) (n : ℕ) : ∃ status, status ≠ 0 ∧
      system.asked = base.asked ∧ system.posted = base.posted ∧ system.requests = s.system.requests ∧
      (∀ i ∈ system.invoked, i.info.status = 0 → i ∈ s.system.invoked) ∧
      s.settle system n = (match args.callback with
        | none => .ok { s with system }
        | some callback => runCallback { s with system } ⟨t, some callback, ⟨status, args.buf, args.size⟩⟩) := by
  cases h with
  | @refused status hstatus =>
    refine ⟨status, hstatus, WriteSystem.asked_invokeIf, WriteSystem.posted_invokeIf,
      WriteSystem.requests_invokeIf.trans hrequests, fun i hi hzero => ?_, ?_⟩
    · obtain hi | rfl := WriteSystem.mem_invokeIf hi
      · exact hinvoked ▸ hi
      · exact absurd hzero hstatus
    · rw [settle_invokeIf (congrArg List.length hrequests).le hinvoked]
      cases args.callback <;> rfl

/-- No request is new, and no callback is invoked. -/
theorem settle_of_same (hrequests : system.requests = s.system.requests)
    (hinvoked : system.invoked = s.system.invoked) (n : ℕ) : s.settle system n = .ok { s with system } := by
  rw [settle, hrequests, hinvoked, List.drop_length, List.drop_length]
  rfl

/-- The array of a protocol is deleted. -/
theorem runCallback_delete {info : WriteInfo} (hlive : s.memory[info.buf]? = some (some data)) :
    s.runCallback ⟨t, some .delete, info⟩ = .ok { s with memory := s.memory.set info.buf none } := by
  rw [runCallback]
  dsimp only
  rw [Blocks.release_of_live hlive]
  rfl

theorem Inv.lt_of_requests (h : s.Inv) {r : WriteReq AfterWrite} (hr : r ∈ s.system.requests) :
    r.ticket < s.system.asked.length := by
  obtain ⟨data, hdata, -⟩ := h.requests r hr
  rw [← h.given]
  exact (List.getElem?_eq_some_iff.mp hdata).1

theorem Inv.lt_of_invoked (h : s.Inv) {i : Invocation AfterWrite} (hi : i ∈ s.system.invoked) :
    i.ticket < s.system.asked.length := by
  obtain ⟨-, args, hargs, -⟩ := h.ledger.invoked i hi
  exact (List.getElem?_eq_some_iff.mp hargs).1

/-- Something happens to a write that was asked for. -/
theorem Inv.update (h : s.Inv) (hledger : s'.system.Ledger []) (hlt : t₀ < s.system.asked.length)
    (hasked : s'.system.asked = s.system.asked) (hgiven : s'.given = s.given)
    (hmemory : s'.memory.length = s.memory.length) (hapart : Apart s s' t₀)
    (hposted : ∀ f ∈ s'.system.posted, f ∈ s.system.posted ∧ s'.taken f.ticket = s.taken f.ticket)
    (hrequests : ∀ r ∈ s'.system.requests, r ∈ s.system.requests ∨
      ∃ data, s.given[r.ticket]? = some data ∧ r.len = data.length)
    (hentry : ∀ args data, s.system.asked[t₀]? = some args → s.given[t₀]? = some data →
      s'.Entry t₀ args data)
    (hsuccess : ∀ i ∈ s'.system.invoked, i.info.status = 0 →
      i ∈ s.system.invoked ∧ i.ticket ≠ t₀ ∨ s.given[i.ticket]? = some (s'.taken i.ticket)) : s'.Inv := by
  refine ⟨hledger, fun f hf => ?_, fun r hr => ?_, ?_, ?_, fun t args data hargs hdata => ?_, fun t ht => ?_,
    fun i hi hstatus => ?_⟩
  · obtain ⟨hold, htaken⟩ := hposted f hf
    rw [htaken]
    exact h.posted f hold
  · rw [hgiven]
    exact (hrequests r hr).elim (h.requests r) id
  · rw [hgiven, hasked, h.given]
  · rw [hmemory, hasked, h.memory]
  · rw [hasked] at hargs
    rw [hgiven] at hdata
    by_cases hne : t = t₀
    · subst hne
      exact hentry args data hargs hdata
    · exact (h.entry t args data hargs hdata).apart hapart hne
  · rw [hasked] at ht
    rw [hapart.taken t (by omega)]
    exact h.fresh t ht
  · rw [hgiven]
    obtain ⟨hold, hne⟩ | hnow := hsuccess i hi hstatus
    · rw [hapart.taken i.ticket hne]
      exact h.success i hold hstatus
    · exact hnow

/-- A write is asked for. -/
theorem Inv.insert (h : s.Inv) (hledger : s'.system.Ledger []) (hasked : s'.system.asked = s.system.asked ++ [args])
    (hgiven : s'.given = s.given ++ [data]) (hmemory : s'.memory.length = s.memory.length + 1)
    (hapart : Apart s s' s.system.asked.length)
    (hposted : ∀ f ∈ s'.system.posted, f ∈ s.system.posted ∨
      f.args.callback = some .delete ∧ s'.taken f.ticket = [])
    (hrequests : ∀ r ∈ s'.system.requests, r ∈ s.system.requests ∨
      r.ticket = s.system.asked.length ∧ r.len = data.length)
    (hentry : s'.Entry s.system.asked.length args data)
    (hsuccess : ∀ i ∈ s'.system.invoked, i.info.status = 0 → i ∈ s.system.invoked) : s'.Inv := by
  have hold {t : ℕ} (ht : t < s.system.asked.length) : (s.given ++ [data])[t]? = s.given[t]? :=
    List.getElem?_append_left (h.given ▸ ht)
  have hnew : (s.given ++ [data])[s.system.asked.length]? = some data := by
    rw [← h.given, List.getElem?_concat_length]
  refine ⟨hledger, fun f hf => ?_, fun r hr => ?_, ?_, ?_, fun t args' data' hargs hdata => ?_, fun t ht => ?_,
    fun i hi hstatus => ?_⟩
  · obtain hf | hf := hposted f hf
    · have hlt : f.ticket < s.system.asked.length :=
        (List.getElem?_eq_some_iff.mp (h.ledger.posted f hf)).1
      rw [hapart.taken f.ticket hlt.ne]
      exact h.posted f hf
    · exact hf
  · rw [hgiven]
    obtain hr | ⟨hticket, hlen⟩ := hrequests r hr
    · rw [hold (h.lt_of_requests hr)]
      exact h.requests r hr
    · exact ⟨data, hticket ▸ hnew, hlen⟩
  · rw [hgiven, hasked, List.length_append, List.length_append, h.given]
    rfl
  · rw [hmemory, hasked, List.length_append, h.memory]
    rfl
  · rw [hasked] at hargs
    rw [hgiven] at hdata
    by_cases hne : t = s.system.asked.length
    · subst hne
      rw [List.getElem?_concat_length, Option.some.injEq] at hargs
      rw [hnew, Option.some.injEq] at hdata
      exact hargs ▸ hdata ▸ hentry
    · have hlt := (List.getElem?_eq_some_iff.mp hargs).1
      rw [List.length_append, List.length_singleton] at hlt
      rw [List.getElem?_append_left (by omega)] at hargs
      rw [hold (by omega)] at hdata
      exact (h.entry t args' data' hargs hdata).apart hapart hne
  · rw [hasked, List.length_append, List.length_singleton] at ht
    rw [hapart.taken t (by omega)]
    exact h.fresh t (by omega)
  · have hi := hsuccess i hi hstatus
    have hlt := h.lt_of_invoked hi
    rw [hgiven, hold hlt, hapart.taken i.ticket hlt.ne]
    exact h.success i hi hstatus

/-! ### The steps -/

/-- A ticket that is new is that of no write that waits. -/
theorem Inv.not_waits (h : s.Inv) : ¬ s.system.Waits s.system.asked.length := by
  rintro (hmem | hmem)
  · exact lt_irrefl _ (h.ledger.lt_of_mem (List.mem_append_left _ (List.mem_append_left _ hmem)))
  · exact lt_irrefl _ (h.ledger.lt_of_mem (List.mem_append_left _ (List.mem_append_right _ hmem)))

/-- A write with a callback is in one place. -/
theorem count_eq_one (h : system.Ledger []) (hargs : system.asked[t]? = some args)
    (hcallback : args.callback ≠ none) :
    (system.posted.map (·.ticket)).count t + (system.requests.map (·.ticket)).count t + system.times t = 1 := by
  have hone := h.once t args hargs hcallback
  rwa [List.append_nil, WriteSystem.count_tickets] at hone

/-- Others are not concerned when something is taken out of a list. -/
theorem mem_map_eraseIdx_iff {α : Type} (f : α → ℕ) {l : List α} {a : α} (ha : l[k]? = some a) (hne : t ≠ f a) :
    t ∈ (l.eraseIdx k).map f ↔ t ∈ l.map f := by
  have hcount := WriteSystem.count_map_eraseIdx f ha t
  rw [List.count_singleton, if_neg (by simpa using hne.symm), Nat.add_zero] at hcount
  rw [← List.count_pos_iff, hcount, List.count_pos_iff]

/-- A function that the loop takes out was posted once, and is for a write that is nowhere else. -/
theorem not_mem_of_posted (h : s.system.Ledger []) {f : PostedWrite AfterWrite} (hf : s.system.posted[k]? = some f)
    (hcallback : f.args.callback ≠ none) :
    f.ticket ∉ (s.system.posted.eraseIdx k).map (·.ticket) ∧ f.ticket ∉ s.system.requests.map (·.ticket) ∧
      ∀ i ∈ s.system.invoked, i.ticket ≠ f.ticket := by
  have hone := count_eq_one h (h.posted f (List.mem_of_getElem? hf)) hcallback
  have herase := WriteSystem.count_map_eraseIdx (fun f => f.ticket) hf f.ticket
  rw [List.count_singleton_self] at herase
  refine ⟨List.count_eq_zero.mp (by omega), List.count_eq_zero.mp (by omega), fun i hi heq => ?_⟩
  have hpos : 0 < s.system.times f.ticket := List.count_pos_iff.mpr (heq ▸ List.mem_map_of_mem hi)
  omega

/-- So is a request with a callback that libuv calls back for. -/
theorem not_mem_of_request (h : s.system.Ledger []) {r : WriteReq AfterWrite}
    (hr : s.system.requests[k]? = some r) (hcallback : r.callback ≠ none) :
    r.ticket ∉ s.system.posted.map (·.ticket) ∧ r.ticket ∉ (s.system.requests.eraseIdx k).map (·.ticket) ∧
      ∀ i ∈ s.system.invoked, i.ticket ≠ r.ticket := by
  obtain ⟨args, hargs, hsame, -⟩ := h.requests r (List.mem_of_getElem? hr)
  have hone := count_eq_one h hargs (hsame ▸ hcallback)
  have herase := WriteSystem.count_map_eraseIdx (fun r => r.ticket) hr r.ticket
  rw [List.count_singleton_self] at herase
  refine ⟨List.count_eq_zero.mp (by omega), List.count_eq_zero.mp (by omega), fun i hi heq => ?_⟩
  have hpos : 0 < s.system.times r.ticket := List.count_pos_iff.mpr (heq ▸ List.mem_map_of_mem hi)
  omega

/-- The array of a protocol that waits is there. -/
theorem Inv.exists_live (h : s.Inv) (hargs : s.system.asked[t]? = some args) (hdelete : args.callback = some .delete)
    (hwaits : s.system.Waits t) : ∃ data, s.given[t]? = some data ∧ s.memory[t]? = some (some data) ∧
      args.buf = t ∧ args.size = data.length ∧ data.length < 2 ^ 32 ∧ s.taken t <+: data := by
  have hlt : t < s.given.length := h.given ▸ (List.getElem?_eq_some_iff.mp hargs).1
  have hdata : s.given[t]? = some s.given[t] := List.getElem?_eq_getElem hlt
  have hentry := h.entry t args _ hargs hdata
  refine ⟨_, hdata, ?_, hentry.buf, hentry.size, hentry.short, hentry.taken⟩
  rw [hentry.own hdelete, if_pos hwaits]

/-- A protocol ends, and its array is deleted. -/
theorem Inv.released (h : s.Inv) (hledger : system.Ledger []) (hargs : s.system.asked[t]? = some args)
    (hdelete : args.callback = some .delete) (hasked : system.asked = s.system.asked)
    (hposted : ∀ f ∈ system.posted, f ∈ s.system.posted) (hrequests : ∀ r ∈ system.requests, r ∈ s.system.requests)
    (hwaiting : ∀ t', t' ≠ t → (t' ∈ system.posted.map (·.ticket) ↔ t' ∈ s.system.posted.map (·.ticket)) ∧
      (t' ∈ system.requests.map (·.ticket) ↔ t' ∈ s.system.requests.map (·.ticket)))
    (hnot : ¬ system.Waits t)
    (hsuccess : ∀ i ∈ system.invoked, i.info.status = 0 →
      i ∈ s.system.invoked ∧ i.ticket ≠ t ∨ s.given[i.ticket]? = some (s.taken i.ticket)) :
    ({ s with system, memory := s.memory.set t none } : WriteBuffers ι).Inv := by
  have hlt : t < s.system.asked.length := (List.getElem?_eq_some_iff.mp hargs).1
  refine h.update hledger hlt hasked rfl List.length_set ⟨fun t' hne => List.getElem?_set_ne hne.symm, fun _ _ => rfl,
    fun t' hne => (hwaiting t' hne).1, fun t' hne => (hwaiting t' hne).2⟩ (fun f hf => ⟨hposted f hf, rfl⟩)
    (fun r hr => .inl (hrequests r hr)) (fun args' data hargs' hdata => ?_) hsuccess
  rw [hargs, Option.some.injEq] at hargs'
  subst hargs'
  have hentry := h.entry t args data hargs hdata
  refine ⟨hentry.buf, hentry.size, hentry.short, hentry.taken, fun _ => ?_, fun hother => absurd hdelete hother⟩
  rw [if_neg hnot]
  exact List.getElem?_set_self (h.memory ▸ hlt)

/-- A protocol is sent. -/
theorem Inv.sendProtocol (h : s.Inv) {w : WriteSystem.Writer} (hshort : data.length < 2 ^ 31)
    (hsystem : s.system.step (.writeInLoop w ⟨s.memory.length, data.length, some .delete⟩) = some system) :
    ∃ s', (s.fill data).settle system 0 = .ok s' ∧ s'.Inv := by
  have hledger : system.Ledger [] := by
    refine h.ledger.step ?_ hsystem
    trivial
  have hnew : s.taken s.system.asked.length = [] := h.fresh _ le_rfl
  obtain ⟨id, hposted⟩ | hout := WriteSystem.outcome_of_writeInLoop hsystem
  · have hsettle : (s.fill data).settle system 0 = .ok { s.fill data with system } :=
      settle_of_same (by rw [hposted]; rfl) (by rw [hposted]; rfl) 0
    subst hposted
    refine ⟨_, hsettle, h.insert hledger rfl rfl ?_ ⟨fun t hne => ?_, fun _ _ => rfl, fun t hne => ?_,
      fun _ _ => Iff.rfl⟩ (fun f hf => ?_) (fun r hr => .inl hr) ?_ fun i hi _ => hi⟩
    · exact Blocks.length_alloc s.memory data
    · exact Blocks.getElem?_concat_of_ne s.memory (h.memory ▸ hne)
    · simp [hne]
    · obtain hf | hf := List.mem_append.mp hf
      · exact .inl hf
      · rw [List.mem_singleton.mp hf]
        exact .inr ⟨rfl, hnew⟩
    · refine ⟨h.memory, rfl, by omega, ?_, fun _ => ?_, fun hne => absurd rfl hne⟩
      · rw [show (s.fill data).taken s.system.asked.length = [] from hnew]
        exact List.nil_prefix
      · rw [if_pos (.inl (by simp))]
        exact h.memory ▸ Blocks.getElem?_alloc_self s.memory data
  · obtain ⟨status, -, hasked, hposted, hrequests, hinvoked, hsettle⟩ :=
      settle_refused (s := s.fill data) hout rfl rfl 0
    have hlive : (s.memory.alloc data)[s.memory.length]? = some (some data) := Blocks.getElem?_alloc_self _ _
    have hcallback := @runCallback_delete ι { s.fill data with system } s.system.asked.length data
      ⟨status, s.memory.length, data.length⟩ hlive
    simp only [fill, Blocks.set_alloc] at hcallback
    refine ⟨_, hsettle.trans hcallback, h.insert hledger hasked rfl ?_ ⟨fun t hne => ?_, fun _ _ => rfl,
      fun t _ => ?_, fun t _ => ?_⟩ (fun f hf => .inl (hposted ▸ hf)) (fun r hr => .inl (hrequests ▸ hr)) ?_ hinvoked⟩
    · exact List.length_append
    · exact Blocks.getElem?_concat_of_ne s.memory (h.memory ▸ hne)
    · rw [hposted]
      rfl
    · rw [hrequests]
      rfl
    · refine ⟨h.memory, rfl, by omega, ?_, fun _ => ?_, fun hne => absurd rfl hne⟩
      · exact hnew ▸ List.nil_prefix
      · have hwaits : ¬ system.Waits s.system.asked.length := by
          rw [WriteSystem.Waits, hposted, hrequests]
          exact h.not_waits
        rw [if_neg hwaits, ← h.memory]
        exact List.getElem?_concat_length

/-- libuv takes some of a buffer that is there. -/
theorem take_of_live {r : WriteReq AfterWrite} (hlive : s.memory[r.base]? = some (some data))
    (hle : (s.taken r.ticket).length + n ≤ data.length) : take n s r = .ok { s with
      taken := Function.update s.taken r.ticket
        (s.taken r.ticket ++ (data.drop (s.taken r.ticket).length).take n) } := by
  rw [take, Blocks.read_of_live hlive hle]
  rfl

/-- What a write from a local variable leaves, when the function returns. -/
def returned (s : WriteBuffers ι) (system : WriteSystem ι AfterWrite) (data : Bytes) (n : ℕ) : WriteBuffers ι :=
  ⟨system, s.memory ++ [none], s.given ++ [data], Function.update s.taken s.system.asked.length (data.take n)⟩

/-- A function writes from a local variable. -/
theorem step_writeLocal (h : s.Inv) {w : WriteSystem.Writer} {callback : Option AfterWrite} {rst : ℤ}
    (hn : n ≤ data.length) (hcallback : callback ≠ some .delete)
    (hsystem : s.system.step (.write w ⟨s.memory.length, data.length, callback⟩ rst) = some system) :
    (s.system.Accepts w rst ∧ s.step (.writeLocal w data callback rst n) = .ok (s.returned system data n) ∧
        system.requests =
            s.system.requests ++ [request s.system.asked.length ⟨s.memory.length, data.length, callback⟩] ∨
      ¬ s.system.Accepts w rst ∧ s.step (.writeLocal w data callback rst n) = .ok (s.returned system data 0) ∧
        system.requests = s.system.requests) ∧
      system.asked = s.system.asked ++ [⟨s.memory.length, data.length, callback⟩] ∧
      system.posted = s.system.posted ∧ ∀ i ∈ system.invoked, i.info.status = 0 → i ∈ s.system.invoked := by
  have hnew : s.taken s.system.asked.length = [] := h.fresh _ le_rfl
  have hlive : (s.memory.alloc data)[s.memory.length]? = some (some data) := Blocks.getElem?_alloc_self _ _
  have hrelease : (s.memory.alloc data).release s.memory.length = .ok (s.memory ++ [none]) := by
    rw [Blocks.release_of_live hlive, Blocks.set_alloc]
  have hstep : s.step (.writeLocal w data callback rst n) = (do
      let t ← (s.fill data).settle system n
      let memory ← t.memory.release s.memory.length
      .ok { t with memory }) := by
    simp only [step, event, Option.bind_some, hsystem]
  obtain ⟨haccepts, hout⟩ | ⟨hnot, hout⟩ := WriteSystem.outcome_of_write hsystem
  · obtain ⟨hasked, hposted, hinvoked, hrequests, hsettle⟩ := settle_accepted (s := s.fill data) hout rfl rfl n
    have htake := @take_of_live ι { s.fill data with system } n data
      (request s.system.asked.length ⟨s.memory.length, data.length, callback⟩) hlive
      (by simpa [fill, request, hnew] using hn)
    refine ⟨.inl ⟨haccepts, ?_, hrequests⟩, hasked, hposted, fun i hi _ => hinvoked ▸ hi⟩
    rw [hstep, hsettle, htake, Exec.ok_bind]
    simp only [fill, hrelease, request, hnew, Exec.ok_bind, List.length_nil, List.drop_zero, List.nil_append,
      returned]
  · obtain ⟨status, -, hasked, hposted, hrequests, hinvoked, hsettle⟩ :=
      settle_refused (s := s.fill data) hout rfl rfl n
    have hreturn : Function.update s.taken s.system.asked.length [] = s.taken := by
      rw [← hnew, Function.update_eq_self]
    refine ⟨.inr ⟨hnot, ?_, hrequests⟩, hasked, hposted, hinvoked⟩
    have hsame : (s.fill data).settle system n = .ok { s.fill data with system } := by
      rw [hsettle]
      cases callback with
      | none => rfl
      | some callback =>
        cases callback with
        | delete => exact absurd rfl hcallback
        | other => rfl
    rw [hstep, hsame, Exec.ok_bind]
    simp only [fill, hrelease, Exec.ok_bind, returned, List.take_zero, hreturn]

/-- It is written whole, or not at all. -/
theorem Inv.writeLocal (h : s.Inv) {w : WriteSystem.Writer} {callback : Option AfterWrite} {rst : ℤ}
    (hshort : data.length < 2 ^ 32) (hn : n ≤ data.length) (hcallback : callback ≠ some .delete)
    (hsystem : s.system.step (.write w ⟨s.memory.length, data.length, callback⟩ rst) = some system)
    (hwhole : s.system.Accepts w rst → n = data.length) :
    ∃ s', s.step (.writeLocal w data callback rst n) = .ok s' ∧ s'.Inv := by
  have hledger : system.Ledger [] := by
    refine h.ledger.step ?_ hsystem
    cases w with
    | connection id => exact fun _ _ _ _ _ _ => hshort
    | _ => trivial
  obtain ⟨hcases, hasked, hposted, hinvoked⟩ := step_writeLocal h hn hcallback hsystem
  have hmemory (t : ℕ) (hne : t ≠ s.system.asked.length) : (s.memory ++ [none])[t]? = s.memory[t]? :=
    Blocks.getElem?_concat_of_ne s.memory (h.memory ▸ hne)
  have hgone : (s.memory ++ [none])[s.system.asked.length]? = some none := by
    rw [← h.memory, List.getElem?_concat_length]
  obtain ⟨haccepts, hstep, hrequests⟩ | ⟨-, hstep, hrequests⟩ := hcases
  · have hall := hwhole haccepts
    subst hall
    refine ⟨_, hstep, h.insert hledger hasked rfl List.length_append ⟨hmemory, fun t hne => ?_, fun t _ => ?_,
      fun t hne => ?_⟩ (fun f hf => .inl (hposted ▸ hf)) (fun r hr => ?_) ?_ hinvoked⟩
    · exact Function.update_of_ne hne _ _
    · exact iff_of_eq (congrArg (t ∈ List.map _ ·) hposted)
    · show t ∈ system.requests.map (·.ticket) ↔ _
      simp [hrequests, request, hne]
    · rw [show (s.returned system data data.length).system.requests = _ from hrequests] at hr
      obtain hr | hr := List.mem_append.mp hr
      · exact .inl hr
      · rw [List.mem_singleton.mp hr]
        exact .inr ⟨rfl, Nat.mod_eq_of_lt hshort⟩
    · have htaken : (s.returned system data data.length).taken s.system.asked.length = data := by
        simp [returned]
      exact ⟨h.memory, rfl, hshort, ⟨[], by rw [htaken, List.append_nil]⟩, fun hdelete => absurd hdelete hcallback,
        fun _ => ⟨hgone, fun _ => htaken⟩⟩
  · refine ⟨_, hstep, h.insert hledger hasked rfl List.length_append ⟨hmemory, fun t hne => ?_, fun t _ => ?_,
      fun t _ => ?_⟩ (fun f hf => .inl (hposted ▸ hf)) (fun r hr => .inl (hrequests ▸ hr)) ?_ hinvoked⟩
    · exact Function.update_of_ne hne _ _
    · exact iff_of_eq (congrArg (t ∈ List.map _ ·) hposted)
    · exact iff_of_eq (congrArg (t ∈ List.map _ ·) hrequests)
    · have htaken : (s.returned system data 0).taken s.system.asked.length = [] := by
        simp [returned]
      refine ⟨h.memory, rfl, hshort, htaken ▸ List.nil_prefix, fun hdelete => absurd hdelete hcallback,
        fun _ => ⟨hgone, fun hmem => absurd ?_ h.not_waits⟩⟩
      exact .inr (hrequests ▸ hmem)

/-- The loop runs a posted function. -/
theorem Inv.run (h : s.Inv) {rst : ℤ} (hn : ∀ f, s.system.posted[k]? = some f → n ≤ f.args.size)
    (hsystem : s.system.step (.run k rst) = some system) : ∃ s', s.settle system n = .ok s' ∧ s'.Inv := by
  obtain ⟨f, hf, hout⟩ := WriteSystem.outcome_of_run hsystem
  have hmem : f ∈ s.system.posted := List.mem_of_getElem? hf
  obtain ⟨hdelete, hnone⟩ := h.posted f hmem
  have hargs : s.system.asked[f.ticket]? = some f.args := h.ledger.posted f hmem
  have hcallback : f.args.callback ≠ none := by
    rw [hdelete]
    exact Option.some_ne_none _
  obtain ⟨data, hdata, hlive, hbuf, hsize, hshort, -⟩ :=
    h.exists_live hargs hdelete (.inl (List.mem_map_of_mem hmem))
  obtain ⟨hnotPosted, hnotRequest, hnotInvoked⟩ := not_mem_of_posted h.ledger hf hcallback
  have hposted (t : ℕ) (hne : t ≠ f.ticket) :
      t ∈ (s.system.posted.eraseIdx k).map (·.ticket) ↔ t ∈ s.system.posted.map (·.ticket) :=
    mem_map_eraseIdx_iff (fun f => f.ticket) hf hne
  have hcareful : s.system.Careful (.run k rst) := by
    intro f' hf'
    rw [hf, Option.some.injEq] at hf'
    subst hf'
    split
    · exact fun _ _ _ => hsize ▸ hshort
    · exact hcallback
  have hledger : system.Ledger [] := h.ledger.step hcareful hsystem
  obtain ⟨b, hout⟩ := hout hcallback
  cases b with
  | true =>
    obtain ⟨hasked, hposted', hinvoked, hrequests, hsettle⟩ := settle_accepted (s := s) hout rfl rfl n
    have hle : (s.taken f.ticket).length + n ≤ data.length := by
      have := hn f hf
      rw [hnone, List.length_nil]
      omega
    have htake := @take_of_live ι { s with system } n data (request f.ticket f.args) (hbuf.symm ▸ hlive) hle
    refine ⟨_, hsettle.trans htake, h.update hledger (List.getElem?_eq_some_iff.mp hargs).1 hasked rfl rfl
      ⟨fun _ _ => rfl, fun t hne => Function.update_of_ne hne _ _, fun t hne => ?_, fun t hne => ?_⟩
      (fun f' hf' => ?_) (fun r hr => ?_) (fun args data' hargs' hdata' => ?_)
      fun i hi _ => .inl ⟨hinvoked ▸ hi, hnotInvoked i (hinvoked ▸ hi)⟩⟩
    · rw [← hposted t hne]
      exact iff_of_eq (congrArg (t ∈ List.map _ ·) hposted')
    · show t ∈ system.requests.map (·.ticket) ↔ _
      simp [hrequests, request, hne]
    · rw [show f' ∈ system.posted ↔ _ from iff_of_eq (congrArg (f' ∈ ·) hposted')] at hf'
      refine ⟨List.mem_of_mem_eraseIdx hf', Function.update_of_ne (fun heq => hnotPosted ?_) _ _⟩
      exact (show f'.ticket = f.ticket from heq) ▸ List.mem_map_of_mem hf'
    · rw [show r ∈ system.requests ↔ _ from iff_of_eq (congrArg (r ∈ ·) hrequests)] at hr
      obtain hr | hr := List.mem_append.mp hr
      · exact .inl hr
      · rw [List.mem_singleton.mp hr]
        exact .inr ⟨data, hdata, by rw [request, hsize, Nat.mod_eq_of_lt hshort]⟩
    · rw [hargs, Option.some.injEq] at hargs'
      rw [hdata, Option.some.injEq] at hdata'
      subst hargs' hdata'
      have htaken : Function.update s.taken f.ticket
          (s.taken f.ticket ++ (data.drop (s.taken f.ticket).length).take n)
          f.ticket = data.take n := by
        rw [Function.update_self, hnone, List.nil_append, List.length_nil, List.drop_zero]
      refine ⟨hbuf, hsize, hshort, ?_, fun _ => ?_, fun hother => absurd hdelete hother⟩
      · exact ⟨data.drop n, (congrArg (· ++ data.drop n) htaken).trans (List.take_append_drop n data)⟩
      · have hwaits : system.Waits f.ticket := .inr (by rw [hrequests]; simp [request])
        rw [if_pos hwaits]
        exact hlive
  | false =>
    obtain ⟨status, -, hasked, hposted', hrequests, hinvoked, hsettle⟩ := settle_refused (s := s) hout rfl rfl n
    have hrun := @runCallback_delete ι { s with system } f.ticket data ⟨status, f.args.buf, f.args.size⟩
      (hbuf.symm ▸ hlive)
    rw [hdelete] at hsettle
    refine ⟨_, hsettle.trans hrun, ?_⟩
    dsimp only
    rw [hbuf]
    refine h.released hledger hargs hdelete hasked (fun f' hf' => ?_) (fun r hr => hrequests ▸ hr)
      (fun t hne => ?_) ?_
      fun i hi hzero => .inl ⟨hinvoked i hi hzero, hnotInvoked i (hinvoked i hi hzero)⟩
    · rw [hposted'] at hf'
      exact List.mem_of_mem_eraseIdx hf'
    · rw [hposted', hrequests]
      exact ⟨hposted t hne, Iff.rfl⟩
    · rw [WriteSystem.Waits, hposted', hrequests]
      exact not_or_intro hnotPosted hnotRequest

/-- libuv takes more of a write. -/
theorem Inv.take (h : s.Inv) {r : WriteReq AfterWrite} (hr : s.system.requests[k]? = some r) (hpos : 0 < n)
    (hle : (s.taken r.ticket).length + n ≤ r.len) : ∃ s', WriteBuffers.take n s r = .ok s' ∧ s'.Inv := by
  have hmem : r ∈ s.system.requests := List.mem_of_getElem? hr
  obtain ⟨args, hargs, hsame, hbase, -⟩ := h.ledger.requests r hmem
  obtain ⟨data, hdata, hlen⟩ := h.requests r hmem
  by_cases hdelete : args.callback = some .delete
  · obtain ⟨data', hdata', hlive, hbuf, hsize, hshort, hwithin⟩ :=
      h.exists_live hargs hdelete (.inr (List.mem_map_of_mem hmem))
    rw [hdata, Option.some.injEq] at hdata'
    subst hdata'
    have hcallback : r.callback ≠ none := by
      rw [hsame, hdelete]
      exact Option.some_ne_none _
    obtain ⟨hnotPosted, -, hnotInvoked⟩ := not_mem_of_request h.ledger hr hcallback
    have htake := take_of_live (hbase ▸ hbuf.symm ▸ hlive) (hlen ▸ hle)
    refine ⟨_, htake, h.update h.ledger (h.lt_of_requests hmem) rfl rfl rfl ⟨fun _ _ => rfl,
      fun t hne => Function.update_of_ne hne _ _, fun _ _ => Iff.rfl, fun _ _ => Iff.rfl⟩ (fun f hf => ⟨hf, ?_⟩)
      (fun r' hr' => .inl hr') (fun args' data' hargs' hdata' => ?_) fun i hi _ => .inl ⟨hi, hnotInvoked i hi⟩⟩
    · refine Function.update_of_ne (fun heq : f.ticket = r.ticket => hnotPosted ?_) _ _
      exact heq ▸ List.mem_map_of_mem hf
    · rw [hargs, Option.some.injEq] at hargs'
      rw [hdata, Option.some.injEq] at hdata'
      subst hargs' hdata'
      have hentry := h.entry r.ticket args data hargs hdata
      refine ⟨hbuf, hsize, hshort, ?_, hentry.own, fun hother => absurd hdelete hother⟩
      obtain ⟨rest, rfl⟩ := hwithin
      refine ⟨rest.drop n, ?_⟩
      dsimp only
      rw [Function.update_self, List.drop_left, List.append_assoc, List.take_append_drop]
  · have htaken := (h.entry r.ticket args data hargs hdata).gone hdelete
    rw [htaken.2 (List.mem_map_of_mem hmem), hlen] at hle
    omega

/-- libuv calls back. -/
theorem Inv.written (h : s.Inv) {status : ℤ} (hfull : ∀ r, s.system.requests[k]? = some r → status = 0 →
      (s.taken r.ticket).length = r.len) (hsystem : s.system.step (.written k status) = some system) :
    ∃ s', s.settle system 0 = .ok s' ∧ s'.Inv := by
  have hledger : system.Ledger [] := by
    refine h.ledger.step ?_ hsystem
    trivial
  simp only [WriteSystem.step, Option.bind_eq_bind, Option.bind_eq_some_iff] at hsystem
  obtain ⟨r, hr, hsystem⟩ := hsystem
  cases hsystem
  have hmem : r ∈ s.system.requests := List.mem_of_getElem? hr
  obtain ⟨args, hargs, hsame, hbase, -⟩ := h.ledger.requests r hmem
  obtain ⟨data, hdata, hlen⟩ := h.requests r hmem
  have hentry := h.entry r.ticket args data hargs hdata
  have hrequests (t : ℕ) (hne : t ≠ r.ticket) :
      t ∈ (s.system.requests.eraseIdx k).map (·.ticket) ↔ t ∈ s.system.requests.map (·.ticket) :=
    mem_map_eraseIdx_iff (fun r => r.ticket) hr hne
  have hsuccess : status = 0 → s.given[r.ticket]? = some (s.taken r.ticket) := by
    intro hzero
    rw [hentry.taken.eq_of_length (hlen ▸ hfull r hr hzero), hdata]
  have hsettle := @settle_invokeIf ι s r.ticket { s.system with requests := s.system.requests.eraseIdx k }
    (List.length_eraseIdx_le _ _) rfl r.callback ⟨status, r.base, r.len⟩ 0
  have hinvoked (i : Invocation AfterWrite) (hi : i ∈ ({ s.system with
      requests := s.system.requests.eraseIdx k }.invokeIf r.ticket r.callback ⟨status, r.base, r.len⟩).invoked)
      (hzero : i.info.status = 0) : i ∈ s.system.invoked ∨ s.given[i.ticket]? = some (s.taken i.ticket) := by
    obtain hi | rfl := WriteSystem.mem_invokeIf hi
    · exact .inl hi
    · exact .inr (hsuccess hzero)
  by_cases hdelete : args.callback = some .delete
  · obtain ⟨data', -, hlive, hbuf, -⟩ := h.exists_live hargs hdelete (.inr (List.mem_map_of_mem hmem))
    have hcallback : r.callback ≠ none := by
      rw [hsame, hdelete]
      exact Option.some_ne_none _
    obtain ⟨hnotPosted, hnotRequest, hnotInvoked⟩ := not_mem_of_request h.ledger hr hcallback
    rw [hsame, hdelete] at hsettle hledger hinvoked ⊢
    refine ⟨_, hsettle.trans (runCallback_delete (hbase ▸ hbuf.symm ▸ hlive)), ?_⟩
    dsimp only
    rw [hbase, hbuf] at hledger hinvoked ⊢
    refine h.released hledger hargs hdelete rfl (fun f hf => hf) (fun r hr => List.mem_of_mem_eraseIdx hr)
      (fun t hne => ⟨Iff.rfl, hrequests t hne⟩) (not_or_intro hnotPosted hnotRequest) fun i hi hzero => ?_
    obtain hold | hnow := hinvoked i hi hzero
    · exact .inl ⟨hold, hnotInvoked i hold⟩
    · exact .inr hnow
  · have hsame' : s.settle ({ s.system with requests := s.system.requests.eraseIdx k }.invokeIf r.ticket r.callback
        ⟨status, r.base, r.len⟩) 0 = .ok { s with system := { s.system with
          requests := s.system.requests.eraseIdx k }.invokeIf r.ticket r.callback ⟨status, r.base, r.len⟩ } := by
      rw [hsettle]
      rw [← hsame] at hdelete
      cases hcallback : r.callback with
      | none => rfl
      | some callback =>
        cases callback with
        | delete => exact absurd hcallback hdelete
        | other => rfl
    refine ⟨_, hsame', h.update hledger (h.lt_of_requests hmem) WriteSystem.asked_invokeIf rfl rfl
      ⟨fun _ _ => rfl, fun _ _ => rfl, fun t _ => ?_, fun t hne => ?_⟩ (fun f hf => ⟨?_, rfl⟩) (fun r' hr' => ?_)
      (fun args' data' hargs' hdata' => ?_) fun i hi hzero => ?_⟩
    · dsimp only
      rw [WriteSystem.posted_invokeIf]
    · dsimp only
      rw [WriteSystem.requests_invokeIf]
      exact hrequests t hne
    · dsimp only at hf
      rwa [WriteSystem.posted_invokeIf] at hf
    · dsimp only at hr'
      rw [WriteSystem.requests_invokeIf] at hr'
      exact .inl (List.mem_of_mem_eraseIdx hr')
    · rw [hargs, Option.some.injEq] at hargs'
      rw [hdata, Option.some.injEq] at hdata'
      subst hargs' hdata'
      obtain ⟨hgone, htaken⟩ := hentry.gone hdelete
      exact ⟨hentry.buf, hentry.size, hentry.short, hentry.taken, fun hown => absurd hown hdelete,
        fun _ => ⟨hgone, fun _ => htaken (List.mem_map_of_mem hmem)⟩⟩
    · obtain hold | hnow := hinvoked i hi hzero
      · exact .inr (h.success i hold hzero)
      · exact .inr hnow

/-- Connections change. -/
theorem Inv.change (h : s.Inv) {connections : ℕ → Option (TcpConnection ι × UvTcp)}
    {connnections_ : Bytes → Option ℕ} {connection_ : Option ℕ} :
    ∃ s', s.settle { s.system with connections, connnections_, connection_ } 0 = .ok s' ∧ s'.Inv := by
  refine ⟨_, settle_of_same (by rfl) (by rfl) 0, ?_, h.posted, h.requests, h.given, h.memory,
    fun t args data hargs hdata => ?_,
    h.fresh, h.success⟩
  · refine h.ledger.step (e := WriteSystem.Event.change connections connnections_ connection_) ?_ rfl
    trivial
  · obtain ⟨hbuf, hsize, hshort, htaken, hown, hgone⟩ := h.entry t args data hargs hdata
    exact ⟨hbuf, hsize, hshort, htaken, hown, hgone⟩

/-- **The step lemma.** -/
theorem Inv.step (h : s.Inv) {e : Event ι} (hallows : s.Allows e) (hwhole : s.Whole e) :
    ∃ s', s.step e = .ok s' ∧ s'.Inv := by
  obtain ⟨hsome, hallows⟩ := hallows
  cases e with
  | sendProtocol w data =>
    obtain ⟨system, hsystem⟩ := Option.isSome_iff_exists.mp (hsome _ rfl)
    have hstep : s.step (.sendProtocol w data) = (s.fill data).settle system 0 := by
      simp only [WriteBuffers.step, event, Option.bind_some, hsystem]
    exact hstep ▸ h.sendProtocol hallows hsystem
  | writeLocal w data callback rst n =>
    obtain ⟨system, hsystem⟩ := Option.isSome_iff_exists.mp (hsome _ rfl)
    obtain ⟨hshort, hn, hcallback⟩ := hallows
    exact h.writeLocal hshort hn hcallback hsystem hwhole
  | run k rst n =>
    obtain ⟨system, hsystem⟩ := Option.isSome_iff_exists.mp (hsome _ rfl)
    have hstep : s.step (.run k rst n) = s.settle system n := by
      simp only [WriteBuffers.step, event, Option.bind_some, hsystem]
    exact hstep ▸ h.run hallows hsystem
  | take k n =>
    obtain ⟨hpos, r, hr, hle⟩ := hallows
    have hstep : s.step (.take k n) = WriteBuffers.take n s r := by
      simp only [WriteBuffers.step, hr]
    exact hstep ▸ h.take hr hpos hle
  | written k status =>
    obtain ⟨system, hsystem⟩ := Option.isSome_iff_exists.mp (hsome _ rfl)
    have hstep : s.step (.written k status) = s.settle system 0 := by
      simp only [WriteBuffers.step, event, Option.bind_some, hsystem]
    exact hstep ▸ h.written hallows hsystem
  | change connections connnections_ connection_ => exact h.change

/-- **The next step does not fault**, also if it leaves a part of a local variable to be taken later. -/
theorem Inv.safe (h : s.Inv) {e : Event ι} (hallows : s.Allows e) : Exec.Returns (s.step e) := by
  cases e with
  | writeLocal w data callback rst n =>
    obtain ⟨hsome, -, hn, hcallback⟩ := hallows
    obtain ⟨system, hsystem⟩ := Option.isSome_iff_exists.mp (hsome _ rfl)
    obtain ⟨⟨-, hstep, -⟩ | ⟨-, hstep, -⟩, -⟩ := step_writeLocal h hn hcallback hsystem
    · exact ⟨_, hstep⟩
    · exact ⟨_, hstep⟩
  | _ =>
    obtain ⟨s', hstep, -⟩ := h.step hallows trivial
    exact ⟨s', hstep⟩

/-! ### Every run -/

theorem Inv.new : (new : WriteBuffers ι).Inv := by
  refine ⟨WriteSystem.Ledger.new, fun f hf => ?_, fun r hr => ?_, rfl, rfl, fun t args data hargs => ?_,
    fun _ _ => rfl, fun i hi => ?_⟩
  · cases hf
  · cases hr
  · cases hargs
  · cases hi

/-- The steps in which local variables are written whole. -/
def Orderly (s : WriteBuffers ι) (e : Event ι) : Prop := s.Allows e ∧ s.Whole e

/-- What holds of the buffers. -/
structure Kept (s : WriteBuffers ι) : Prop where
  /-- What can happen next does not fault. -/
  safe : ∀ e, s.Allows e → Exec.Returns (s.step e)
  /-- What libuv takes is what was passed, from its beginning. -/
  inOrder : ∀ t data, s.given[t]? = some data → s.taken t <+: data
  /-- A callback that is told of success is told so when everything has been taken. -/
  success : ∀ i ∈ s.system.invoked, i.info.status = 0 → s.given[i.ticket]? = some (s.taken i.ticket)
  /-- The array of a protocol is there while the write waits. -/
  kept : ∀ t args data, s.system.asked[t]? = some args → s.given[t]? = some data →
    args.callback = some .delete → s.system.Waits t → s.memory[t]? = some (some data)
  /-- Nothing is left of a write that does not wait. -/
  released : ∀ t < s.system.asked.length, ¬ s.system.Waits t → s.memory[t]? = some none

/-- There is something asked for each write, and something to be written. -/
theorem Inv.known (h : s.Inv) (ht : t < s.system.asked.length) :
    ∃ args data, s.system.asked[t]? = some args ∧ s.given[t]? = some data :=
  ⟨_, _, List.getElem?_eq_getElem ht, List.getElem?_eq_getElem (h.given ▸ ht)⟩

theorem Inv.kept (h : s.Inv) : s.Kept := by
  refine ⟨fun e he => h.safe he, fun t data hdata => ?_, h.success,
    fun t args data hargs hdata hdelete hwaits => ?_, fun t ht hnot => ?_⟩
  · obtain ⟨args, data', hargs, hdata'⟩ := h.known (h.given ▸ (List.getElem?_eq_some_iff.mp hdata).1)
    obtain rfl : data' = data := Option.some.inj (hdata'.symm.trans hdata)
    exact (h.entry t args data' hargs hdata).taken
  · rw [(h.entry t args data hargs hdata).own hdelete, if_pos hwaits]
  · obtain ⟨args, data, hargs, hdata⟩ := h.known ht
    have hentry := h.entry t args data hargs hdata
    by_cases hdelete : args.callback = some .delete
    · rw [hentry.own hdelete, if_neg hnot]
    · exact (hentry.gone hdelete).1

theorem inv_of_run {events : List (Event ι)} (hrun : Run (Steps step Orderly) new events s) : s.Inv :=
  (hrun.safe Inv .new fun _ _ h he => h.step he.1 he.2).1

/-- **A buffer is there as long as it is needed**, and no longer, in every run in which libuv takes writes
from local variables whole. -/
theorem buffers_kept {events : List (Event ι)} (hrun : Run (Steps step Orderly) new events s) : s.Kept :=
  (inv_of_run hrun).kept

/-- The connection of a server. -/
def sampleChange : Event ℕ :=
  .change (fun id => if id = 0 then some ((TcpConnection.new []).setConnectCloseCallback, UvTcp.init) else none)
    (fun _ => none) none

/-- A protocol is taken in two parts. -/
theorem buffers_kept_sample : ∃ s : WriteBuffers ℕ, Run (Steps step Orderly) new
    [sampleChange, .sendProtocol (.connection 0) [1, 2, 3, 4], .run 0 0 1, .take 0 3, .written 0 0] s ∧
    s.taken 0 = [1, 2, 3, 4] ∧ s.memory = [none] ∧ s.Kept := by
  have hrun : Run (Steps step Orderly) (new : WriteBuffers ℕ) [] new := .nil _
  have hrun := hrun.snoc (a := sampleChange) ⟨⟨⟨by rintro _ ⟨⟩; rfl, trivial⟩, trivial⟩, rfl⟩
  have hrun := hrun.snoc (a := Event.sendProtocol (.connection 0) [1, 2, 3, 4])
    ⟨⟨⟨by rintro _ ⟨⟩; rfl, by decide⟩, trivial⟩, rfl⟩
  have hrun := hrun.snoc (a := Event.run 0 0 1) ⟨⟨⟨by rintro _ ⟨⟩; rfl, by rintro _ ⟨⟩; decide⟩, trivial⟩, rfl⟩
  have hrun := hrun.snoc (a := Event.take 0 3)
    ⟨⟨⟨by rintro _ ⟨⟩, by decide, _, rfl, by decide⟩, trivial⟩, rfl⟩
  have hrun := hrun.snoc (a := Event.written 0 0)
    ⟨⟨⟨by rintro _ ⟨⟩; rfl, by rintro _ ⟨⟩ _; rfl⟩, trivial⟩, rfl⟩
  exact ⟨_, hrun, rfl, rfl, buffers_kept hrun⟩

/-- **A write from a local variable that is not taken whole is read after the variable is gone**: nothing that
can come next faults if and only if libuv takes the write whole, or does not accept it. -/
theorem next_safe_iff {events : List (Event ι)} (hrun : Run (Steps step Orderly) new events s) {e : Event ι}
    (hallows : s.Allows e) : (∃ s', s.step e = .ok s' ∧ ∀ e', s'.Allows e' → Exec.Returns (s'.step e')) ↔
      s.Whole e := by
  have h := inv_of_run hrun
  constructor
  · rintro ⟨s', hstep, hsafe⟩
    cases e with
    | writeLocal w data callback rst n =>
      intro haccepts
      obtain ⟨hsome, hshort, hn, hcallback⟩ := hallows
      obtain ⟨system, hsystem⟩ := Option.isSome_iff_exists.mp (hsome _ rfl)
      obtain ⟨hcases, -⟩ := step_writeLocal h hn hcallback hsystem
      obtain ⟨-, hstep', hrequests⟩ | ⟨hnot, -⟩ := hcases
      · obtain rfl : s.returned system data n = s' := Except.ok.inj (hstep'.symm.trans hstep)
        by_contra hne
        have hr : (s.returned system data n).system.requests[s.system.requests.length]? =
            some (request s.system.asked.length ⟨s.memory.length, data.length, callback⟩) := by
          rw [show (s.returned system data n).system.requests = _ from hrequests, List.getElem?_concat_length]
        have htaken : (s.returned system data n).taken s.system.asked.length = data.take n :=
          Function.update_self _ _ _
        have hnext : (s.returned system data n).Allows (.take s.system.requests.length 1) := by
          refine ⟨fun e' he' => ?_, Nat.one_pos, _, hr, ?_⟩
          · cases he'
          · simp only [request]
            rw [htaken, List.length_take_of_le hn, Nat.mod_eq_of_lt hshort]
            omega
        obtain ⟨t, ht⟩ := hsafe _ hnext
        have hgone : (s.memory ++ [none])[s.memory.length]? = some none := List.getElem?_concat_length
        simp only [WriteBuffers.step, hr] at ht
        rw [WriteBuffers.take, request, returned] at ht
        dsimp only at ht
        rw [Blocks.read_of_released hgone] at ht
        cases ht
      · exact absurd haccepts hnot
    | _ => trivial
  · intro hwhole
    obtain ⟨s', hstep, h'⟩ := h.step hallows hwhole
    exact ⟨s', hstep, h'.kept.safe⟩

/-- Half of a string is taken, and the function returns. -/
theorem next_safe_iff_sample : ∃ s : WriteBuffers ℕ, Run (Steps step Orderly) new [sampleChange] s ∧
    s.Allows (.writeLocal (.connection 0) [1, 2] none 0 1) ∧
    ¬ ∃ s', s.step (.writeLocal (.connection 0) [1, 2] none 0 1) = .ok s' ∧
      ∀ e', s'.Allows e' → Exec.Returns (s'.step e') := by
  have hrun : Run (Steps step Orderly) (new : WriteBuffers ℕ) [] new := .nil _
  have hrun := hrun.snoc (a := sampleChange) ⟨⟨⟨by rintro _ ⟨⟩; rfl, trivial⟩, trivial⟩, rfl⟩
  refine ⟨_, hrun, ?_, fun hsafe => ?_⟩
  · exact ⟨by rintro _ ⟨⟩; rfl, by decide, by decide, by decide⟩
  · have hwhole := (next_safe_iff hrun (e := Event.writeLocal (.connection 0) [1, 2] none 0 1)
      ⟨by rintro _ ⟨⟩; rfl, by decide, by decide, by decide⟩).mp hsafe
    have haccepts := hwhole ⟨0, _, _, rfl, rfl, rfl, rfl⟩
    cases haccepts

end WriteBuffers

end UvCpp
