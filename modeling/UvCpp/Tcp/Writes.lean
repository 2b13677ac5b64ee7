import UvCpp.Tcp.TcpConnection
import Mathlib.Data.List.Perm.Basic
import Mathlib.Logic.Function.Basic

/-!
# Write callbacks

A write is asked for with a buffer, a size and a callback, which may be absent. It can end in five ways:
`uv_write` accepts it, and libuv calls back; `uv_write` rejects it; the connection is not connected; the
connection has been destroyed when the loop comes to a write posted by `writeInLoop`; there is no
connection to begin with. `WriteSystem` is the connections, the functions that wait for the loop, the
requests that libuv holds, and the callbacks invoked, with a ticket for each write that was asked for.

In each of the five the callback is invoked by a line of its own. The line for a connection that has been
destroyed does not ask whether there is a callback; and `uv_buf_t` gets a size of 32 bits. Otherwise every
callback is invoked once, with the buffer and the size that were passed, and an absent one
never (`invoked_once`).
-/

namespace UvCpp

open UvCpp.Cpp UvCpp.Systems

/-- `WriteInfo`. A buffer is known by its address; an `unsigned long` has 64 bits. -/
structure WriteInfo where
  /-- What became of the write. -/
  status : ℤ
  /-- The buffer. -/
  buf : ℕ
  /-- Its size. -/
  size : ℕ
  deriving DecidableEq

/-- `WriteInfo::Disconnected`. -/
def WriteInfo.Disconnected : ℤ := -1

/-- The arguments of a write, with callbacks in `κ`; without one there is `nullptr`. -/
structure WriteArgs (κ : Type) where
  /-- The buffer. -/
  buf : ℕ
  /-- Its size. -/
  size : ℕ
  /-- The callback. -/
  callback : Option κ
  deriving DecidableEq

/-- The function that `writeInLoop` posts. -/
structure PostedWrite (κ : Type) where
  /-- The write it is for. -/
  ticket : ℕ
  /-- `conn`, a weak pointer. -/
  conn : ℕ
  /-- The other values it captures. -/
  args : WriteArgs κ
  deriving DecidableEq

/-- `WriteReq`. -/
structure WriteReq (κ : Type) where
  /-- The write it is for. -/
  ticket : ℕ
  /-- `buf.base`. -/
  base : ℕ
  /-- `buf.len`. -/
  len : ℕ
  /-- The callback. -/
  callback : Option κ
  deriving DecidableEq

/-- A callback is invoked; if it is absent, the program calls through `nullptr`. -/
structure Invocation (κ : Type) where
  /-- The write it is for. -/
  ticket : ℕ
  /-- The callback. -/
  callback : Option κ
  /-- What it is told. -/
  info : WriteInfo
  deriving DecidableEq

/-- A request is for a write that was asked for. The size matters only to a callback. -/
def WriteReq.For {κ : Type} (r : WriteReq κ) (asked : List (WriteArgs κ)) : Prop :=
  ∃ args, asked[r.ticket]? = some args ∧ r.callback = args.callback ∧ r.base = args.buf ∧
    (args.callback ≠ none → r.len = args.size)

/-- A callback is there, was passed for the write it is invoked for, and is told the buffer and the size that
were passed. -/
def Invocation.For {κ : Type} (i : Invocation κ) (asked : List (WriteArgs κ)) : Prop :=
  i.callback ≠ none ∧ ∃ args, asked[i.ticket]? = some args ∧ i.callback = args.callback ∧
    i.info.buf = args.buf ∧ i.info.size = args.size

/-- The connections, and the writes. The close callbacks of the connections are in `ι`. -/
structure WriteSystem (ι κ : Type) where
  /-- The connections and their handles; `none` is one that has been destroyed. -/
  connections : ℕ → Option (TcpConnection ι × UvTcp)
  /-- The connections of a server. -/
  connnections_ : Bytes → Option ℕ
  /-- The connection of a client. -/
  connection_ : Option ℕ
  /-- The writes that were asked for; a ticket is a place in this list. -/
  asked : List (WriteArgs κ)
  /-- The functions that wait for the loop. -/
  posted : List (PostedWrite κ)
  /-- The requests that libuv has accepted and not called back for. -/
  requests : List (WriteReq κ)
  /-- The callbacks invoked. -/
  invoked : List (Invocation κ)

namespace WriteSystem

variable {ι κ : Type}

/-- A system without connections. -/
def new : WriteSystem ι κ := ⟨fun _ => none, fun _ => none, none, [], [], [], []⟩

/-- `callback(info)`. -/
def invoke (s : WriteSystem ι κ) (ticket : ℕ) (callback : Option κ) (info : WriteInfo) : WriteSystem ι κ :=
  { s with invoked := s.invoked ++ [⟨ticket, callback, info⟩] }

/-- `if (callback) callback(info)`. -/
def invokeIf (s : WriteSystem ι κ) (ticket : ℕ) (callback : Option κ) (info : WriteInfo) : WriteSystem ι κ :=
  if callback.isSome then s.invoke ticket callback info else s

/-- `TcpConnection::write`, when `uv_write` returns `rst`. `uv_buf_init` takes an `unsigned int`. -/
def write (s : WriteSystem ι κ) (id : ℕ) (c : TcpConnection ι) (h : UvTcp) (ticket : ℕ) (args : WriteArgs κ)
    (rst : ℤ) : WriteSystem ι κ :=
  match c.write h rst with
  | (h, none) => { s with
      connections := Function.update s.connections id (some (c, h))
      requests := s.requests ++ [⟨ticket, args.buf, args.size % 2 ^ 32, args.callback⟩] }
  | (_, some status) => s.invokeIf ticket args.callback ⟨status, args.buf, args.size⟩

/-- The function that `TcpConnection::writeInLoop` posts, when it runs. -/
def runPosted (s : WriteSystem ι κ) (f : PostedWrite κ) (rst : ℤ) : WriteSystem ι κ :=
  match s.connections f.conn with
  | some (c, h) => s.write f.conn c h f.ticket f.args rst
  | none => s.invoke f.ticket f.args.callback ⟨WriteInfo.Disconnected, f.args.buf, f.args.size⟩

/-- A write to a connection, which has not been destroyed. -/
def connectionWrite (s : WriteSystem ι κ) (id ticket : ℕ) (args : WriteArgs κ) (rst : ℤ) :
    Option (WriteSystem ι κ) := do
  let (c, h) ← s.connections id
  some (s.write id c h ticket args rst)

/-- `TcpConnection::writeInLoop`, of a connection that has not been destroyed. -/
def connectionWriteInLoop (s : WriteSystem ι κ) (id ticket : ℕ) (args : WriteArgs κ) :
    Option (WriteSystem ι κ) := do
  let _ ← s.connections id
  some { s with posted := s.posted ++ [⟨ticket, id, args⟩] }

/-- What a server and a client do with a connection that may be missing. -/
def orDisconnected (s : WriteSystem ι κ) (connection : Option ℕ) (ticket : ℕ) (args : WriteArgs κ)
    (f : ℕ → Option (WriteSystem ι κ)) : Option (WriteSystem ι κ) :=
  match connection with
  | some id => f id
  | none => some (s.invokeIf ticket args.callback ⟨WriteInfo.Disconnected, args.buf, args.size⟩)

/-- `TcpServer::write`, with a connection. -/
def serverWrite (s : WriteSystem ι κ) (connection : Option ℕ) (ticket : ℕ) (args : WriteArgs κ) (rst : ℤ) :
    Option (WriteSystem ι κ) :=
  s.orDisconnected connection ticket args fun id => s.connectionWrite id ticket args rst

/-- `TcpServer::write`, with the name of a connection. -/
def serverWriteName (s : WriteSystem ι κ) (name : Bytes) (ticket : ℕ) (args : WriteArgs κ) (rst : ℤ) :
    Option (WriteSystem ι κ) :=
  s.serverWrite (s.connnections_ name) ticket args rst

/-- `TcpServer::writeInLoop`, with a connection. -/
def serverWriteInLoop (s : WriteSystem ι κ) (connection : Option ℕ) (ticket : ℕ) (args : WriteArgs κ) :
    Option (WriteSystem ι κ) :=
  s.orDisconnected connection ticket args fun id => s.connectionWriteInLoop id ticket args

/-- `TcpServer::writeInLoop`, with the name of a connection. -/
def serverWriteInLoopName (s : WriteSystem ι κ) (name : Bytes) (ticket : ℕ) (args : WriteArgs κ) :
    Option (WriteSystem ι κ) :=
  s.serverWriteInLoop (s.connnections_ name) ticket args

/-- `TcpClient::write`. -/
def clientWrite (s : WriteSystem ι κ) (ticket : ℕ) (args : WriteArgs κ) (rst : ℤ) : Option (WriteSystem ι κ) :=
  s.orDisconnected s.connection_ ticket args fun id => s.connectionWrite id ticket args rst

/-- `TcpClient::writeInLoop`. -/
def clientWriteInLoop (s : WriteSystem ι κ) (ticket : ℕ) (args : WriteArgs κ) : Option (WriteSystem ι κ) :=
  s.orDisconnected s.connection_ ticket args fun id => s.connectionWriteInLoop id ticket args

/-! ### Steps -/

/-- Through what a write is asked for. -/
inductive Writer where
  /-- A connection. -/
  | connection (id : ℕ)
  /-- A server, with a connection or `nullptr`. -/
  | server (connection : Option ℕ)
  /-- A server, with a name. -/
  | serverName (name : Bytes)
  /-- A client. -/
  | client
  deriving DecidableEq

/-- The sizes that can be passed: a server and a client take an `unsigned int`. -/
def Writer.Takes (w : Writer) (size : ℕ) : Bool :=
  match w with
  | .connection _ => true
  | .server _ | .serverName _ | .client => size < 2 ^ 32

/-- What happens. -/
inductive Event (ι κ : Type) where
  /-- `write` is called; `rst` is what `uv_write` returns, if it is called. -/
  | write (w : Writer) (args : WriteArgs κ) (rst : ℤ)
  /-- `writeInLoop` is called. -/
  | writeInLoop (w : Writer) (args : WriteArgs κ)
  /-- The loop runs one of the functions posted; `rst` is what `uv_write` returns, if it is called. -/
  | run (k : ℕ) (rst : ℤ)
  /-- libuv calls back for one of the requests it has accepted. -/
  | written (k : ℕ) (status : ℤ)
  /-- Connections are made, disconnected, closed and destroyed. -/
  | change (connections : ℕ → Option (TcpConnection ι × UvTcp)) (connnections_ : Bytes → Option ℕ)
      (connection_ : Option ℕ)

/-- A write is asked for. -/
def ask (s : WriteSystem ι κ) (args : WriteArgs κ) : WriteSystem ι κ := { s with asked := s.asked ++ [args] }

/-- A step, if it can happen. The loop and libuv may take what waits in any order: a function posted from the
thread of the loop is run at once. -/
def step (s : WriteSystem ι κ) : Event ι κ → Option (WriteSystem ι κ)
  | .write w args rst =>
    if w.Takes args.size then
      match w with
      | .connection id => (s.ask args).connectionWrite id s.asked.length args rst
      | .server connection => (s.ask args).serverWrite connection s.asked.length args rst
      | .serverName name => (s.ask args).serverWriteName name s.asked.length args rst
      | .client => (s.ask args).clientWrite s.asked.length args rst
    else none
  | .writeInLoop w args =>
    if w.Takes args.size then
      match w with
      | .connection id => (s.ask args).connectionWriteInLoop id s.asked.length args
      | .server connection => (s.ask args).serverWriteInLoop connection s.asked.length args
      | .serverName name => (s.ask args).serverWriteInLoopName name s.asked.length args
      | .client => (s.ask args).clientWriteInLoop s.asked.length args
    else none
  | .run k rst => do
    let f ← s.posted[k]?
    some ({ s with posted := s.posted.eraseIdx k }.runPosted f rst)
  | .written k status => do
    let r ← s.requests[k]?
    some ({ s with requests := s.requests.eraseIdx k }.invokeIf r.ticket r.callback ⟨status, r.base, r.len⟩)
  | .change connections connnections_ connection_ => some { s with connections, connnections_, connection_ }

/-! ### The condition -/

/-- A write with a callback is not accepted by `uv_write`, or its size has 32 bits. -/
def Fits (c : TcpConnection ι) (args : WriteArgs κ) (rst : ℤ) : Prop :=
  c.connected_ = true → rst = 0 → args.callback ≠ none → args.size < 2 ^ 32

/-- The size of an accepted write with a callback has 32 bits, and a connection that is written to by
`writeInLoop` without a callback has not been destroyed when the loop comes to the write. -/
def Careful (s : WriteSystem ι κ) : Event ι κ → Prop
  | .write (.connection id) args rst => ∀ c h, s.connections id = some (c, h) → Fits c args rst
  | .run k rst => ∀ f, s.posted[k]? = some f →
    match s.connections f.conn with
    | some (c, _) => Fits c f.args rst
    | none => f.args.callback ≠ none
  | _ => True

/-! ### What is owed -/

/-- How often the callback of a write has been invoked. -/
def times (s : WriteSystem ι κ) (ticket : ℕ) : ℕ := (s.invoked.map (·.ticket)).count ticket

/-- The loop or libuv has still to do something for a write. -/
def Waits (s : WriteSystem ι κ) (ticket : ℕ) : Prop :=
  ticket ∈ s.posted.map (·.ticket) ∨ ticket ∈ s.requests.map (·.ticket)

instance (s : WriteSystem ι κ) (ticket : ℕ) : Decidable (s.Waits ticket) := inferInstanceAs (Decidable (_ ∨ _))

/-- Every callback is invoked once when the loop and libuv have done their part, with the buffer and the size
that were passed, and an absent one never. -/
structure InvokedOnce (s : WriteSystem ι κ) : Prop where
  /-- No absent callback is invoked, and none with other values than were passed with it. -/
  passed : ∀ i ∈ s.invoked, i.For s.asked
  /-- None is invoked twice. -/
  atMost : ∀ (ticket : ℕ) (args : WriteArgs κ), s.asked[ticket]? = some args → args.callback ≠ none →
    s.times ticket ≤ 1
  /-- It is invoked when nothing waits any more. -/
  atLeast : ∀ (ticket : ℕ) (args : WriteArgs κ), s.asked[ticket]? = some args → args.callback ≠ none →
    ¬ s.Waits ticket → s.times ticket = 1

variable {s s' : WriteSystem ι κ} {ticket : ℕ} {args : WriteArgs κ} {hand hand' : List ℕ}

/-- The tickets of what is posted, of what libuv holds, and of what has been invoked. -/
def tickets (s : WriteSystem ι κ) : List ℕ :=
  s.posted.map (·.ticket) ++ s.requests.map (·.ticket) ++ s.invoked.map (·.ticket)

theorem count_tickets (s : WriteSystem ι κ) (ticket : ℕ) : s.tickets.count ticket =
    (s.posted.map (·.ticket)).count ticket + (s.requests.map (·.ticket)).count ticket + s.times ticket := by
  rw [tickets, List.count_append, List.count_append, times]

/-- The invariant, while the writes in `hand` are being dealt with: each write with a callback is in one
place, as it was asked for. -/
structure Ledger (s : WriteSystem ι κ) (hand : List ℕ) : Prop where
  /-- What is posted. -/
  posted : ∀ f ∈ s.posted, s.asked[f.ticket]? = some f.args
  /-- What libuv holds. -/
  requests : ∀ r ∈ s.requests, r.For s.asked
  /-- What has been invoked. -/
  invoked : ∀ i ∈ s.invoked, i.For s.asked
  /-- Each write with a callback is in one place. -/
  once : ∀ (ticket : ℕ) (args : WriteArgs κ), s.asked[ticket]? = some args → args.callback ≠ none →
    (s.tickets ++ hand).count ticket = 1

theorem Ledger.new : Ledger (new : WriteSystem ι κ) [] :=
  ⟨nofun, nofun, nofun, fun ticket args hasked => by cases hasked⟩

/-- A ticket that is somewhere is that of a write that was asked for. -/
theorem Ledger.lt_of_mem (h : Ledger s hand) (hmem : ticket ∈ s.tickets) : ticket < s.asked.length := by
  have hasked : ∃ args, s.asked[ticket]? = some args := by
    simp only [tickets, List.mem_append, List.mem_map] at hmem
    rcases hmem with (⟨f, hf, rfl⟩ | ⟨r, hr, rfl⟩) | ⟨i, hi, rfl⟩
    · exact ⟨_, h.posted f hf⟩
    · obtain ⟨args, hargs, -⟩ := h.requests r hr
      exact ⟨args, hargs⟩
    · obtain ⟨-, args, hargs, -⟩ := h.invoked i hi
      exact ⟨args, hargs⟩
  obtain ⟨args, hargs⟩ := hasked
  exact (List.getElem?_eq_some_iff.mp hargs).1

/-- A write is asked for. -/
theorem Ledger.ask (h : Ledger s []) (args : WriteArgs κ) : Ledger (s.ask args) [s.asked.length] := by
  have hold {ticket : ℕ} {a : WriteArgs κ} (hasked : s.asked[ticket]? = some a) :
      (s.asked ++ [args])[ticket]? = some a := by
    rw [List.getElem?_append_left (List.getElem?_eq_some_iff.mp hasked).1, hasked]
  refine ⟨fun f hf => hold (h.posted f hf), fun r hr => ?_, fun i hi => ?_, fun ticket a hasked hcallback => ?_⟩
  · obtain ⟨a, hasked, hr⟩ := h.requests r hr
    exact ⟨a, hold hasked, hr⟩
  · obtain ⟨hcallback, a, hasked, hi⟩ := h.invoked i hi
    exact ⟨hcallback, a, hold hasked, hi⟩
  · have hasked : (s.asked ++ [args])[ticket]? = some a := hasked
    show (s.tickets ++ [s.asked.length]).count ticket = 1
    rw [List.count_append, List.count_singleton]
    rw [List.getElem?_append] at hasked
    split at hasked
    · next hlt =>
      have hone := h.once ticket a hasked hcallback
      rw [List.append_nil] at hone
      rw [hone, if_neg (by simpa using hlt.ne')]
    · next hge =>
      obtain rfl : ticket = s.asked.length := by
        have hlt := (List.getElem?_eq_some_iff.mp hasked).1
        rw [List.length_singleton] at hlt
        omega
      rw [List.count_eq_zero_of_not_mem fun hmem => lt_irrefl _ (h.lt_of_mem hmem), if_pos (by simp)]

/-- What was in hand is put in its place, or what was in a place is taken in hand. -/
theorem Ledger.move (h : Ledger s hand) (hasked : s'.asked = s.asked)
    (hcount : ∀ t, s'.tickets.count t + hand'.count t = s.tickets.count t + hand.count t)
    (hposted : ∀ f ∈ s'.posted, f ∈ s.posted ∨ s.asked[f.ticket]? = some f.args)
    (hrequests : ∀ r ∈ s'.requests, r ∈ s.requests ∨ r.For s.asked)
    (hinvoked : ∀ i ∈ s'.invoked, i ∈ s.invoked ∨ i.For s.asked) : Ledger s' hand' := by
  constructor
  · intro f hf
    rw [hasked]
    exact (hposted f hf).elim (h.posted f) id
  · intro r hr
    rw [hasked]
    exact (hrequests r hr).elim (h.requests r) id
  · intro i hi
    rw [hasked]
    exact (hinvoked i hi).elim (h.invoked i) id
  · intro ticket' args hargs hcallback
    rw [hasked] at hargs
    rw [List.count_append, hcount, ← List.count_append]
    exact h.once ticket' args hargs hcallback

/-- A write without a callback needs no place. -/
theorem Ledger.drop (h : Ledger s [ticket]) (hargs : s.asked[ticket]? = some args) (hnone : args.callback = none) :
    Ledger s [] := by
  refine ⟨h.posted, h.requests, h.invoked, fun ticket' args' hargs' hcallback => ?_⟩
  have hne : ticket ≠ ticket' := by
    rintro rfl
    rw [hargs, Option.some.injEq] at hargs'
    exact hcallback (hargs' ▸ hnone)
  have hone := h.once ticket' args' hargs' hcallback
  rw [List.count_append, List.count_singleton, if_neg (by simpa using hne)] at hone
  rw [List.append_nil]
  exact hone

/-- A callback is invoked. -/
theorem Ledger.invoke (h : Ledger s [ticket]) {callback : Option κ} {info : WriteInfo}
    (hfor : (⟨ticket, callback, info⟩ : Invocation κ).For s.asked) :
    Ledger (s.invoke ticket callback info) [] := by
  refine h.move rfl (fun t => ?_) (fun f hf => .inl hf) (fun r hr => .inl hr) fun i hi => ?_
  · simp [tickets, WriteSystem.invoke, Nat.add_assoc]
  · rcases List.mem_append.mp hi with hi | hi
    · exact .inl hi
    · rw [List.mem_singleton.mp hi]
      exact .inr hfor

/-- A callback is invoked if there is one. -/
theorem Ledger.invokeIf (h : Ledger s [ticket]) (hargs : s.asked[ticket]? = some args) {info : WriteInfo}
    (hbuf : info.buf = args.buf) (hsize : args.callback ≠ none → info.size = args.size) :
    Ledger (s.invokeIf ticket args.callback info) [] := by
  rw [WriteSystem.invokeIf]
  split
  · next hsome =>
    have hne : args.callback ≠ none := Option.isSome_iff_ne_none.mp hsome
    exact h.invoke ⟨hne, args, hargs, rfl, hbuf, hsize hne⟩
  · next hnone => exact h.drop hargs (Option.not_isSome_iff_eq_none.mp hnone)

/-- `TcpConnection::write`. -/
theorem Ledger.write (h : Ledger s [ticket]) (hargs : s.asked[ticket]? = some args) (id : ℕ)
    {c : TcpConnection ι} (handle : UvTcp) {rst : ℤ} (hfits : Fits c args rst) :
    Ledger (s.write id c handle ticket args rst) [] := by
  rw [WriteSystem.write, TcpConnection.write]
  by_cases hconnected : c.connected_ = true
  · rw [if_pos hconnected]
    by_cases hrst : rst = 0
    · rw [if_pos hrst]
      refine h.move rfl (fun t => ?_) (fun f hf => .inl hf) (fun r hr => ?_) fun i hi => .inl hi
      · simp only [count_tickets, times, List.map_append, List.map_cons, List.map_nil, List.count_append, List.count_nil]
        omega
      · rcases List.mem_append.mp hr with hr | hr
        · exact .inl hr
        · rw [List.mem_singleton.mp hr]
          exact .inr ⟨args, hargs, rfl, rfl, fun hne => Nat.mod_eq_of_lt (hfits hconnected hrst hne)⟩
    · rw [if_neg hrst]
      exact h.invokeIf hargs rfl fun _ => rfl
  · rw [if_neg hconnected]
    exact h.invokeIf hargs rfl fun _ => rfl

/-- A function posted by `writeInLoop` runs. -/
theorem Ledger.runPosted {f : PostedWrite κ} (h : Ledger s [f.ticket]) (hargs : s.asked[f.ticket]? = some f.args)
    {rst : ℤ} (hcareful : match s.connections f.conn with
      | some (c, _) => Fits c f.args rst
      | none => f.args.callback ≠ none) : Ledger (s.runPosted f rst) [] := by
  rw [WriteSystem.runPosted]
  split
  · next c handle hconn =>
    rw [hconn] at hcareful
    exact h.write hargs f.conn handle hcareful
  · next hconn =>
    rw [hconn] at hcareful
    exact h.invoke ⟨hcareful, f.args, hargs, rfl, rfl, rfl⟩

theorem Ledger.connectionWrite (h : Ledger s [ticket]) (hargs : s.asked[ticket]? = some args) {id : ℕ} {rst : ℤ}
    (hfits : ∀ c handle, s.connections id = some (c, handle) → Fits c args rst)
    (hstep : s.connectionWrite id ticket args rst = some s') : Ledger s' [] := by
  simp only [WriteSystem.connectionWrite, Option.bind_eq_bind, Option.bind_eq_some_iff, Prod.exists] at hstep
  obtain ⟨c, handle, hconn, hstep⟩ := hstep
  cases hstep
  exact h.write hargs id handle (hfits c handle hconn)

theorem Ledger.connectionWriteInLoop (h : Ledger s [ticket]) (hargs : s.asked[ticket]? = some args) {id : ℕ}
    (hstep : s.connectionWriteInLoop id ticket args = some s') : Ledger s' [] := by
  simp only [WriteSystem.connectionWriteInLoop, Option.bind_eq_bind, Option.bind_eq_some_iff] at hstep
  obtain ⟨-, -, hstep⟩ := hstep
  cases hstep
  refine h.move rfl (fun t => ?_) (fun f hf => ?_) (fun r hr => .inl hr) fun i hi => .inl hi
  · simp only [count_tickets, times, List.map_append, List.map_cons, List.map_nil, List.count_append, List.count_nil]
    omega
  · rcases List.mem_append.mp hf with hf | hf
    · exact .inl hf
    · rw [List.mem_singleton.mp hf]
      exact .inr hargs

/-- What a server or a client does with a write. -/
theorem Ledger.orDisconnected (h : Ledger s [ticket]) (hargs : s.asked[ticket]? = some args)
    {connection : Option ℕ} {f : ℕ → Option (WriteSystem ι κ)}
    (hf : ∀ id s', f id = some s' → Ledger s' [])
    (hstep : s.orDisconnected connection ticket args f = some s') : Ledger s' [] := by
  cases connection with
  | some id => exact hf id s' hstep
  | none =>
    cases hstep
    exact h.invokeIf hargs rfl fun _ => rfl

/-- `TcpServer::write` and `TcpClient::write`. -/
theorem Ledger.writeOr (h : Ledger s [ticket]) (hargs : s.asked[ticket]? = some args) (hsize : args.size < 2 ^ 32)
    {connection : Option ℕ} {rst : ℤ}
    (hstep : s.serverWrite connection ticket args rst = some s') : Ledger s' [] :=
  h.orDisconnected hargs (fun _ _ => h.connectionWrite hargs fun _ _ _ _ _ _ => hsize) hstep

/-- `TcpServer::writeInLoop` and `TcpClient::writeInLoop`. -/
theorem Ledger.writeInLoopOr (h : Ledger s [ticket]) (hargs : s.asked[ticket]? = some args)
    {connection : Option ℕ}
    (hstep : s.serverWriteInLoop connection ticket args = some s') : Ledger s' [] :=
  h.orDisconnected hargs (fun _ _ => h.connectionWriteInLoop hargs) hstep

/-- What waits is taken. -/
theorem count_map_eraseIdx {α : Type} (f : α → ℕ) {l : List α} {k : ℕ} {a : α} (h : l[k]? = some a) (t : ℕ) :
    ((l.eraseIdx k).map f).count t + [f a].count t = (l.map f).count t := by
  obtain ⟨hlt, rfl⟩ := List.getElem?_eq_some_iff.mp h
  rw [← List.count_append]
  refine List.Perm.count_eq ((List.perm_append_singleton _ _).trans ?_) t
  exact (List.getElem_cons_eraseIdx_perm hlt).map f

theorem Ledger.takePosted (h : Ledger s []) {k : ℕ} {f : PostedWrite κ} (hf : s.posted[k]? = some f) :
    Ledger { s with posted := s.posted.eraseIdx k } [f.ticket] := by
  refine h.move rfl (fun t => ?_) (fun g hg => .inl (List.mem_of_mem_eraseIdx hg)) (fun r hr => .inl hr)
    fun i hi => .inl hi
  have := count_map_eraseIdx (·.ticket) hf t
  simp only [count_tickets, times, List.count_nil]
  omega

theorem Ledger.takeRequest (h : Ledger s []) {k : ℕ} {r : WriteReq κ} (hr : s.requests[k]? = some r) :
    Ledger { s with requests := s.requests.eraseIdx k } [r.ticket] := by
  refine h.move rfl (fun t => ?_) (fun f hf => .inl hf) (fun q hq => .inl (List.mem_of_mem_eraseIdx hq))
    fun i hi => .inl hi
  have := count_map_eraseIdx (·.ticket) hr t
  simp only [count_tickets, times, List.count_nil]
  omega

/-- **The step lemma.** -/
theorem Ledger.step (h : Ledger s []) {e : Event ι κ} (hcareful : s.Careful e) (hstep : s.step e = some s') :
    Ledger s' [] := by
  have hask (args : WriteArgs κ) : (s.ask args).asked[s.asked.length]? = some args := List.getElem?_concat_length
  cases e with
  | write w args rst =>
    simp only [WriteSystem.step, Option.ite_none_right_eq_some] at hstep
    obtain ⟨htakes, hstep⟩ := hstep
    cases w with
    | connection id => exact (h.ask args).connectionWrite (hask args) hcareful hstep
    | server connection => exact (h.ask args).writeOr (hask args) (of_decide_eq_true htakes) hstep
    | serverName name => exact (h.ask args).writeOr (hask args) (of_decide_eq_true htakes) hstep
    | client => exact (h.ask args).writeOr (hask args) (of_decide_eq_true htakes) hstep
  | writeInLoop w args =>
    simp only [WriteSystem.step, Option.ite_none_right_eq_some] at hstep
    obtain ⟨-, hstep⟩ := hstep
    cases w with
    | connection id => exact (h.ask args).connectionWriteInLoop (hask args) hstep
    | server connection => exact (h.ask args).writeInLoopOr (hask args) hstep
    | serverName name => exact (h.ask args).writeInLoopOr (hask args) hstep
    | client => exact (h.ask args).writeInLoopOr (hask args) hstep
  | run k rst =>
    simp only [WriteSystem.step, Option.bind_eq_bind, Option.bind_eq_some_iff] at hstep
    obtain ⟨f, hf, hstep⟩ := hstep
    cases hstep
    exact (h.takePosted hf).runPosted (h.posted f (List.mem_of_getElem? hf)) (hcareful f hf)
  | written k status =>
    simp only [WriteSystem.step, Option.bind_eq_bind, Option.bind_eq_some_iff] at hstep
    obtain ⟨r, hr, hstep⟩ := hstep
    cases hstep
    obtain ⟨args, hargs, hcallback, hbase, hlen⟩ := h.requests r (List.mem_of_getElem? hr)
    rw [hcallback]
    exact (h.takeRequest hr).invokeIf hargs hbase hlen
  | change connections connnections_ connection_ =>
    cases hstep
    exact h.move rfl (fun _ => rfl) (fun f hf => .inl hf) (fun r hr => .inl hr) fun i hi => .inl hi

theorem Ledger.invokedOnce (h : Ledger s []) : InvokedOnce s := by
  have hcount {ticket : ℕ} {args : WriteArgs κ} (hargs : s.asked[ticket]? = some args)
      (hne : args.callback ≠ none) :
      (s.posted.map (·.ticket)).count ticket + (s.requests.map (·.ticket)).count ticket + s.times ticket = 1 := by
    have hone := h.once ticket args hargs hne
    rwa [List.append_nil, count_tickets] at hone
  refine ⟨h.invoked, fun ticket args hargs hne => ?_, fun ticket args hargs hne hwaits => ?_⟩
  · have := hcount hargs hne
    omega
  · rw [Waits, not_or] at hwaits
    have hone := hcount hargs hne
    rwa [List.count_eq_zero_of_not_mem hwaits.1, List.count_eq_zero_of_not_mem hwaits.2, Nat.zero_add] at hone

/-- **Every callback is invoked once, and an absent one never**, in every run in which accepted writes
with a callback have sizes of 32 bits, and no connection has been destroyed when the loop comes to a write to it
without a callback. -/
theorem invoked_once {events : List (Event ι κ)}
    (hrun : Run (fun s e s' => s.Careful e ∧ s.step e = some s') new events s) : InvokedOnce s := by
  have h : Ledger s [] := by
    induction hrun with
    | nil => exact .new
    | snoc _ hstep ih => exact ih.step hstep.1 hstep.2
  exact h.invokedOnce

/-- A connection, and no server or client. -/
def connected : Event ℕ ℕ :=
  .change (fun id => if id = 0 then some ((TcpConnection.new []).setConnectCloseCallback, UvTcp.init) else none)
    (fun _ => none) none

/-- Nothing but what waits. -/
def destroyed : Event ℕ ℕ := .change (fun _ => none) (fun _ => none) none

/-- A write is posted, the connection is destroyed, and the loop comes to the write. -/
theorem invoked_once_sample : ∃ s : WriteSystem ℕ ℕ, InvokedOnce s ∧ ¬ s.Waits 0 ∧
    s.invoked = [⟨0, some 7, ⟨-1, 1000, 4⟩⟩] := by
  have hrun : Run (fun s e s' => s.Careful e ∧ s.step e = some s') (new : WriteSystem ℕ ℕ) [] new := .nil new
  have hrun := hrun.snoc (a := connected) ⟨trivial, rfl⟩
  have hrun := hrun.snoc (a := Event.writeInLoop (.connection 0) ⟨1000, 4, some 7⟩) ⟨trivial, rfl⟩
  have hrun := hrun.snoc (a := destroyed) ⟨trivial, rfl⟩
  have hrun := hrun.snoc (a := Event.run 0 0) ⟨by rintro f hf; cases hf; exact Option.some_ne_none 7, rfl⟩
  exact ⟨_, invoked_once hrun, by decide, rfl⟩

/-- **An absent callback is invoked** when a write without one is posted and its connection is destroyed; and
the callback of a write of `2 ^ 32 + 1` bytes that `uv_write` accepts is told that its size is one. -/
theorem not_invoked_once :
    (∃ s : WriteSystem ℕ ℕ, Run (fun s e s' => s.step e = some s') new
      [connected, .writeInLoop (.connection 0) ⟨1000, 4, none⟩, destroyed, .run 0 0] s ∧
        s.invoked = [⟨0, none, ⟨-1, 1000, 4⟩⟩] ∧ ¬ InvokedOnce s) ∧
      ∃ s : WriteSystem ℕ ℕ, Run (fun s e s' => s.step e = some s') new
        [connected, .write (.connection 0) ⟨1000, 2 ^ 32 + 1, some 7⟩ 0, .written 0 0] s ∧
          s.invoked = [⟨0, some 7, ⟨0, 1000, 1⟩⟩] ∧ ¬ InvokedOnce s := by
  have hrun : Run (fun s e s' => s.step e = some s') (new : WriteSystem ℕ ℕ) [] new := .nil new
  have hrun := hrun.snoc (a := connected) rfl
  constructor
  · have hrun := hrun.snoc (a := .writeInLoop (.connection 0) ⟨1000, 4, none⟩) rfl
    have hrun := hrun.snoc (a := destroyed) rfl
    have hrun := hrun.snoc (a := .run 0 0) rfl
    refine ⟨_, hrun, rfl, fun h => ?_⟩
    exact (h.passed _ List.mem_cons_self).1 rfl
  · have hrun := hrun.snoc (a := .write (.connection 0) ⟨1000, 2 ^ 32 + 1, some 7⟩ 0) rfl
    have hrun := hrun.snoc (a := .written 0 0) rfl
    refine ⟨_, hrun, rfl, fun h => ?_⟩
    obtain ⟨-, args, hargs, -, -, hsize⟩ := h.passed _ List.mem_cons_self
    cases hargs
    exact absurd hsize (by decide)

end WriteSystem

end UvCpp
