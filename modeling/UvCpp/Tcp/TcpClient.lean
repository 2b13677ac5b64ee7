import UvCpp.Tcp.TcpServer

/-!
# The TCP client

The client makes a handle for every `connect`, and a connection when that succeeds; both replace
the ones before them. It closes its connection when the connection ends or fails (`onConnectClose`)
and when the user calls `close`.

As with a server, a close that reaches a connection whose handle is being closed is complete at
once, and the user may then delete the client and with it a handle libuv still uses. No connection
is released before it is closed when no such close is made, by a client or a server
(`released_after_closed`).
-/

namespace UvCpp

open UvCpp.Cpp UvCpp.Systems

/-- `TcpClient::ConnectStatus`. -/
inductive ConnectStatus where
  /-- The connection stands. -/
  | OnConnectSuccess
  /-- It does not come about. -/
  | OnConnnectFail
  /-- It is closed. -/
  | OnConnnectClose
  deriving DecidableEq

/-- The close callbacks of a client's connections. -/
inductive ClientCallback where
  /-- `onClose`, which tells the user. -/
  | onClose
  /-- The one of `close`, with the user's callback or without. -/
  | close (callback : Bool)
  deriving DecidableEq

/-- A handle, and what the client has libuv do with it. -/
structure Socket where
  /-- The handle. -/
  handle : UvTcp
  /-- The connection that `data` of the handle points to. -/
  data : Option ℕ
  /-- Whether it is being connected. -/
  connecting : Bool
  /-- The connection whose end of stream is being answered with a shutdown. -/
  ending : Option ℕ
  /-- Whether it is closed because connecting failed. -/
  failed : Bool
  deriving DecidableEq

/-- A connection and the handle it owns, as a place among the client's handles. -/
structure Link where
  /-- The connection. -/
  conn : TcpConnection ClientCallback
  /-- The handle. -/
  handle_ : ℕ
  deriving DecidableEq

/-- `uv::TcpClient`, with its handles and connections. -/
structure TcpClient where
  /-- Every handle there has been. -/
  sockets : List Socket
  /-- Every connection there has been. -/
  links : List Link
  /-- The handle of the latest `connect`. -/
  socket_ : Option ℕ
  /-- The latest connection. -/
  connection_ : Option ℕ
  /-- What the user has been told. -/
  told : List ConnectStatus
  /-- The closes that have been completed. -/
  released : List Release

namespace TcpClient

/-- What happens to a client. -/
inductive Event where
  /-- The user calls `connect`; `rst` is what `uv_tcp_connect` returns. -/
  | connect (rst : ℤ)
  /-- Connecting a handle succeeds or fails; `name` is the address of the peer. -/
  | onConnect (k : ℕ) (successed : Bool) (name : Bytes)
  /-- A read of a handle; `rst` is what `uv_shutdown` returns. -/
  | onMesageReceive (k : ℕ) (nread rst : ℤ)
  /-- A shutdown of a handle comes to an end. -/
  | shutdown (k : ℕ)
  /-- The user calls `write`; `rst` is what `uv_write` returns. -/
  | write (rst : ℤ)
  /-- A write to a handle comes to an end. -/
  | written (k : ℕ)
  /-- The user calls `close`, with a callback or without. -/
  | close (callback : Bool)
  /-- libuv has closed a handle. -/
  | closed (k : ℕ)
  deriving DecidableEq

/-- A new client. -/
def new : TcpClient := ⟨[], [], none, none, [], []⟩

/-- `runConnectCallback`. -/
def runConnectCallback (c : TcpClient) (status : ConnectStatus) : TcpClient :=
  { c with told := c.told ++ [status] }

/-- A new state of a handle. -/
def setSocket (c : TcpClient) (k : ℕ) (socket : Socket) : TcpClient :=
  { c with sockets := c.sockets.set k socket }

/-- A new state of a connection. -/
def setConn (c : TcpClient) (id : ℕ) (link : Link) : TcpClient := { c with links := c.links.set id link }

/-- How far the handle of a connection has been closed. -/
def stateOf (c : TcpClient) (id : ℕ) : Option HandleState := do
  let link ← c.links[id]?
  let socket ← c.sockets[link.handle_]?
  some socket.handle.state

/-- The close of a connection is complete. -/
def release (c : TcpClient) (id : ℕ) : TcpClient :=
  { c with released := c.released ++ (c.stateOf id).toList.map (Release.mk id) }

/-- A close callback runs. -/
def runCallback (c : TcpClient) (id : ℕ) : ClientCallback → TcpClient
  | .onClose => (c.release id).runConnectCallback .OnConnnectClose
  | .close callback => if callback then c.release id else c

/-- `close` of a connection. -/
def closeConn (c : TcpClient) (id : ℕ) (callback : ClientCallback) : TcpClient :=
  match c.links[id]? with
  | none => c
  | some link =>
    match c.sockets[link.handle_]? with
    | none => c
    | some socket =>
      let (conn, handle, now) := link.conn.close socket.handle (some callback)
      let c := (c.setConn id { link with conn }).setSocket link.handle_ { socket with handle }
      match now with
      | none => c
      | some callback => c.runCallback id callback

/-- The callback of `uv_close`: after a failure to connect it tells the user, and else it is
`CloseComplete` of the connection that the handle points to. -/
def onClosed (c : TcpClient) (socket : Socket) : TcpClient :=
  if socket.failed then c.runConnectCallback .OnConnnectFail
  else
    match socket.data with
    | none => c
    | some id =>
      match c.links[id]? with
      | none => c
      | some link =>
        match link.conn.CloseComplete with
        | none => c
        | some callback => c.runCallback id callback

/-- `connect`, with `update`: the handle before is dropped. -/
def connect (c : TcpClient) (rst : ℤ) : TcpClient :=
  let socket : Socket := ⟨.init, none, rst = 0, none, false⟩
  { c with sockets := c.sockets ++ [socket], socket_ := some c.sockets.length }

/-- `onConnect`, for the handle of the latest `connect`. -/
def onConnect (c : TcpClient) (successed : Bool) (name : Bytes) : TcpClient :=
  match c.socket_ with
  | none => c
  | some k =>
    match c.sockets[k]? with
    | none => c
    | some socket =>
      if successed then
        let conn := (TcpConnection.new name).setMessageCallback.setConnectCloseCallback
        let link : Link := ⟨conn, k⟩
        let socket := { socket with handle := socket.handle.uv_read_start, data := some c.links.length }
        let c := { c with links := c.links ++ [link], connection_ := some c.links.length }
        (c.setSocket k socket).runConnectCallback .OnConnectSuccess
      else
        let handle := if socket.handle.uv_is_active then socket.handle.uv_read_stop else socket.handle
        if handle.uv_is_closing = false then
          c.setSocket k { socket with handle := handle.uv_close, data := none, failed := true }
        else c.setSocket k { socket with handle }

/-- `onConnectClose`. -/
def onConnectClose (c : TcpClient) : TcpClient :=
  match c.connection_ with
  | none => c
  | some id => c.closeConn id .onClose

/-- `onSocketClose` of a connection. -/
def onSocketClose (c : TcpClient) (id : ℕ) : TcpClient :=
  match c.links[id]? with
  | none => c
  | some link => if link.conn.onSocketClose then c.onConnectClose else c

/-- `close`. -/
def close (c : TcpClient) (callback : Bool) : TcpClient :=
  match c.connection_ with
  | none => c
  | some id => c.closeConn id (.close callback)

/-- `onMesageReceive` of the connection `id`, which owns the handle `k`. -/
def onMesageReceive (c : TcpClient) (k : ℕ) (socket : Socket) (id : ℕ) (link : Link) (nread rst : ℤ) :
    TcpClient :=
  let (conn, received) := link.conn.onMesageReceive nread
  match received with
  | .message => c
  | .nothing => c
  | .socketClose =>
    let c := (c.setConn id { link with conn }).setSocket k { socket with handle.reading := false }
    c.onSocketClose id
  | .shutdown =>
    let ending := if rst = 0 then some id else none
    (c.setConn id { link with conn }).setSocket k { socket with handle.reading := false, ending }

/-- `write`. -/
def write (c : TcpClient) (rst : ℤ) : TcpClient :=
  match c.connection_ with
  | none => c
  | some id =>
    match c.links[id]? with
    | none => c
    | some link =>
      match c.sockets[link.handle_]? with
      | none => c
      | some socket =>
        c.setSocket link.handle_ { socket with handle := (link.conn.write socket.handle rst).1 }

/-- A step, if it can happen. libuv reads only what is in use, ends connecting, shutdowns and writes
before it closes a handle, and closes what it is asked to. -/
def step (c : TcpClient) : Event → Option TcpClient
  | .connect rst => some (c.connect rst)
  | .onConnect k successed name => do
    let socket ← c.sockets[k]?
    if socket.handle.state ≠ .closed ∧ socket.connecting ∧ (successed → socket.handle.state = .inUse) then
      some ((c.setSocket k { socket with connecting := false }).onConnect successed name)
    else none
  | .onMesageReceive k nread rst => do
    let socket ← c.sockets[k]?
    let id ← socket.data
    let link ← c.links[id]?
    if socket.handle.state = .inUse ∧ socket.handle.reading then
      some (c.onMesageReceive k socket id link nread rst)
    else none
  | .shutdown k => do
    let socket ← c.sockets[k]?
    let id ← socket.ending
    if socket.handle.state ≠ .closed then
      some ((c.setSocket k { socket with ending := none }).onSocketClose id)
    else none
  | .write rst => some (c.write rst)
  | .written k => do
    let socket ← c.sockets[k]?
    if socket.handle.state ≠ .closed ∧ 0 < socket.handle.writes then
      some (c.setSocket k { socket with handle.writes := socket.handle.writes - 1 })
    else none
  | .close callback => some (c.close callback)
  | .closed k => do
    let socket ← c.sockets[k]?
    if socket.handle.state = .closing ∧ socket.connecting = false ∧ socket.ending = none ∧
        socket.handle.writes = 0 then
      some ((c.setSocket k { socket with handle.state := .closed }).onClosed socket)
    else none

/-- What a step is, for each event. -/
inductive Moves (c : TcpClient) : Event → TcpClient → Prop where
  | connect (rst : ℤ) : Moves c (.connect rst) (c.connect rst)
  | onConnect {k : ℕ} {socket : Socket} {successed : Bool} (name : Bytes) : c.sockets[k]? = some socket →
      socket.handle.state ≠ .closed → socket.connecting = true →
        (successed = true → socket.handle.state = .inUse) → Moves c (.onConnect k successed name)
          ((c.setSocket k { socket with connecting := false }).onConnect successed name)
  | onMesageReceive {k id : ℕ} {socket : Socket} {link : Link} (nread rst : ℤ) :
      c.sockets[k]? = some socket → socket.data = some id → c.links[id]? = some link →
        socket.handle.state = .inUse → socket.handle.reading = true →
          Moves c (.onMesageReceive k nread rst) (c.onMesageReceive k socket id link nread rst)
  | shutdown {k id : ℕ} {socket : Socket} : c.sockets[k]? = some socket → socket.ending = some id →
      socket.handle.state ≠ .closed → Moves c (.shutdown k)
        ((c.setSocket k { socket with ending := none }).onSocketClose id)
  | write (rst : ℤ) : Moves c (.write rst) (c.write rst)
  | written {k : ℕ} {socket : Socket} : c.sockets[k]? = some socket → socket.handle.state ≠ .closed →
      0 < socket.handle.writes → Moves c (.written k)
        (c.setSocket k { socket with handle.writes := socket.handle.writes - 1 })
  | close (callback : Bool) : Moves c (.close callback) (c.close callback)
  | closed {k : ℕ} {socket : Socket} : c.sockets[k]? = some socket → socket.handle.state = .closing →
      socket.connecting = false → socket.ending = none → socket.handle.writes = 0 → Moves c (.closed k)
        ((c.setSocket k { socket with handle.state := .closed }).onClosed socket)

theorem moves_of_step {c c' : TcpClient} {e : Event} (h : c.step e = some c') : c.Moves e c' := by
  cases e with
  | connect rst =>
    cases h
    exact .connect rst
  | onConnect k successed name =>
    simp only [step, Option.bind_eq_bind, Option.bind_eq_some_iff, Option.ite_none_right_eq_some] at h
    obtain ⟨socket, hk, ⟨hopen, hconnecting, hstate⟩, h⟩ := h
    cases h
    exact .onConnect name hk hopen hconnecting hstate
  | onMesageReceive k nread rst =>
    simp only [step, Option.bind_eq_bind, Option.bind_eq_some_iff, Option.ite_none_right_eq_some] at h
    obtain ⟨socket, hk, id, hdata, link, hid, ⟨hopen, hreading⟩, h⟩ := h
    cases h
    exact .onMesageReceive nread rst hk hdata hid hopen hreading
  | shutdown k =>
    simp only [step, Option.bind_eq_bind, Option.bind_eq_some_iff, Option.ite_none_right_eq_some] at h
    obtain ⟨socket, hk, id, hending, hopen, h⟩ := h
    cases h
    exact .shutdown hk hending hopen
  | write rst =>
    cases h
    exact .write rst
  | written k =>
    simp only [step, Option.bind_eq_bind, Option.bind_eq_some_iff, Option.ite_none_right_eq_some] at h
    obtain ⟨socket, hk, ⟨hopen, hpos⟩, h⟩ := h
    cases h
    exact .written hk hopen hpos
  | close callback =>
    cases h
    exact .close callback
  | closed k =>
    simp only [step, Option.bind_eq_bind, Option.bind_eq_some_iff, Option.ite_none_right_eq_some] at h
    obtain ⟨socket, hk, ⟨hclosing, hconnecting, hending, hwrites⟩, h⟩ := h
    cases h
    exact .closed hk hclosing hconnecting hending hwrites

/-! ### The condition -/

/-- libuv is not closing the handle of the client's connection. -/
def Idle (c : TcpClient) : Prop := ∀ id, c.connection_ = some id → c.stateOf id ≠ some .closing

/-- A connection that tells the client when it ends or fails. -/
def Watched (c : TcpClient) (id : ℕ) : Prop :=
  ∃ link : Link, c.links[id]? = some link ∧ link.conn.onConnectCloseCallback_ = true

/-- The client's connection is not closed while libuv is closing its handle: not by the user, and
not because a connection, which may be an earlier one, ends or fails. -/
def Orderly (c : TcpClient) : Event → Prop
  | .onMesageReceive k nread _ => ∀ (socket : Socket) id, c.sockets[k]? = some socket →
      socket.data = some id → c.Watched id → nread < 0 → nread ≠ UV_EOF → c.Idle
  | .shutdown k => ∀ (socket : Socket) id, c.sockets[k]? = some socket → socket.ending = some id →
      c.Watched id → c.Idle
  | .close callback => callback = true → c.Idle
  | _ => True

/-! ### The invariant -/

/-- What holds of a client as long as the condition is met. -/
structure Inv (c : TcpClient) : Prop where
  /-- The connection that a handle points to owns it. -/
  owns : ∀ k (socket : Socket) id, c.sockets[k]? = some socket → socket.data = some id →
    ∃ link : Link, c.links[id]? = some link ∧ link.handle_ = k
  /-- Nothing has been released before it was closed. -/
  released : ∀ r ∈ c.released, r.state = .closed

variable {c c' : TcpClient} {k id : ℕ} {socket socket' : Socket} {link link' : Link}

theorem getElem?_setSocket (hk : c.sockets[k]? = some socket) (socket' : Socket) (j : ℕ) :
    (c.setSocket k socket').sockets[j]? = if k = j then some socket' else c.sockets[j]? := by
  obtain ⟨hlt, -⟩ := List.getElem?_eq_some_iff.mp hk
  rw [setSocket, List.getElem?_set]
  simp [hlt]

theorem getElem?_setConn (hid : c.links[id]? = some link) (link' : Link) (j : ℕ) :
    (c.setConn id link').links[j]? = if id = j then some link' else c.links[j]? := by
  obtain ⟨hlt, -⟩ := List.getElem?_eq_some_iff.mp hid
  rw [setConn, List.getElem?_set]
  simp [hlt]

theorem stateOf_eq (hid : c.links[id]? = some link) (hk : c.sockets[link.handle_]? = some socket) :
    c.stateOf id = some socket.handle.state := by
  rw [stateOf, hid, Option.bind_eq_bind, Option.bind_some, hk]
  rfl

theorem Inv.runConnectCallback (h : Inv c) (status : ConnectStatus) : Inv (c.runConnectCallback status) :=
  ⟨h.owns, h.released⟩

/-- A step of one handle. -/
theorem Inv.setSocket (h : Inv c) (hk : c.sockets[k]? = some socket)
    (hdata : ∀ id, socket'.data = some id → ∃ link : Link, c.links[id]? = some link ∧ link.handle_ = k) :
    Inv (c.setSocket k socket') := by
  refine ⟨fun j socket'' id hj hid => ?_, h.released⟩
  rw [getElem?_setSocket hk] at hj
  split at hj
  · next heq =>
    subst heq
    cases hj
    exact hdata id hid
  · exact h.owns j socket'' id hj hid

/-- A step of one handle that does not change whose it is. -/
theorem Inv.setSocket_of_eq (h : Inv c) (hk : c.sockets[k]? = some socket)
    (hdata : socket'.data = socket.data) : Inv (c.setSocket k socket') :=
  h.setSocket hk fun id hid => h.owns k socket id hk (hdata.symm.trans hid)

/-- A step of one connection. -/
theorem Inv.setConn (h : Inv c) (hid : c.links[id]? = some link) (hhandle : link'.handle_ = link.handle_) :
    Inv (c.setConn id link') := by
  refine ⟨fun k socket j hk hj => ?_, h.released⟩
  obtain ⟨link'', hlink, rfl⟩ := h.owns k socket j hk hj
  rw [getElem?_setConn hid]
  split
  · next heq =>
    subst heq
    rw [hid, Option.some.injEq] at hlink
    exact ⟨link', rfl, by rw [hhandle, hlink]⟩
  · exact ⟨link'', hlink, rfl⟩

/-- A close callback of a connection that is closed. -/
theorem Inv.runCallback (h : Inv c) (hclosed : c.stateOf id = some .closed) (callback : ClientCallback) :
    Inv (c.runCallback id callback) := by
  have hrelease : Inv (c.release id) := by
    refine ⟨h.owns, fun r hr => ?_⟩
    rw [release, hclosed] at hr
    obtain hr | hr := List.mem_append.mp hr
    · exact h.released r hr
    · rw [List.mem_singleton.mp hr]
  cases callback with
  | onClose => exact hrelease.runConnectCallback _
  | close callback =>
    cases callback with
    | true => exact hrelease
    | false => exact h

/-- A call to `close` of a connection. -/
theorem Inv.closeConn (h : Inv c) {callback : ClientCallback}
    (hidle : callback ≠ .close false → c.stateOf id ≠ some .closing) : Inv (c.closeConn id callback) := by
  rw [TcpClient.closeConn]
  split
  · exact h
  · next link hid =>
    split
    · exact h
    · next socket hk =>
      obtain ⟨conn, handle, now, heq, -, -, -, hcases⟩ := link.conn.close_cases socket.handle (some callback)
      have hset : Inv ((c.setConn id { link with conn }).setSocket link.handle_ { socket with handle }) :=
        Inv.setSocket_of_eq (h.setConn hid rfl) hk rfl
      rw [heq]
      cases now with
      | none => exact hset
      | some callback' =>
        obtain ⟨-, -, hnow⟩ | ⟨hopen, hstate, hnow⟩ := hcases
        · cases hnow
        · cases hnow
          by_cases hsilent : callback = .close false
          · rw [hsilent]
            exact hset
          · have hid' : ((c.setConn id { link with conn }).setSocket link.handle_ { socket with handle }).links[id]? =
                some { link with conn } := (getElem?_setConn hid _ id).trans (if_pos rfl)
            have hk' : ((c.setConn id { link with conn }).setSocket link.handle_
                { socket with handle }).sockets[link.handle_]? = some { socket with handle } :=
              (getElem?_setSocket (c := c.setConn id { link with conn }) hk _ _).trans (if_pos rfl)
            refine hset.runCallback ((stateOf_eq hid' hk').trans ?_) callback
            have hclosing := hidle hsilent
            rw [stateOf_eq hid hk] at hclosing
            rw [hstate]
            cases hs : socket.handle.state with
            | inUse => exact absurd hs hopen
            | closing => simp [hs] at hclosing
            | closed => rfl

/-- A connection ends or fails. -/
theorem Inv.onSocketClose (h : Inv c) (hidle : c.Watched id → c.Idle) : Inv (c.onSocketClose id) := by
  rw [TcpClient.onSocketClose]
  split
  · exact h
  · next link hid =>
    split
    · next hwatched =>
      rw [onConnectClose]
      split
      · exact h
      · next j hj => exact h.closeConn fun _ => hidle ⟨link, hid, hwatched⟩ j hj
    · exact h

/-- Connecting a handle succeeds or fails. -/
theorem Inv.onConnect (h : Inv c) (successed : Bool) (name : Bytes) : Inv (c.onConnect successed name) := by
  rw [TcpClient.onConnect]
  split
  · exact h
  · next k _ =>
    split
    · exact h
    · next socket hk =>
      split
      · -- the new connection owns the handle
        have hlinks : ∀ link connection_, Inv { c with links := c.links ++ [link], connection_ } := by
          intro link connection_
          refine ⟨fun j socket' id hj hid => ?_, h.released⟩
          obtain ⟨link', hlink, hhandle⟩ := h.owns j socket' id hj hid
          obtain ⟨hlt, -⟩ := List.getElem?_eq_some_iff.mp hlink
          exact ⟨link', (List.getElem?_append_left hlt).trans hlink, hhandle⟩
        refine Inv.runConnectCallback (Inv.setSocket (hlinks _ _) hk fun id hid => ?_) _
        cases hid
        exact ⟨_, List.getElem?_concat_length, rfl⟩
      · have hset : ∀ handle : UvTcp, Inv (if handle.uv_is_closing = false then
            c.setSocket k { socket with handle := handle.uv_close, data := none, failed := true }
          else c.setSocket k { socket with handle }) := by
          intro handle
          split
          · exact h.setSocket hk fun id hid => by cases hid
          · exact h.setSocket_of_eq hk rfl
        exact hset _

/-- The condition does not depend on what else a handle is used for. -/
theorem Idle.setSocket (hidle : c.Idle) (hk : c.sockets[k]? = some socket)
    (hstate : socket'.handle.state = socket.handle.state) : (c.setSocket k socket').Idle := by
  intro id hid
  have hclosing := hidle id hid
  rw [stateOf] at hclosing ⊢
  cases hlink : c.links[id]? with
  | none => simp [TcpClient.setSocket, hlink]
  | some link =>
    rw [hlink, Option.bind_eq_bind, Option.bind_some] at hclosing
    rw [show (c.setSocket k socket').links[id]? = some link from hlink, Option.bind_eq_bind,
      Option.bind_some, getElem?_setSocket hk]
    split
    · next heq =>
      rw [← heq, hk] at hclosing
      simpa [hstate] using hclosing
    · exact hclosing

theorem Idle.setConn (hidle : c.Idle) (hid : c.links[id]? = some link)
    (hhandle : link'.handle_ = link.handle_) : (c.setConn id link').Idle := by
  intro j hj
  have hclosing := hidle j hj
  rw [stateOf] at hclosing ⊢
  rw [getElem?_setConn hid]
  split
  · next heq =>
    rw [← heq, hid, Option.bind_eq_bind, Option.bind_some, ← hhandle] at hclosing
    exact hclosing
  · exact hclosing

/-- `connect` makes a handle that is nobody's yet. -/
theorem Inv.connect (h : Inv c) (rst : ℤ) : Inv (c.connect rst) := by
  refine ⟨fun k socket id hk hid => ?_, h.released⟩
  rw [TcpClient.connect, List.getElem?_append] at hk
  split at hk
  · exact h.owns k socket id hk hid
  · rw [List.getElem?_singleton] at hk
    split at hk
    · cases hk
      cases hid
    · cases hk

/-- A write to a connection. -/
theorem Inv.write (h : Inv c) (rst : ℤ) : Inv (c.write rst) := by
  rw [TcpClient.write]
  split
  · exact h
  · split
    · exact h
    · split
      · exact h
      · next hk => exact h.setSocket_of_eq hk rfl

/-- libuv has closed a handle. -/
theorem Inv.onClosed (h : Inv c) (hk : c.sockets[k]? = some socket) :
    Inv ((c.setSocket k { socket with handle.state := .closed }).onClosed socket) := by
  have hset : Inv (c.setSocket k { socket with handle.state := .closed }) := h.setSocket_of_eq hk rfl
  rw [TcpClient.onClosed]
  split
  · exact hset.runConnectCallback _
  · split
    · exact hset
    · next id hid =>
      split
      · exact hset
      · split
        · exact hset
        · next callback _ =>
          -- the connection the handle points to owns it, so it is the one that is closed
          obtain ⟨link, hlink, rfl⟩ := h.owns k socket id hk hid
          have hk' : (c.setSocket link.handle_ { socket with handle.state := .closed }).sockets[link.handle_]? =
              some { socket with handle.state := .closed } := (getElem?_setSocket hk _ _).trans (if_pos rfl)
          have hlink' : (c.setSocket link.handle_ { socket with handle.state := .closed }).links[id]? =
              some link := hlink
          exact hset.runCallback (stateOf_eq hlink' hk') callback

/-- A read of a connection. -/
theorem Inv.onMesageReceive (h : Inv c) (hk : c.sockets[k]? = some socket) (hid : c.links[id]? = some link)
    (nread rst : ℤ) (hidle : c.Watched id → nread < 0 → nread ≠ UV_EOF → c.Idle) :
    Inv (c.onMesageReceive k socket id link nread rst) := by
  obtain ⟨status, hconn⟩ := link.conn.onMesageReceive_fst nread
  have hset (socket' : Socket) (hdata : socket'.data = socket.data) :
      Inv ((c.setConn id { link with conn := link.conn.setConnectStatus status }).setSocket k socket') :=
    Inv.setSocket_of_eq (h.setConn hid rfl) hk hdata
  rw [TcpClient.onMesageReceive]
  dsimp only
  rw [hconn]
  split
  · exact h
  · exact h
  · next hreceived =>
    obtain ⟨hneg, heof⟩ := TcpConnection.onMesageReceive_socketClose hreceived
    refine (hset { socket with handle.reading := false } rfl).onSocketClose fun hwatched => ?_
    have hwatched' : c.Watched id := by
      obtain ⟨link', hlink', hcallback⟩ := hwatched
      have hlink' : (c.setConn id { link with conn := link.conn.setConnectStatus status }).links[id]? =
          some link' := hlink'
      rw [getElem?_setConn hid, if_pos rfl] at hlink'
      cases hlink'
      exact ⟨link, hid, hcallback⟩
    have hidle' : (c.setConn id { link with conn := link.conn.setConnectStatus status }).Idle :=
      (hidle hwatched' hneg heof).setConn hid rfl
    apply hidle'.setSocket hk
    rfl
  · exact hset _ rfl

/-- **A step that meets the condition** keeps the invariant. -/
theorem Inv.step (h : Inv c) {e : Event} (horderly : c.Orderly e) (hstep : c.step e = some c') : Inv c' := by
  cases moves_of_step hstep with
  | connect rst => exact h.connect rst
  | @onConnect k socket successed name hk hopen hconnecting hstate =>
    have hset : Inv (c.setSocket k { socket with connecting := false }) := h.setSocket_of_eq hk rfl
    exact hset.onConnect successed name
  | onMesageReceive nread rst hk hdata hid hopen hreading =>
    exact h.onMesageReceive hk hid nread rst (horderly _ _ hk hdata)
  | @shutdown k id socket hk hending hopen =>
    have hset : Inv (c.setSocket k { socket with ending := none }) := h.setSocket_of_eq hk rfl
    refine hset.onSocketClose fun hwatched => ?_
    refine (horderly socket id hk hending hwatched).setSocket hk ?_
    rfl
  | write rst => exact h.write rst
  | written hk hopen hpos => exact h.setSocket_of_eq hk rfl
  | close callback =>
    rw [TcpClient.close]
    split
    · exact h
    · next id hid =>
      refine h.closeConn fun hcallback => horderly ?_ id hid
      cases callback with
      | true => rfl
      | false => exact absurd rfl hcallback
  | closed hk _ _ _ _ => exact h.onClosed hk

/-- A new client. -/
theorem Inv.new : Inv TcpClient.new := by
  constructor
  · intro k socket id hk
    cases hk
  · intro r hr
    cases hr

end TcpClient

/-- The address of a peer. -/
def samplePeer : Bytes := bytes "127.0.0.1:10002"

end UvCpp
