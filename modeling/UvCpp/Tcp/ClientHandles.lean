import UvCpp.Tcp.TcpClient

/-!
# The handles of a client

A client holds two handles: that of the latest `connect`, in `socket_`, and that of the latest
connection, which `connection_` owns. `connect` replaces the first and a success the second, and
neither looks at what becomes of the handle before.

If `connect` is called only when the handle of the `connect` before is closed or is that of the
connection, and connecting succeeds only when the handle of the connection before is closed, then
every handle that libuv is not done with is held, and an earlier connection closes nothing
(`handles_owned`); a step that breaks the condition loses a handle (`Held.owned_iff`).
-/

namespace UvCpp.TcpClient

open UvCpp.Cpp UvCpp.Systems

variable {c c' : TcpClient} {k id : ℕ} {socket socket' : Socket} {link link' : Link}

/-- The handle of the client's connection. -/
def connectionHandle (c : TcpClient) : Option ℕ := do
  let id ← c.connection_
  let link ← c.links[id]?
  some link.handle_

/-- A handle that the client holds. -/
def Owns (c : TcpClient) (k : ℕ) : Prop := c.socket_ = some k ∨ c.connectionHandle = some k

/-- libuv is done with a handle. -/
def Done (c : TcpClient) (k : ℕ) : Prop := ∀ socket ∈ c.sockets[k]?, socket.handle.state = .closed

/-- Every handle that libuv is not done with is held. -/
def AllOwned (c : TcpClient) : Prop :=
  ∀ (k : ℕ) (socket : Socket), c.sockets[k]? = some socket → socket.handle.state ≠ .closed → c.Owns k

/-- `connect` is called when the handle of the `connect` before is closed or is that of the
connection; and connecting succeeds when the handle of the connection before is closed. -/
def KeepsHandles (c : TcpClient) : Event → Prop
  | .connect _ => ∀ k ∈ c.socket_, c.Done k ∨ c.connectionHandle = some k
  | .onConnect _ true _ => ∀ k ∈ c.connectionHandle, c.Done k
  | _ => True

/-- What holds of a client as long as the condition is met. -/
structure Held (c : TcpClient) : Prop where
  /-- Every handle that libuv is not done with is held. -/
  owned : c.AllOwned
  /-- A handle that is being connected is the latest, and not yet a connection's. -/
  connecting : ∀ (k : ℕ) (socket : Socket), c.sockets[k]? = some socket → socket.connecting = true →
    socket.handle.state ≠ .closed → c.socket_ = some k ∧ c.connectionHandle ≠ some k
  /-- The latest handle exists. -/
  socket : ∀ k, c.socket_ = some k → k < c.sockets.length
  /-- The latest connection exists. -/
  connection : ∀ id, c.connection_ = some id → id < c.links.length
  /-- The handle of a connection exists. -/
  handle : ∀ (id : ℕ) (link : Link), c.links[id]? = some link → link.handle_ < c.sockets.length
  /-- The connection is in use while it is watched. -/
  watched : ∀ (id : ℕ) (link : Link) (socket : Socket), c.connection_ = some id → c.links[id]? = some link →
    c.sockets[link.handle_]? = some socket → link.conn.onConnectCloseCallback_ = true →
    socket.handle.state = .inUse
  /-- libuv is done with the handles of earlier connections, and they are not watched. -/
  earlier : ∀ (id : ℕ) (link : Link), c.links[id]? = some link → c.connection_ ≠ some id →
    c.Done link.handle_ ∧ link.conn.onConnectCloseCallback_ ≠ true

theorem connectionHandle_eq (hid : c.connection_ = some id) (hlink : c.links[id]? = some link) :
    c.connectionHandle = some link.handle_ := by
  rw [connectionHandle, hid, Option.bind_eq_bind, Option.bind_some, hlink]
  rfl

/-- What becomes of a client in a step that makes no handle and no connection. -/
structure Evolves (c c' : TcpClient) : Prop where
  /-- The latest handle is the same. -/
  socket : c'.socket_ = c.socket_
  /-- The latest connection is the same. -/
  connection : c'.connection_ = c.connection_
  /-- There are as many handles. -/
  sockets : c'.sockets.length = c.sockets.length
  /-- There are as many connections. -/
  links : c'.links.length = c.links.length
  /-- What is closed stays closed, and nothing begins to be connected. -/
  state : ∀ (k : ℕ) (socket' : Socket), c'.sockets[k]? = some socket' → ∃ socket, c.sockets[k]? = some socket ∧
    (socket.handle.state = .closed → socket'.handle.state = .closed) ∧
    (socket'.connecting = true → socket.connecting = true)
  /-- A connection keeps its handle, and can cease to be watched. -/
  link : ∀ (id : ℕ) (link' : Link), c'.links[id]? = some link' → ∃ link, c.links[id]? = some link ∧
    link'.handle_ = link.handle_ ∧
    (link'.conn.onConnectCloseCallback_ = true → link.conn.onConnectCloseCallback_ = true)

theorem Evolves.refl (c : TcpClient) : Evolves c c :=
  ⟨rfl, rfl, rfl, rfl, fun _ socket h => ⟨socket, h, fun h => h, fun h => h⟩,
    fun _ link h => ⟨link, h, rfl, fun h => h⟩⟩

theorem Evolves.connectionHandle (h : Evolves c c') : c'.connectionHandle = c.connectionHandle := by
  rw [TcpClient.connectionHandle, TcpClient.connectionHandle, h.connection]
  cases hid : c.connection_ with
  | none => rfl
  | some id =>
    simp only [Option.bind_eq_bind, Option.bind_some]
    cases hlink' : c'.links[id]? with
    | none =>
      have hnone : c.links[id]? = none := by
        rw [List.getElem?_eq_none_iff] at hlink' ⊢
        rwa [← h.links]
      rw [hnone]
    | some link' =>
      obtain ⟨link, hlink, hhandle, -⟩ := h.link id link' hlink'
      rw [hlink, Option.bind_some, Option.bind_some, hhandle]

theorem Evolves.done (h : Evolves c c') (hdone : c.Done k) : c'.Done k := by
  intro socket' hsocket'
  obtain ⟨socket, hsocket, hclosed, -⟩ := h.state k socket' hsocket'
  exact hclosed (hdone socket hsocket)

/-- A step that makes no handle and no connection. -/
theorem Held.evolves (h : Held c) (he : Evolves c c')
    (hwatched : ∀ (id : ℕ) (link : Link) (socket : Socket), c'.connection_ = some id →
      c'.links[id]? = some link → c'.sockets[link.handle_]? = some socket →
      link.conn.onConnectCloseCallback_ = true → socket.handle.state = .inUse) : Held c' := by
  refine ⟨?_, ?_, ?_, ?_, ?_, hwatched, ?_⟩
  · intro k socket' hk hopen
    obtain ⟨socket, hk, hclosed, -⟩ := he.state k socket' hk
    rw [Owns, he.socket, he.connectionHandle]
    exact h.owned k socket hk fun hc => hopen (hclosed hc)
  · intro k socket' hk hconnecting hopen
    obtain ⟨socket, hk, hclosed, hold⟩ := he.state k socket' hk
    rw [he.socket, he.connectionHandle]
    exact h.connecting k socket hk (hold hconnecting) fun hc => hopen (hclosed hc)
  · intro k hk
    rw [he.socket] at hk
    rw [he.sockets]
    exact h.socket k hk
  · intro id hid
    rw [he.connection] at hid
    rw [he.links]
    exact h.connection id hid
  · intro id link' hlink'
    obtain ⟨link, hlink, hhandle, -⟩ := he.link id link' hlink'
    rw [he.sockets, hhandle]
    exact h.handle id link hlink
  · intro id link' hlink' hne
    obtain ⟨link, hlink, hhandle, hold⟩ := he.link id link' hlink'
    rw [he.connection] at hne
    obtain ⟨hdone, hsilent⟩ := h.earlier id link hlink hne
    rw [hhandle]
    exact ⟨he.done hdone, fun hcallback => hsilent (hold hcallback)⟩

/-- A step that concerns neither handles nor connections. -/
theorem Held.of_eq (h : Held c) (hsockets : c'.sockets = c.sockets) (hlinks : c'.links = c.links)
    (hsocket : c'.socket_ = c.socket_) (hconnection : c'.connection_ = c.connection_) : Held c' := by
  have he : Evolves c c' := by
    refine ⟨hsocket, hconnection, by rw [hsockets], by rw [hlinks], fun k socket hk => ?_, fun id link hid => ?_⟩
    · exact ⟨socket, hsockets ▸ hk, fun h => h, fun h => h⟩
    · exact ⟨link, hlinks ▸ hid, rfl, fun h => h⟩
  apply h.evolves he
  rw [hsockets, hlinks, hconnection]
  exact h.watched

theorem Held.runCallback (h : Held c) (id : ℕ) (callback : ClientCallback) : Held (c.runCallback id callback) := by
  cases callback with
  | onClose => exact h.of_eq rfl rfl rfl rfl
  | close callback =>
    cases callback with
    | true => exact h.of_eq rfl rfl rfl rfl
    | false => exact h

theorem Held.setSocket (h : Held c) (hk : c.sockets[k]? = some socket)
    (hopen : ∀ (id : ℕ) (link : Link), c.connection_ = some id → c.links[id]? = some link → link.handle_ = k →
      link.conn.onConnectCloseCallback_ = true → socket.handle.state = .inUse → socket'.handle.state = .inUse)
    (hclosed : socket.handle.state = .closed → socket'.handle.state = .closed)
    (hconnecting : socket'.connecting = true → socket.connecting = true) : Held (c.setSocket k socket') := by
  have he : Evolves c (c.setSocket k socket') := by
    refine ⟨rfl, rfl, List.length_set, rfl, fun j socket'' hj => ?_, fun id link hid => ⟨link, hid, rfl, fun h => h⟩⟩
    rw [getElem?_setSocket hk] at hj
    split at hj
    · next heq =>
      subst heq
      cases hj
      exact ⟨socket, hk, hclosed, hconnecting⟩
    · exact ⟨socket'', hj, fun h => h, fun h => h⟩
  refine h.evolves he fun id link socket'' hid hlink hj hcallback => ?_
  rw [getElem?_setSocket hk] at hj
  split at hj
  · next heq =>
    cases hj
    exact hopen id link hid hlink heq.symm hcallback (h.watched id link socket hid hlink (heq ▸ hk) hcallback)
  · exact h.watched id link socket'' hid hlink hj hcallback

/-- A handle is used for something else. -/
theorem Held.setSocket_of_eq (h : Held c) (hk : c.sockets[k]? = some socket)
    (hstate : socket'.handle.state = socket.handle.state)
    (hconnecting : socket'.connecting = true → socket.connecting = true) : Held (c.setSocket k socket') :=
  h.setSocket hk (fun _ _ _ _ _ _ hopen => hstate.trans hopen) hstate.trans hconnecting

theorem Held.setConn (h : Held c) (hid : c.links[id]? = some link) (hhandle : link'.handle_ = link.handle_)
    (hcallback : link'.conn.onConnectCloseCallback_ = true → link.conn.onConnectCloseCallback_ = true) :
    Held (c.setConn id link') := by
  have he : Evolves c (c.setConn id link') := by
    refine ⟨rfl, rfl, rfl, List.length_set, fun k socket hk => ⟨socket, hk, fun h => h, fun h => h⟩,
      fun j link'' hj => ?_⟩
    rw [getElem?_setConn hid] at hj
    split at hj
    · next heq =>
      subst heq
      cases hj
      exact ⟨link, hid, hhandle, hcallback⟩
    · exact ⟨link'', hj, rfl, fun h => h⟩
  refine h.evolves he fun j link'' socket hj hlink hk hcallback' => ?_
  rw [getElem?_setConn hid] at hlink
  split at hlink
  · next heq =>
    subst heq
    cases hlink
    rw [hhandle] at hk
    exact h.watched _ link socket hj hid hk (hcallback hcallback')
  · exact h.watched j link'' socket hj hlink hk hcallback'

/-- A call to `close` of the client's connection. -/
theorem Held.closeConn (h : Held c) (hcurrent : c.connection_ = some id) (callback : ClientCallback) :
    Held (c.closeConn id callback) := by
  rw [TcpClient.closeConn]
  split
  · exact h
  · next link hid =>
    split
    · exact h
    · next socket hk =>
      obtain ⟨conn, handle, now, heq, -, hsilent, -, hcases⟩ := link.conn.close_cases socket.handle (some callback)
      have hconn : Held (c.setConn id { link with conn }) :=
        h.setConn hid rfl fun hcallback => by simp [hsilent] at hcallback
      have hset : Held ((c.setConn id { link with conn }).setSocket link.handle_ { socket with handle }) := by
        refine hconn.setSocket hk (fun j link' hj hlink' _ hcallback _ => ?_) (fun hclosed => ?_) fun h => h
        · have hj : c.connection_ = some j := hj
          rw [hcurrent, Option.some.injEq] at hj
          subst hj
          rw [getElem?_setConn hid, if_pos rfl] at hlink'
          cases hlink'
          simp [hsilent] at hcallback
        · rcases hcases with ⟨hopen, -⟩ | ⟨-, hstate, -⟩
          · rw [hclosed] at hopen
            cases hopen
          · exact hstate.trans hclosed
      rw [heq]
      cases now with
      | none => exact hset
      | some callback' => exact hset.runCallback id callback'

/-- **A connection ends or fails**: an earlier one is not watched. -/
theorem Held.onSocketClose (h : Held c) (id : ℕ) : Held (c.onSocketClose id) := by
  rw [TcpClient.onSocketClose]
  split
  · exact h
  · split
    · rw [onConnectClose]
      split
      · exact h
      · next j hj => exact h.closeConn hj .onClose
    · exact h

theorem Held.lt_of_connectionHandle (h : Held c) (hk : c.connectionHandle = some k) : k < c.sockets.length := by
  rw [connectionHandle, Option.bind_eq_bind, Option.bind_eq_some_iff] at hk
  obtain ⟨id, -, hk⟩ := hk
  rw [Option.bind_eq_bind, Option.bind_eq_some_iff] at hk
  obtain ⟨link, hlink, hk⟩ := hk
  cases hk
  exact h.handle id link hlink

/-- `connect`. -/
theorem Held.connect (h : Held c) {rst : ℤ} (hkeeps : c.KeepsHandles (.connect rst)) : Held (c.connect rst) := by
  have hlength : (c.connect rst).sockets.length = c.sockets.length + 1 := List.length_append
  have hold : ∀ k, k < c.sockets.length → (c.connect rst).sockets[k]? = c.sockets[k]? :=
    fun k hk => List.getElem?_append_left hk
  have hnew : ∀ (k : ℕ) (socket : Socket), (c.connect rst).sockets[k]? = some socket →
      c.sockets[k]? = some socket ∨ k = c.sockets.length := by
    intro k socket hk
    obtain ⟨hlt, -⟩ := List.getElem?_eq_some_iff.mp hk
    by_cases hle : k < c.sockets.length
    · exact .inl ((hold k hle).symm.trans hk)
    · exact .inr (by omega)
  -- the handle before is not lost
  have hbefore : ∀ (k : ℕ) (socket : Socket), c.sockets[k]? = some socket → socket.handle.state ≠ .closed →
      c.connectionHandle = some k := by
    intro k socket hk hopen
    rcases h.owned k socket hk hopen with hsocket | hconnection
    · rcases hkeeps k hsocket with hdone | hconnection
      · exact absurd (hdone socket hk) hopen
      · exact hconnection
    · exact hconnection
  refine ⟨?_, ?_, ?_, h.connection, ?_, ?_, ?_⟩
  · intro k socket hk hopen
    rcases hnew k socket hk with hk | rfl
    · exact .inr (hbefore k socket hk hopen)
    · exact .inl rfl
  · intro k socket hk hconnecting hopen
    rcases hnew k socket hk with hk | rfl
    · exact absurd (hbefore k socket hk hopen) (h.connecting k socket hk hconnecting hopen).2
    · exact ⟨rfl, fun hhandle => lt_irrefl _ (h.lt_of_connectionHandle hhandle)⟩
  · intro k hk
    cases hk
    rw [hlength]
    exact Nat.lt_succ_self _
  · intro id link hlink
    rw [hlength]
    exact (h.handle id link hlink).trans (Nat.lt_succ_self _)
  · intro id link socket hid hlink hk
    rw [hold _ (h.handle id link hlink)] at hk
    exact h.watched id link socket hid hlink hk
  · intro id link hlink hne
    obtain ⟨hdone, hsilent⟩ := h.earlier id link hlink hne
    refine ⟨fun socket hk => ?_, hsilent⟩
    rw [hold _ (h.handle id link hlink)] at hk
    exact hdone socket hk

/-- A connection is made of the latest handle, and the one before is closed. -/
theorem Held.addLink (h : Held c) (hk : c.sockets[k]? = some socket)
    (hopen : socket.handle.state = .inUse) (hconnecting : ∀ (j : ℕ) (socket : Socket),
      c.sockets[j]? = some socket → socket.handle.state ≠ .closed → socket.connecting ≠ true)
    (hdone : ∀ j, c.connectionHandle = some j → c.Done j) (hlink : link.handle_ = k) :
    Held { c with links := c.links ++ [link], connection_ := some c.links.length } := by
  obtain ⟨hlt, -⟩ := List.getElem?_eq_some_iff.mp hk
  have hnew : ∀ (id : ℕ) (link' : Link), (c.links ++ [link])[id]? = some link' →
      c.links[id]? = some link' ∨ id = c.links.length ∧ link' = link := by
    intro id link' hid
    rw [List.getElem?_append] at hid
    split at hid
    · exact .inl hid
    · rw [List.getElem?_singleton] at hid
      split at hid
      · exact .inr ⟨by omega, (Option.some.inj hid).symm⟩
      · cases hid
  refine ⟨?_, ?_, h.socket, ?_, ?_, ?_, ?_⟩
  · intro j socket' hj hopen'
    rcases h.owned j socket' hj hopen' with hsocket | hconnection
    · exact .inl hsocket
    · exact absurd (hdone j hconnection socket' hj) hopen'
  · intro j socket' hj hconnecting' hopen'
    exact absurd hconnecting' (hconnecting j socket' hj hopen')
  · intro id hid
    cases hid
    simp
  · intro id link' hid
    rcases hnew id link' hid with hid | ⟨-, rfl⟩
    · exact h.handle id link' hid
    · exact hlink ▸ hlt
  · intro id link' socket' hid hlink' hk' _
    cases hid
    rcases hnew _ link' hlink' with hold | ⟨-, rfl⟩
    · obtain ⟨hlt', -⟩ := List.getElem?_eq_some_iff.mp hold
      exact absurd hlt' (lt_irrefl _)
    · rw [hlink] at hk'
      have hk' : c.sockets[k]? = some socket' := hk'
      rw [hk, Option.some.injEq] at hk'
      exact hk' ▸ hopen
  · intro id link' hid hne
    rcases hnew id link' hid with hold | ⟨rfl, -⟩
    · by_cases hcurrent : c.connection_ = some id
      · -- the connection before: its handle is closed, and so it is not watched
        have hclosed := hdone _ (connectionHandle_eq hcurrent hold)
        refine ⟨hclosed, fun hcallback => ?_⟩
        have hget := List.getElem?_eq_getElem (h.handle id link' hold)
        have hopen' := h.watched id link' _ hcurrent hold hget hcallback
        have hclosed' := hclosed _ hget
        rw [hopen'] at hclosed'
        cases hclosed'
      · exact h.earlier id link' hold hcurrent
    · exact absurd rfl hne

/-- Connecting the latest handle succeeds. -/
theorem Held.onConnect_true (h : Held c) (hlatest : c.socket_ = some k) (hk : c.sockets[k]? = some socket)
    (hopen : socket.handle.state = .inUse) (hconnecting : ∀ (j : ℕ) (socket : Socket),
      c.sockets[j]? = some socket → socket.handle.state ≠ .closed → socket.connecting ≠ true)
    (hdone : ∀ j, c.connectionHandle = some j → c.Done j) (name : Bytes) : Held (c.onConnect true name) := by
  have hadd : ∀ link : Link, link.handle_ = k →
      Held { c with links := c.links ++ [link], connection_ := some c.links.length } :=
    fun link hlink => h.addLink hk hopen hconnecting hdone hlink
  rw [TcpClient.onConnect]
  split
  · exact h
  · next j hj =>
    rw [hlatest, Option.some.injEq] at hj
    subst hj
    split
    · exact h
    · next socket' hk' =>
      rw [if_pos rfl]
      refine Held.of_eq (Held.setSocket_of_eq (hadd _ rfl) hk' ?_ ?_) rfl rfl rfl rfl
      · rfl
      · exact fun h => h

/-- Connecting the latest handle fails: what is closed is not the handle of the connection. -/
theorem Held.onConnect_false (h : Held c) (hlatest : c.socket_ = some k) (hk : c.sockets[k]? = some socket)
    (hopen : socket.handle.state ≠ .closed) (hnot : c.connectionHandle ≠ some k) (name : Bytes) :
    Held (c.onConnect false name) := by
  have hclose : ∀ handle : UvTcp, handle.state = socket.handle.state → Held
      (if handle.uv_is_closing = false then
        c.setSocket k { socket with handle := handle.uv_close, data := none, failed := true }
      else c.setSocket k { socket with handle }) := by
    intro handle hsame
    split
    · refine h.setSocket hk (fun id link hid hlink heq => ?_) (fun hclosed => absurd hclosed hopen) fun h => h
      exact absurd (heq ▸ connectionHandle_eq hid hlink) hnot
    · exact h.setSocket_of_eq hk hsame fun h => h
  rw [TcpClient.onConnect]
  split
  · exact h
  · next j hj =>
    rw [hlatest, Option.some.injEq] at hj
    subst hj
    split
    · exact h
    · next socket' hk' =>
      rw [hk, Option.some.injEq] at hk'
      subst hk'
      exact hclose _ (by split <;> rfl)

/-- Connecting a handle succeeds or fails: it is the latest. -/
theorem Held.onConnect (h : Held c) (hk : c.sockets[k]? = some socket) {successed : Bool} {name : Bytes}
    (hkeeps : c.KeepsHandles (.onConnect k successed name)) (hconnecting : socket.connecting = true)
    (hopen : socket.handle.state ≠ .closed) (hstate : successed = true → socket.handle.state = .inUse) :
    Held ((c.setSocket k { socket with connecting := false }).onConnect successed name) := by
  obtain ⟨hlatest, hnot⟩ := h.connecting k socket hk hconnecting hopen
  have hset : Held (c.setSocket k { socket with connecting := false }) :=
    h.setSocket_of_eq hk rfl fun h => by cases h
  have hk' : (c.setSocket k { socket with connecting := false }).sockets[k]? =
      some { socket with connecting := false } := (getElem?_setSocket hk _ k).trans (if_pos rfl)
  cases successed with
  | false => exact hset.onConnect_false hlatest hk' hopen hnot name
  | true =>
    refine hset.onConnect_true hlatest hk' (hstate rfl) ?_ ?_ name
    · -- no other handle is being connected
      intro j socket' hj hopen' hconnecting'
      have hj' : c.socket_ = some j := (hset.connecting j socket' hj hconnecting' hopen').1
      rw [hlatest, Option.some.injEq] at hj'
      subst hj'
      rw [hk', Option.some.injEq] at hj
      subst hj
      cases hconnecting'
    · intro j hj socket' hj'
      rw [getElem?_setSocket hk] at hj'
      split at hj'
      · next heq =>
        cases hj'
        exact hkeeps j hj socket (heq ▸ hk)
      · exact hkeeps j hj socket' hj'

/-- A read of a connection. -/
theorem Held.onMesageReceive (h : Held c) (hk : c.sockets[k]? = some socket) (hid : c.links[id]? = some link)
    (nread rst : ℤ) : Held (c.onMesageReceive k socket id link nread rst) := by
  obtain ⟨status, hconn⟩ := link.conn.onMesageReceive_fst nread
  have hset (socket' : Socket) (hstate : socket'.handle.state = socket.handle.state)
      (hconnecting : socket'.connecting = socket.connecting) :
      Held ((c.setConn id { link with conn := link.conn.setConnectStatus status }).setSocket k socket') := by
    have hconn : Held (c.setConn id { link with conn := link.conn.setConnectStatus status }) :=
      h.setConn hid rfl fun h => h
    exact hconn.setSocket_of_eq hk hstate hconnecting.symm.trans
  rw [TcpClient.onMesageReceive]
  dsimp only
  rw [hconn]
  split
  · exact h
  · exact h
  · exact (hset { socket with handle.reading := false } rfl rfl).onSocketClose id
  · exact hset _ rfl rfl

/-- libuv has closed a handle. -/
theorem Held.onClosed (h : Held c) (hk : c.sockets[k]? = some socket) (hclosing : socket.handle.state = .closing) :
    Held ((c.setSocket k { socket with handle.state := .closed }).onClosed socket) := by
  have hset : Held (c.setSocket k { socket with handle.state := .closed }) := by
    refine h.setSocket hk (fun _ _ _ _ _ _ hopen => ?_) (fun _ => rfl) fun h => h
    rw [hclosing] at hopen
    cases hopen
  rw [TcpClient.onClosed]
  split
  · exact hset.of_eq rfl rfl rfl rfl
  · split
    · exact hset
    · split
      · exact hset
      · split
        · exact hset
        · exact hset.runCallback _ _

/-- **The step lemma.** -/
theorem Held.step (h : Held c) {e : Event} (hkeeps : c.KeepsHandles e) (hstep : c.step e = some c') : Held c' := by
  cases moves_of_step hstep with
  | connect rst => exact h.connect hkeeps
  | onConnect name hk hopen hconnecting hstate => exact h.onConnect hk hkeeps hconnecting hopen hstate
  | onMesageReceive nread rst hk hdata hid hopen hreading => exact h.onMesageReceive hk hid nread rst
  | @shutdown k id socket hk hending hopen =>
    have hset : Held (c.setSocket k { socket with ending := none }) := h.setSocket_of_eq hk rfl fun h => h
    exact hset.onSocketClose id
  | write rst =>
    rw [TcpClient.write]
    split
    · exact h
    · split
      · exact h
      · split
        · exact h
        · next hk => exact h.setSocket_of_eq hk (TcpConnection.write_fst _ _ _) fun h => h
  | written hk hopen hpos => exact h.setSocket_of_eq hk rfl fun h => h
  | close callback =>
    rw [TcpClient.close]
    split
    · exact h
    · next id hid => exact h.closeConn hid _
  | closed hk hclosing _ _ _ => exact h.onClosed hk hclosing

theorem Held.new : Held TcpClient.new := by
  refine ⟨fun k socket hk => ?_, fun k socket hk => ?_, fun k hk => ?_, fun id hid => ?_, fun id link hlink => ?_,
    fun id link socket hid => ?_, fun id link hlink => ?_⟩ <;> contradiction

/-- **Every handle that libuv is not done with is held**, and libuv is done with the earlier
connections, so that none of them closes the one there is: in every run in which `connect` is called
and succeeds only when the handle that it replaces is closed, or is still held. -/
theorem handles_owned {events : List Event}
    (hrun : Run (fun c e c' => c.KeepsHandles e ∧ c.step e = some c') new events c) :
    c.AllOwned ∧ ∀ (id : ℕ) (link : Link), c.links[id]? = some link → c.connection_ ≠ some id →
      c.Done link.handle_ ∧ c.onSocketClose id = c := by
  have h : Held c := hrun.invariant .new fun _ _ _ h hstep => h.step hstep.1 hstep.2
  refine ⟨h.owned, fun id link hlink hne => ?_⟩
  obtain ⟨hdone, hsilent⟩ := h.earlier id link hlink hne
  refine ⟨hdone, ?_⟩
  simp [onSocketClose, TcpConnection.onSocketClose, hlink, hsilent]

/-- What a success leaves: the other handles, and a connection of the latest one. -/
theorem onConnect_true_spec (hlatest : c.socket_ = some k) (hk : c.sockets[k]? = some socket) (name : Bytes) :
    (c.onConnect true name).socket_ = some k ∧ (c.onConnect true name).connectionHandle = some k ∧
      ∀ j ≠ k, (c.onConnect true name).sockets[j]? = c.sockets[j]? := by
  rw [TcpClient.onConnect]
  split
  · next hnone =>
    rw [hlatest] at hnone
    cases hnone
  · next j hj =>
    rw [hlatest, Option.some.injEq] at hj
    subst hj
    split
    · next hnone =>
      rw [hk] at hnone
      cases hnone
    · next socket' hk' =>
      rw [if_pos rfl]
      refine ⟨hlatest, ?_, fun j hj => ?_⟩
      · simp [connectionHandle, TcpClient.runConnectCallback, TcpClient.setSocket]
      · exact List.getElem?_set_ne hj.symm

/-- **The condition is necessary**: a step that does not meet it loses a handle. -/
theorem Held.owned_iff (h : Held c) {e : Event} (hstep : c.step e = some c') :
    c'.AllOwned ↔ c.KeepsHandles e := by
  refine ⟨fun howned => ?_, fun hkeeps => (h.step hkeeps hstep).owned⟩
  cases moves_of_step hstep with
  | connect rst =>
    intro k hk
    by_contra hlost
    obtain ⟨hopen, hnot⟩ := not_or.mp hlost
    obtain ⟨socket, hsocket, hopen⟩ : ∃ socket, c.sockets[k]? = some socket ∧ socket.handle.state ≠ .closed := by
      simpa [Done] using hopen
    have hlt := h.socket k hk
    have hold : (c.connect rst).sockets[k]? = some socket := (List.getElem?_append_left hlt).trans hsocket
    rcases howned k socket hold hopen with hsame | hconnection
    · have hsame : some c.sockets.length = some k := hsame
      rw [Option.some.injEq] at hsame
      omega
    · exact hnot hconnection
  | @onConnect k socket successed name hk hopen hconnecting _ =>
    cases successed with
    | false => trivial
    | true =>
      obtain ⟨hlatest, hnot⟩ := h.connecting k socket hk hconnecting hopen
      have hk' : (c.setSocket k { socket with connecting := false }).sockets[k]? =
          some { socket with connecting := false } := (getElem?_setSocket hk _ k).trans (if_pos rfl)
      have hlatest' : (c.setSocket k { socket with connecting := false }).socket_ = some k := hlatest
      obtain ⟨hsocket, hconnection, hothers⟩ := onConnect_true_spec hlatest' hk' name
      intro j hj socket' hj'
      by_contra hlost
      have hne : j ≠ k := by
        rintro rfl
        exact hnot hj
      have hold := (hothers j hne).trans ((getElem?_setSocket hk _ j).trans (if_neg hne.symm))
      rcases howned j socket' (hold.trans hj') hlost with hsame | hsame
      · rw [hsocket, Option.some.injEq] at hsame
        exact hne hsame.symm
      · rw [hconnection, Option.some.injEq] at hsame
        exact hne hsame.symm
  | _ => trivial

/-- A client that is connected connects again, and succeeds. -/
def againEvents : List Event :=
  [.connect 0, .onConnect 0 true samplePeer, .connect 0, .onConnect 1 true samplePeer]

/-- **A client that connects again loses an open handle**, and an error of the earlier connection
closes the new one. -/
theorem not_handles_owned : ∃ c : TcpClient, Run (fun c e c' => c.step e = some c') new againEvents c ∧
    ¬ c.AllOwned ∧ c.connection_ = some 1 ∧ (c.onSocketClose 0).stateOf 1 = some .closing := by
  obtain ⟨c, hc⟩ := Option.isSome_iff_exists.mp
    (show (againEvents.foldlM step new).isSome from by decide +kernel)
  refine ⟨c, Run.of_foldlM hc, ?_, ?_, ?_⟩
  · cases hc
    intro howned
    rcases howned 0 _ rfl (by decide) with hsocket | hconnection
    · cases hsocket
    · cases hconnection
  · cases hc
    rfl
  · cases hc
    rfl

theorem handles_owned_sample : ∃ c : TcpClient, c.AllOwned ∧ c.socket_ = some 1 := by
  have hrun : Run (fun c e c' => c.KeepsHandles e ∧ c.step e = some c') new [] new := .nil _
  have hrun := hrun.snoc (a := Event.connect 0) ⟨fun k hk => (by cases hk), rfl⟩
  have hrun := hrun.snoc (a := Event.onConnect 0 true samplePeer) ⟨fun k hk => (by cases hk), rfl⟩
  have hrun := hrun.snoc (a := Event.close true) ⟨trivial, rfl⟩
  have hrun := hrun.snoc (a := Event.closed 0) ⟨trivial, rfl⟩
  have hrun := hrun.snoc (a := Event.connect 0) ⟨fun k hk => (by cases hk; exact .inr rfl), rfl⟩
  have hrun := hrun.snoc (a := Event.onConnect 1 true samplePeer)
    ⟨fun k hk socket hsocket => (by cases hk; cases hsocket; rfl), rfl⟩
  exact ⟨_, (handles_owned hrun).1, rfl⟩

end UvCpp.TcpClient
