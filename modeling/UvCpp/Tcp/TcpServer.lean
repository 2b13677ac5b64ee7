import UvCpp.Tcp.TcpConnection
import Std.Data.ExtTreeMap.Lemmas

/-!
# The TCP server

The server keeps its connections in a map, from the address of the peer. A connection is taken
out when its close is complete: `closeConnection` closes it with a callback that hands the
connection to the user's close callback and then erases it. The map is the only owner: dropped from
it a connection is destroyed, and its handle with it, and a step in which libuv still comes to that
handle faults (`outcome`).

Closes come from everywhere: the end of the stream, an error, the heartbeat, a write that has come
to an end, the server's own close, the user. Those the library itself makes when something
happens to a connection never reach a handle that is being closed, because closing a connection
takes its callback away (`Inv.onSocketClose`). A call to `closeConnection` or `close` can, and then
the connection is released while libuv still uses the handle; if none does, no connection is
released early (`released_closed`), and no step faults (`Inv.safe`).
-/

namespace UvCpp

open UvCpp.Cpp UvCpp.Systems

/-- The close callbacks of a server's connections. -/
inductive ServerCallback where
  /-- The one of `closeConnection`. -/
  | closeConnection
  /-- One that is the user's. -/
  | user
  deriving DecidableEq

/-- A connection and its handle. -/
structure Peer where
  /-- The connection. -/
  conn : TcpConnection ServerCallback
  /-- The handle. -/
  handle : UvTcp
  deriving DecidableEq

/-- `uv::TcpServer`, with the connections it has accepted. -/
structure TcpServer where
  /-- Every connection there has been. -/
  peers : List Peer
  /-- The connections of the server, as places in `peers`. -/
  connnections_ : Std.ExtTreeMap Bytes ℕ
  /-- The addresses for which the user's close callback has been called and has not returned. -/
  returning : List Bytes
  /-- The closes that have been completed. -/
  released : List Release

namespace TcpServer

/-- What happens to a server. -/
inductive Event where
  /-- A connection from a peer is accepted. -/
  | onAccept (name : Bytes)
  /-- A read of a connection; `rst` is what `uv_shutdown` returns. -/
  | onMesageReceive (id : ℕ) (nread rst : ℤ)
  /-- A shutdown of a connection comes to an end. -/
  | shutdown (id : ℕ)
  /-- The heartbeat of a connection expires. -/
  | expire (id : ℕ)
  /-- `HttpServer` writes a response to a connection; `rst` is what `uv_write` returns. -/
  | respond (id : ℕ) (rst : ℤ)
  /-- A response has been written, or its write is cancelled. -/
  | written (id : ℕ)
  /-- The user calls `closeConnection`. -/
  | closeConnection (name : Bytes)
  /-- The user calls `close` of a connection, with a callback or without. -/
  | closePeer (id : ℕ) (callback : Bool)
  /-- The accepter has been closed, in `close`. -/
  | close
  /-- libuv has closed the handle of a connection. -/
  | closed (id : ℕ)
  /-- The user's close callback returns. -/
  | returned

/-- A new server. -/
def new : TcpServer := ⟨[], ∅, [], []⟩

/-- `getConnnection`. -/
def getConnnection (s : TcpServer) (name : Bytes) : Option ℕ := s.connnections_[name]?

/-- `addConnnection`. -/
def addConnnection (s : TcpServer) (name : Bytes) (id : ℕ) : TcpServer :=
  { s with connnections_ := s.connnections_.insertIfNew name id }

/-- `removeConnnection`. -/
def removeConnnection (s : TcpServer) (name : Bytes) : TcpServer :=
  { s with connnections_ := s.connnections_.erase name }

/-- A new state of a connection and its handle. -/
def setPeer (s : TcpServer) (id : ℕ) (p : Peer) : TcpServer := { s with peers := s.peers.set id p }

/-- How far the handle of a connection has been closed. -/
def stateOf (s : TcpServer) (id : ℕ) : Option HandleState := s.peers[id]?.map fun p => p.handle.state

/-- The close of a connection is complete. -/
def release (s : TcpServer) (id : ℕ) : TcpServer :=
  { s with released := s.released ++ (s.stateOf id).toList.map (Release.mk id) }

/-- A close callback runs. That of `closeConnection` looks the connection up, and calls the user's
close callback; the rest of it, `removeConnnection`, comes when that returns. -/
def runCallback (s : TcpServer) (id : ℕ) (name : Bytes) : ServerCallback → TcpServer
  | .user => s.release id
  | .closeConnection =>
    match s.getConnnection name with
    | none => s
    | some id => { s.release id with returning := name :: s.returning }

/-- `close` of a connection. -/
def closePeer (s : TcpServer) (id : ℕ) (callback : Option ServerCallback) : TcpServer :=
  match s.peers[id]? with
  | none => s
  | some p =>
    let (conn, handle, now) := p.conn.close p.handle callback
    let s := s.setPeer id { conn, handle }
    match now with
    | none => s
    | some callback => s.runCallback id conn.name_ callback

/-- `CloseComplete` of a connection. -/
def CloseComplete (s : TcpServer) (id : ℕ) (conn : TcpConnection ServerCallback) : TcpServer :=
  match conn.CloseComplete with
  | none => s
  | some callback => s.runCallback id conn.name_ callback

/-- `closeConnection`. -/
def closeConnection (s : TcpServer) (name : Bytes) : TcpServer :=
  match s.getConnnection name with
  | none => s
  | some id => s.closePeer id (some .closeConnection)

/-- `onSocketClose` of a connection. -/
def onSocketClose (s : TcpServer) (id : ℕ) : TcpServer :=
  match s.peers[id]? with
  | none => s
  | some p => if p.conn.onSocketClose then s.closeConnection p.conn.name_ else s

/-- `onAccept`. -/
def onAccept (s : TcpServer) (name : Bytes) : TcpServer :=
  let conn := (TcpConnection.new name).setMessageCallback.setConnectCloseCallback
  let p : Peer := ⟨conn, UvTcp.init.uv_read_start⟩
  { s with peers := s.peers ++ [p] }.addConnnection name s.peers.length

/-- `onMesageReceive` of a connection: libuv ends the reading at the end of the stream and at an
error. -/
def onMesageReceive (s : TcpServer) (id : ℕ) (p : Peer) (nread rst : ℤ) : TcpServer :=
  let (conn, received) := p.conn.onMesageReceive nread
  match received with
  | .message => s
  | .nothing => s
  | .socketClose => (s.setPeer id ⟨conn, p.handle.uv_read_stop⟩).onSocketClose id
  | .shutdown =>
    let shutdowns := if rst = 0 then p.handle.shutdowns + 1 else p.handle.shutdowns
    s.setPeer id ⟨conn, { p.handle.uv_read_stop with shutdowns }⟩

/-- `HttpServer`'s write of a response. -/
def respond (s : TcpServer) (id : ℕ) (p : Peer) (rst : ℤ) : TcpServer :=
  let (handle, now) := p.conn.write p.handle rst
  let s := s.setPeer id ⟨p.conn, handle⟩
  match now with
  | none => s
  | some _ => s.closeConnection p.conn.name_

/-- The loop of `close` over the connections. -/
def closeAll (s : TcpServer) : TcpServer :=
  s.connnections_.toList.foldl (fun s connection => s.onSocketClose connection.2) s

/-- `~ConnectionWrapper`: the weak pointer leads to a connection as long as the server has it in its
map. -/
def dropWrapper (s : TcpServer) (id : ℕ) : TcpServer :=
  match s.peers[id]? with
  | some p => if s.getConnnection p.conn.name_ = some id then s.onSocketClose id else s
  | none => s

/-- libuv comes to a connection: it must not have been destroyed. -/
def reach (s : TcpServer) (id : ℕ) (p : Peer) (s' : TcpServer) : Exec TcpServer :=
  if s.getConnnection p.conn.name_ = some id then .ok s' else .error .undefined

/-- What a step comes to, if it can happen. libuv runs no callback while another one runs, reads only
what is in use, ends every shutdown and write before it closes a handle, and closes what it is asked
to. The user calls a connection that has not been destroyed. Peers that are connected at the same time
have different addresses. -/
def outcome (s : TcpServer) : Event → Option (Exec TcpServer)
  | .onAccept name =>
    if s.returning = [] ∧ s.getConnnection name = none then some (.ok (s.onAccept name)) else none
  | .onMesageReceive id nread rst => do
    let p ← s.peers[id]?
    if s.returning = [] ∧ p.handle.state = .inUse ∧ p.handle.reading then
      some (s.reach id p (s.onMesageReceive id p nread rst))
    else none
  | .shutdown id => do
    let p ← s.peers[id]?
    if s.returning = [] ∧ p.handle.state ≠ .closed ∧ 0 < p.handle.shutdowns then
      some (s.reach id p
        ((s.setPeer id { p with handle.shutdowns := p.handle.shutdowns - 1 }).onSocketClose id))
    else none
  | .expire id => if s.returning = [] then some (.ok (s.dropWrapper id)) else none
  | .respond id rst => do
    let p ← s.peers[id]?
    if s.getConnnection p.conn.name_ = some id then some (.ok (s.respond id p rst)) else none
  | .written id => do
    let p ← s.peers[id]?
    if s.returning = [] ∧ p.handle.state ≠ .closed ∧ 0 < p.handle.writes then
      some (s.reach id p
        ((s.setPeer id { p with handle.writes := p.handle.writes - 1 }).closeConnection p.conn.name_))
    else none
  | .closeConnection name => some (.ok (s.closeConnection name))
  | .closePeer id callback => do
    let p ← s.peers[id]?
    if s.getConnnection p.conn.name_ = some id then
      some (.ok (s.closePeer id (if callback then some .user else none)))
    else none
  | .close => if s.returning = [] then some (.ok s.closeAll) else none
  | .closed id => do
    let p ← s.peers[id]?
    if s.returning = [] ∧ p.handle.state = .closing ∧ p.handle.shutdowns = 0 ∧ p.handle.writes = 0 then
      some (s.reach id p ((s.setPeer id { p with handle.state := .closed }).CloseComplete id p.conn))
    else none
  | .returned =>
    match s.returning with
    | [] => none
    | name :: returning => some (.ok ({ s with returning }.removeConnnection name))

/-- A step that can happen, and does not fault. -/
def step (s : TcpServer) (e : Event) : Option TcpServer := (s.outcome e).bind Except.toOption

/-- What a step is, for each event. -/
inductive Moves (s : TcpServer) : Event → TcpServer → Prop where
  | onAccept {name : Bytes} : s.returning = [] → Moves s (.onAccept name) (s.onAccept name)
  | onMesageReceive {id : ℕ} {p : Peer} (nread rst : ℤ) : s.peers[id]? = some p → s.returning = [] →
      p.handle.state = .inUse → p.handle.reading = true →
        Moves s (.onMesageReceive id nread rst) (s.onMesageReceive id p nread rst)
  | shutdown {id : ℕ} {p : Peer} : s.peers[id]? = some p → s.returning = [] → p.handle.state ≠ .closed →
      0 < p.handle.shutdowns → Moves s (.shutdown id)
        ((s.setPeer id { p with handle.shutdowns := p.handle.shutdowns - 1 }).onSocketClose id)
  | expire (id : ℕ) : s.returning = [] → Moves s (.expire id) (s.onSocketClose id)
  | expire_gone (id : ℕ) : s.returning = [] → Moves s (.expire id) s
  | respond {id : ℕ} {p : Peer} (rst : ℤ) : s.peers[id]? = some p →
      Moves s (.respond id rst) (s.respond id p rst)
  | written {id : ℕ} {p : Peer} : s.peers[id]? = some p → s.returning = [] → p.handle.state ≠ .closed →
      0 < p.handle.writes → Moves s (.written id)
        ((s.setPeer id { p with handle.writes := p.handle.writes - 1 }).closeConnection p.conn.name_)
  | closeConnection (name : Bytes) : Moves s (.closeConnection name) (s.closeConnection name)
  | closePeer (id : ℕ) (callback : Bool) : Moves s (.closePeer id callback)
      (s.closePeer id (if callback then some .user else none))
  | close : s.returning = [] → Moves s .close s.closeAll
  | closed {id : ℕ} {p : Peer} : s.peers[id]? = some p → s.returning = [] → p.handle.state = .closing →
      p.handle.shutdowns = 0 → p.handle.writes = 0 → Moves s (.closed id)
        ((s.setPeer id { p with handle.state := .closed }).CloseComplete id p.conn)
  | returned {name : Bytes} {returning : List Bytes} : s.returning = name :: returning →
      Moves s .returned ({ s with returning }.removeConnnection name)

theorem dropWrapper_cases (s : TcpServer) (id : ℕ) :
    s.dropWrapper id = s.onSocketClose id ∨ s.dropWrapper id = s := by
  rw [dropWrapper]
  split
  · split
    · exact .inl rfl
    · exact .inr rfl
  · exact .inr rfl

theorem reach_eq_ok_iff {s s' t : TcpServer} {id : ℕ} {p : Peer} :
    s.reach id p s' = .ok t ↔ s.getConnnection p.conn.name_ = some id ∧ s' = t := by
  rw [reach]
  by_cases hmine : s.getConnnection p.conn.name_ = some id
  · simp [hmine]
  · simp [hmine]

theorem step_eq_some_iff {s s' : TcpServer} {e : Event} : s.step e = some s' ↔ s.outcome e = some (.ok s') :=
  Exec.bind_toOption_eq_some_iff

theorem moves_of_outcome {s s' : TcpServer} {e : Event} (h : s.outcome e = some (.ok s')) : s.Moves e s' := by
  cases e with
  | onAccept name =>
    simp only [outcome, Option.ite_none_right_eq_some] at h
    obtain ⟨⟨hidle, -⟩, h⟩ := h
    cases h
    exact .onAccept hidle
  | onMesageReceive id nread rst =>
    simp only [outcome, Option.bind_eq_bind, Option.bind_eq_some_iff, Option.ite_none_right_eq_some,
      Option.some.injEq, reach_eq_ok_iff] at h
    obtain ⟨p, hp, ⟨hidle, hopen, hreading⟩, -, rfl⟩ := h
    exact .onMesageReceive nread rst hp hidle hopen hreading
  | shutdown id =>
    simp only [outcome, Option.bind_eq_bind, Option.bind_eq_some_iff, Option.ite_none_right_eq_some,
      Option.some.injEq, reach_eq_ok_iff] at h
    obtain ⟨p, hp, ⟨hidle, hopen, hpos⟩, -, rfl⟩ := h
    exact .shutdown hp hidle hopen hpos
  | expire id =>
    simp only [outcome, Option.ite_none_right_eq_some] at h
    obtain ⟨hidle, h⟩ := h
    cases h
    rcases s.dropWrapper_cases id with heq | heq
    · rw [heq]
      exact .expire id hidle
    · rw [heq]
      exact .expire_gone id hidle
  | respond id rst =>
    simp only [outcome, Option.bind_eq_bind, Option.bind_eq_some_iff, Option.ite_none_right_eq_some] at h
    obtain ⟨p, hp, -, h⟩ := h
    cases h
    exact .respond rst hp
  | written id =>
    simp only [outcome, Option.bind_eq_bind, Option.bind_eq_some_iff, Option.ite_none_right_eq_some,
      Option.some.injEq, reach_eq_ok_iff] at h
    obtain ⟨p, hp, ⟨hidle, hopen, hpos⟩, -, rfl⟩ := h
    exact .written hp hidle hopen hpos
  | closeConnection name =>
    cases h
    exact .closeConnection name
  | closePeer id callback =>
    simp only [outcome, Option.bind_eq_bind, Option.bind_eq_some_iff, Option.ite_none_right_eq_some] at h
    obtain ⟨p, hp, -, h⟩ := h
    cases h
    exact .closePeer id callback
  | close =>
    simp only [outcome, Option.ite_none_right_eq_some] at h
    obtain ⟨hidle, h⟩ := h
    cases h
    exact .close hidle
  | closed id =>
    simp only [outcome, Option.bind_eq_bind, Option.bind_eq_some_iff, Option.ite_none_right_eq_some,
      Option.some.injEq, reach_eq_ok_iff] at h
    obtain ⟨p, hp, ⟨hidle, hclosing, hshutdowns, hwrites⟩, -, rfl⟩ := h
    exact .closed hp hidle hclosing hshutdowns hwrites
  | returned =>
    simp only [outcome] at h
    split at h
    · cases h
    · next name returning hreturning =>
      cases h
      exact .returned hreturning

theorem moves_of_step {s s' : TcpServer} {e : Event} (h : s.step e = some s') : s.Moves e s' :=
  moves_of_outcome (step_eq_some_iff.mp h)

/-- **When a step faults**: when libuv comes to a connection that has been destroyed. -/
theorem returns_outcome {s : TcpServer} {e : Event} {x : Exec TcpServer} (hx : s.outcome e = some x)
    (howned : ∀ (id : ℕ) (p : Peer), s.peers[id]? = some p → p.handle.state ≠ .closed →
      s.getConnnection p.conn.name_ = some id) : Exec.Returns x := by
  have hreach {id : ℕ} {p : Peer} (s' : TcpServer) (hp : s.peers[id]? = some p) (hopen : p.handle.state ≠ .closed) :
      Exec.Returns (s.reach id p s') := ⟨s', if_pos (howned id p hp hopen)⟩
  cases e with
  | onMesageReceive id nread rst =>
    simp only [outcome, Option.bind_eq_bind, Option.bind_eq_some_iff, Option.ite_none_right_eq_some,
      Option.some.injEq] at hx
    obtain ⟨p, hp, ⟨-, hopen, -⟩, rfl⟩ := hx
    exact hreach _ hp (by simp [hopen])
  | shutdown id =>
    simp only [outcome, Option.bind_eq_bind, Option.bind_eq_some_iff, Option.ite_none_right_eq_some,
      Option.some.injEq] at hx
    obtain ⟨p, hp, ⟨-, hopen, -⟩, rfl⟩ := hx
    exact hreach _ hp hopen
  | written id =>
    simp only [outcome, Option.bind_eq_bind, Option.bind_eq_some_iff, Option.ite_none_right_eq_some,
      Option.some.injEq] at hx
    obtain ⟨p, hp, ⟨-, hopen, -⟩, rfl⟩ := hx
    exact hreach _ hp hopen
  | closed id =>
    simp only [outcome, Option.bind_eq_bind, Option.bind_eq_some_iff, Option.ite_none_right_eq_some,
      Option.some.injEq] at hx
    obtain ⟨p, hp, ⟨-, hclosing, -⟩, rfl⟩ := hx
    exact hreach _ hp (by simp [hclosing])
  | _ =>
    simp only [outcome] at hx
    grind [Exec.Returns]

/-! ### The condition -/

/-- libuv is not closing the handle of the connection with this address. -/
def Idle (s : TcpServer) (name : Bytes) : Prop :=
  ∀ id, s.getConnnection name = some id → s.stateOf id ≠ some .closing

/-- No call to `closeConnection` or `close` is made for a connection while libuv is closing its
handle: not by the user, and not by `HttpServer` when a write has come to an end. -/
def Orderly (s : TcpServer) : Event → Prop
  | .respond id rst => ∀ p, s.peers[id]? = some p → (p.conn.write p.handle rst).2 ≠ none →
      s.Idle p.conn.name_
  | .written id => ∀ p, s.peers[id]? = some p → s.Idle p.conn.name_
  | .closeConnection name => s.Idle name
  | .closePeer id callback => callback = true → s.stateOf id ≠ some .closing
  | _ => True

instance (s : TcpServer) (name : Bytes) : Decidable (s.Idle name) :=
  inferInstanceAs (Decidable (∀ id ∈ s.getConnnection name, s.stateOf id ≠ some .closing))

instance (s : TcpServer) (e : Event) : Decidable (s.Orderly e) :=
  match e with
  | .respond id rst => inferInstanceAs (Decidable (∀ p ∈ s.peers[id]?, (p.conn.write p.handle rst).2 ≠ none →
      s.Idle p.conn.name_))
  | .written id => inferInstanceAs (Decidable (∀ p ∈ s.peers[id]?, s.Idle p.conn.name_))
  | .closeConnection name => inferInstanceAs (Decidable (s.Idle name))
  | .closePeer id callback => inferInstanceAs (Decidable (callback = true → s.stateOf id ≠ some .closing))
  | .onAccept _ | .onMesageReceive _ _ _ | .shutdown _ | .expire _ | .close | .closed _ | .returned => isTrue trivial

/-! ### The invariant -/

/-- What holds of a server as long as the condition is met. -/
structure Inv (s : TcpServer) : Prop where
  /-- A connection in the map has the address it is found under. -/
  found : ∀ name id, s.getConnnection name = some id → ∃ p, s.peers[id]? = some p ∧ p.conn.name_ = name
  /-- A connection that would tell the server of an end or an error is in use, and in the map. -/
  watched : ∀ id p, s.peers[id]? = some p → p.conn.onConnectCloseCallback_ = true →
    p.handle.state = .inUse ∧ s.getConnnection p.conn.name_ = some id
  /-- A connection is in the map until it is closed. -/
  owned : ∀ id p, s.peers[id]? = some p → p.handle.state ≠ .closed → s.getConnnection p.conn.name_ = some id
  /-- What is about to be erased is closed. -/
  erasing : ∀ name ∈ s.returning, ∀ id, s.getConnnection name = some id → s.stateOf id = some .closed
  /-- Nothing has been released before it was closed. -/
  released : ∀ r ∈ s.released, r.state = .closed

variable {s s' : TcpServer} {id : ℕ} {p p' : Peer} {name : Bytes}

theorem getElem?_setPeer (hp : s.peers[id]? = some p) (p' : Peer) (j : ℕ) :
    (s.setPeer id p').peers[j]? = if id = j then some p' else s.peers[j]? := by
  obtain ⟨hlt, -⟩ := List.getElem?_eq_some_iff.mp hp
  rw [setPeer, List.getElem?_set]
  simp [hlt]

theorem stateOf_eq (hp : s.peers[id]? = some p) : s.stateOf id = some p.handle.state := by
  rw [stateOf, hp]
  rfl

@[simp] theorem getConnnection_setPeer (s : TcpServer) (id : ℕ) (p : Peer) (name : Bytes) :
    (s.setPeer id p).getConnnection name = s.getConnnection name := rfl

theorem Idle.setPeer (hidle : s.Idle name) (hp : s.peers[id]? = some p)
    (hstate : p'.handle.state = p.handle.state) : (s.setPeer id p').Idle name := by
  intro j hj
  have hclosing := hidle j hj
  rw [stateOf, getElem?_setPeer hp]
  split
  · next heq =>
    subst heq
    rw [stateOf_eq hp] at hclosing
    rwa [Option.map_some, hstate]
  · exact hclosing

/-- A step of one connection. -/
theorem Inv.setPeer (h : Inv s) (hp : s.peers[id]? = some p) (hname : p'.conn.name_ = p.conn.name_)
    (hwatched : p'.conn.onConnectCloseCallback_ = true →
      p.conn.onConnectCloseCallback_ = true ∧ p'.handle.state = .inUse)
    (hclosed : p.handle.state = .closed → p'.handle.state = .closed) : Inv (s.setPeer id p') := by
  constructor
  · intro name j hj
    obtain ⟨q, hq, rfl⟩ := h.found name j hj
    rw [getElem?_setPeer hp]
    split
    · next heq =>
      subst heq
      rw [hp, Option.some.injEq] at hq
      exact ⟨p', rfl, by rw [hname, hq]⟩
    · exact ⟨q, hq, rfl⟩
  · intro j q hq hcallback
    rw [getElem?_setPeer hp] at hq
    split at hq
    · next heq =>
      subst heq
      cases hq
      obtain ⟨h1, h2⟩ := hwatched hcallback
      refine ⟨h2, ?_⟩
      rw [hname]
      exact (h.watched id p hp h1).2
    · exact h.watched j q hq hcallback
  · intro j q hq hopen
    rw [getElem?_setPeer hp] at hq
    split at hq
    · next heq =>
      subst heq
      cases hq
      rw [getConnnection_setPeer, hname]
      exact h.owned id p hp fun hclosed' => hopen (hclosed hclosed')
    · exact h.owned j q hq hopen
  · intro name hname' j hj
    have hstate := h.erasing name hname' j hj
    rw [stateOf, getElem?_setPeer hp]
    split
    · next heq =>
      subst heq
      rw [stateOf_eq hp, Option.some.injEq] at hstate
      exact congrArg some (hclosed hstate)
    · exact hstate
  · exact h.released

/-- The close of a connection that is closed. -/
theorem Inv.release (h : Inv s) (hclosed : s.stateOf id = some .closed) : Inv (s.release id) := by
  refine ⟨h.found, h.watched, h.owned, h.erasing, ?_⟩
  intro r hr
  rw [TcpServer.release, hclosed] at hr
  obtain hr | hr := List.mem_append.mp hr
  · exact h.released r hr
  · rw [List.mem_singleton.mp hr]

/-- A close callback of a connection that is closed. -/
theorem Inv.runCallback (h : Inv s) (hclosed : s.stateOf id = some .closed) {callback : ServerCallback}
    (hkept : callback = .closeConnection → s.getConnnection name = some id) :
    Inv (s.runCallback id name callback) := by
  have hrelease := h.release hclosed
  cases callback with
  | user => exact hrelease
  | closeConnection =>
    rw [TcpServer.runCallback, hkept rfl]
    refine ⟨hrelease.found, hrelease.watched, hrelease.owned, ?_, hrelease.released⟩
    intro name' hname' j hj
    obtain rfl | hname' := List.mem_cons.mp hname'
    · have hj : s.getConnnection name' = some j := hj
      rw [hkept rfl, Option.some.injEq] at hj
      subst hj
      exact hclosed
    · exact h.erasing name' hname' j hj

/-- A call to `close` of a connection. -/
theorem Inv.closePeer (h : Inv s) {callback : Option ServerCallback}
    (hkept : callback = some .closeConnection →
      ∀ p, s.peers[id]? = some p → s.getConnnection p.conn.name_ = some id)
    (hidle : callback ≠ none → s.stateOf id ≠ some .closing) : Inv (s.closePeer id callback) := by
  rw [TcpServer.closePeer]
  split
  · exact h
  · next p hp =>
    obtain ⟨conn, handle, now, heq, hname, hsilent, hcallback, hcases⟩ :=
      p.conn.close_cases p.handle callback
    have hset : Inv (s.setPeer id ⟨conn, handle⟩) := by
      refine h.setPeer hp hname (fun hwatched => ?_) (fun hclosed => ?_)
      · rw [hsilent] at hwatched
        cases hwatched
      · obtain ⟨hopen, -, -⟩ | ⟨-, hstate, -⟩ := hcases
        · rw [hclosed] at hopen
          cases hopen
        · exact hstate.trans hclosed
    rw [heq]
    cases now with
    | none => exact hset
    | some callback' =>
      obtain ⟨-, -, hnow⟩ | ⟨hopen, hstate, hnow⟩ := hcases
      · cases hnow
      · apply hset.runCallback
        · rw [stateOf, getElem?_setPeer hp, if_pos rfl]
          have hclosing := hidle (by rw [← hnow]; simp)
          rw [stateOf_eq hp] at hclosing
          rw [Option.map_some, hstate]
          cases hs : p.handle.state with
          | inUse => exact absurd hs hopen
          | closing => simp [hs] at hclosing
          | closed => rfl
        · rintro rfl
          rw [getConnnection_setPeer, hname]
          exact hkept hnow.symm p hp

/-- A call to `closeConnection`. -/
theorem Inv.closeConnection (h : Inv s) (hidle : s.Idle name) : Inv (s.closeConnection name) := by
  rw [TcpServer.closeConnection]
  split
  · exact h
  · next id hid =>
    refine h.closePeer (fun _ p hp => ?_) fun _ => hidle id hid
    obtain ⟨q, hq, rfl⟩ := h.found name id hid
    rw [hp, Option.some.injEq] at hq
    rw [hq]
    exact hid

/-- **An end or an error, a heartbeat or the server's close is harmless**: the connection tells the
server only while its handle is in use. -/
theorem Inv.onSocketClose (h : Inv s) (id : ℕ) : Inv (s.onSocketClose id) := by
  rw [TcpServer.onSocketClose]
  split
  · exact h
  · next p hp =>
    split
    · next hcallback =>
      obtain ⟨hopen, hmine⟩ := h.watched id p hp hcallback
      refine h.closeConnection fun j hj => ?_
      rw [hmine, Option.some.injEq] at hj
      rw [← hj, stateOf_eq hp, hopen]
      simp
    · exact h

/-- The end of a connection's heartbeat. -/
theorem Inv.dropWrapper (h : Inv s) (id : ℕ) : Inv (s.dropWrapper id) := by
  rcases s.dropWrapper_cases id with heq | heq
  · rw [heq]
    exact h.onSocketClose id
  · rwa [heq]

/-- A step of one connection that changes neither its callback nor how far it is closed. -/
theorem Inv.setPeer_of_eq (h : Inv s) (hp : s.peers[id]? = some p) (hname : p'.conn.name_ = p.conn.name_)
    (hwatched : p'.conn.onConnectCloseCallback_ = p.conn.onConnectCloseCallback_)
    (hstate : p'.handle.state = p.handle.state) : Inv (s.setPeer id p') := by
  refine h.setPeer hp hname (fun hcallback => ?_) hstate.trans
  rw [hwatched] at hcallback
  exact ⟨hcallback, hstate.trans (h.watched id p hp hcallback).1⟩

theorem getConnnection_addConnnection (hfree : s.getConnnection name = none) (id : ℕ) (name' : Bytes) :
    (s.addConnnection name id).getConnnection name' =
      if name = name' then some id else s.getConnnection name' := by
  have hnew : name ∉ s.connnections_ := by
    rw [← Std.ExtTreeMap.isSome_getElem?_iff_mem, show s.connnections_[name]? = none from hfree]
    simp
  rw [getConnnection, addConnnection, Std.ExtTreeMap.getElem?_insertIfNew]
  simp [hnew, getConnnection]

theorem getConnnection_removeConnnection (s : TcpServer) (name name' : Bytes) :
    (s.removeConnnection name).getConnnection name' =
      if name = name' then none else s.getConnnection name' := by
  rw [getConnnection, removeConnnection, Std.ExtTreeMap.getElem?_erase]
  simp [getConnnection]

/-- The connections after an accept. -/
theorem getElem?_onAccept (s : TcpServer) (name : Bytes) {j : ℕ} {q : Peer}
    (hq : (s.onAccept name).peers[j]? = some q) :
    s.peers[j]? = some q ∨ j = s.peers.length ∧ q.handle.state = .inUse ∧ q.conn.name_ = name ∧
      q.conn.closeCompleteCallback_ = none ∧ q.conn.onConnectCloseCallback_ = true := by
  have hq : (s.peers ++ [_])[j]? = some q := hq
  rw [List.getElem?_append] at hq
  split at hq
  · exact .inl hq
  · rw [List.getElem?_singleton] at hq
    split at hq
    · cases hq
      exact .inr ⟨by omega, rfl, rfl, rfl, rfl⟩
    · cases hq

/-- A connection is accepted. -/
theorem Inv.onAccept (h : Inv s) (hreturning : s.returning = []) (hfree : s.getConnnection name = none) :
    Inv (s.onAccept name) := by
  have hlookup (name' : Bytes) : (s.onAccept name).getConnnection name' =
      if name = name' then some s.peers.length else s.getConnnection name' :=
    getConnnection_addConnnection (s := { s with peers := _ }) hfree s.peers.length name'
  -- a connection that is in the map is not found under the new address
  have hold (j : ℕ) (q : Peer) (hq : s.getConnnection q.conn.name_ = some j) :
      (s.onAccept name).getConnnection q.conn.name_ = some j := by
    rw [hlookup, if_neg, hq]
    rintro rfl
    rw [hfree] at hq
    cases hq
  constructor
  · intro name' j hj
    rw [hlookup] at hj
    split at hj
    · next heq =>
      subst heq
      rw [Option.some.injEq] at hj
      subst hj
      exact ⟨_, List.getElem?_concat_length, rfl⟩
    · obtain ⟨q, hq, hname⟩ := h.found name' j hj
      obtain ⟨hlt, -⟩ := List.getElem?_eq_some_iff.mp hq
      exact ⟨q, by rw [← hq]; exact List.getElem?_append_left hlt, hname⟩
  · intro j q hq hcallback
    obtain hq | ⟨rfl, hopen, rfl, -⟩ := getElem?_onAccept s name hq
    · obtain ⟨hopen, hmine⟩ := h.watched j q hq hcallback
      exact ⟨hopen, hold j q hmine⟩
    · rw [hlookup, if_pos rfl]
      exact ⟨hopen, rfl⟩
  · intro j q hq hopen
    obtain hq | ⟨rfl, -, rfl, -⟩ := getElem?_onAccept s name hq
    · exact hold j q (h.owned j q hq hopen)
    · rw [hlookup, if_pos rfl]
  · intro name' hname'
    have hname' : name' ∈ s.returning := hname'
    rw [hreturning] at hname'
    cases hname'
  · exact h.released

/-- The user's close callback returns, and the connection is erased. -/
theorem Inv.removeConnnection (h : Inv s) {returning : List Bytes} (hreturning : s.returning = name :: returning) :
    Inv ({ s with returning }.removeConnnection name) := by
  have hlookup (name' : Bytes) : ({ s with returning }.removeConnnection name).getConnnection name' =
      if name = name' then none else s.getConnnection name' :=
    getConnnection_removeConnnection { s with returning } name name'
  -- what is erased is closed, so nothing that is not closed is erased
  have hold (j : ℕ) (q : Peer) (hq : s.peers[j]? = some q) (hopen : q.handle.state ≠ .closed)
      (hmine : s.getConnnection q.conn.name_ = some j) :
      ({ s with returning }.removeConnnection name).getConnnection q.conn.name_ = some j := by
    rw [hlookup, if_neg, hmine]
    rintro rfl
    have hclosed := h.erasing q.conn.name_ (by rw [hreturning]; exact List.mem_cons_self) j hmine
    rw [stateOf_eq hq, Option.some.injEq] at hclosed
    exact hopen hclosed
  constructor
  · intro name' j hj
    rw [hlookup] at hj
    split at hj
    · cases hj
    · exact h.found name' j hj
  · intro j q hq hcallback
    obtain ⟨hopen, hmine⟩ := h.watched j q hq hcallback
    exact ⟨hopen, hold j q hq (by rw [hopen]; decide) hmine⟩
  · intro j q hq hopen
    exact hold j q hq hopen (h.owned j q hq hopen)
  · intro name' hname' j hj
    rw [hlookup] at hj
    split at hj
    · cases hj
    · exact h.erasing name' (by rw [hreturning]; exact List.mem_cons_of_mem _ hname') j hj
  · exact h.released

/-- The loop of `close`. -/
theorem Inv.closeAll (h : Inv s) : Inv s.closeAll :=
  List.foldlRecOn _ _ h fun _ h connection _ => h.onSocketClose connection.2

/-- libuv has closed a handle. -/
theorem Inv.CloseComplete (h : Inv s) (hp : s.peers[id]? = some p) (hclosing : p.handle.state = .closing) :
    Inv ((s.setPeer id { p with handle.state := .closed }).CloseComplete id p.conn) := by
  have hset : Inv (s.setPeer id { p with handle.state := .closed }) := by
    refine h.setPeer hp rfl (fun hcallback => ?_) fun _ => rfl
    have hopen := (h.watched id p hp hcallback).1
    rw [hclosing] at hopen
    cases hopen
  rw [TcpServer.CloseComplete]
  split
  · exact hset
  · next callback hcallback =>
    refine hset.runCallback ?_ fun _ => ?_
    · rw [stateOf, getElem?_setPeer hp, if_pos rfl]
      rfl
    · exact h.owned id p hp (by rw [hclosing]; decide)

/-- What a read of a connection does: the connection may be marked as disconnected and its handle stop
reading, and then the server may be told of the end. -/
theorem onMesageReceive_cases (s : TcpServer) (id : ℕ) (p : Peer) (nread rst : ℤ) :
    ∃ status handle, handle.state = p.handle.state ∧
      (s.onMesageReceive id p nread rst = s ∨
        s.onMesageReceive id p nread rst = s.setPeer id ⟨p.conn.setConnectStatus status, handle⟩ ∨
        s.onMesageReceive id p nread rst =
          (s.setPeer id ⟨p.conn.setConnectStatus status, handle⟩).onSocketClose id) := by
  obtain ⟨status, hconn⟩ := p.conn.onMesageReceive_fst nread
  rw [TcpServer.onMesageReceive]
  dsimp only
  rw [hconn]
  split
  · exact ⟨status, p.handle, rfl, .inl rfl⟩
  · exact ⟨status, p.handle, rfl, .inl rfl⟩
  · exact ⟨status, p.handle.uv_read_stop, rfl, .inr (.inr rfl)⟩
  · exact ⟨status, { p.handle.uv_read_stop with shutdowns := _ }, rfl, .inr (.inl rfl)⟩

/-- A read of a connection. -/
theorem Inv.onMesageReceive (h : Inv s) (hp : s.peers[id]? = some p) (nread rst : ℤ) :
    Inv (s.onMesageReceive id p nread rst) := by
  obtain ⟨status, handle, hstate, hcases⟩ := s.onMesageReceive_cases id p nread rst
  have hset : Inv (s.setPeer id ⟨p.conn.setConnectStatus status, handle⟩) :=
    h.setPeer_of_eq hp rfl rfl hstate
  rcases hcases with heq | heq | heq
  · rwa [heq]
  · rwa [heq]
  · rw [heq]
    exact hset.onSocketClose id

/-- A write of a response. -/
theorem Inv.respond (h : Inv s) (hp : s.peers[id]? = some p) (rst : ℤ)
    (hidle : (p.conn.write p.handle rst).2 ≠ none → s.Idle p.conn.name_) : Inv (s.respond id p rst) := by
  have hset : Inv (s.setPeer id ⟨p.conn, (p.conn.write p.handle rst).1⟩) :=
    h.setPeer_of_eq hp rfl rfl (p.conn.write_fst p.handle rst)
  rw [TcpServer.respond]
  dsimp only
  split
  · exact hset
  · next hnow =>
    exact hset.closeConnection ((hidle (by rw [hnow]; simp)).setPeer hp (p.conn.write_fst p.handle rst))

/-- **A step that meets the condition** keeps the invariant. -/
theorem Inv.step (h : Inv s) {e : Event} (horderly : s.Orderly e) (hstep : s.step e = some s') : Inv s' := by
  cases moves_of_step hstep with
  | @onAccept name hidle =>
    have hfree : s.getConnnection name = none := by
      rw [step_eq_some_iff, outcome, Option.ite_none_right_eq_some] at hstep
      exact hstep.1.2
    exact h.onAccept hidle hfree
  | onMesageReceive nread rst hp hidle hopen hreading => exact h.onMesageReceive hp nread rst
  | @shutdown id p hp hidle hopen hpos =>
    have hset : Inv (s.setPeer id { p with handle.shutdowns := p.handle.shutdowns - 1 }) :=
      h.setPeer_of_eq hp rfl rfl rfl
    exact hset.onSocketClose id
  | expire id hidle => exact h.onSocketClose id
  | expire_gone id hidle => exact h
  | respond rst hp => exact h.respond hp rst (horderly _ hp)
  | @written id p hp hidle hopen hpos =>
    have hset : Inv (s.setPeer id { p with handle.writes := p.handle.writes - 1 }) :=
      h.setPeer_of_eq hp rfl rfl rfl
    exact hset.closeConnection ((horderly p hp).setPeer hp rfl)
  | closeConnection name => exact h.closeConnection horderly
  | closePeer id callback =>
    cases callback with
    | true => exact h.closePeer (fun hcallback => by cases hcallback) fun _ => horderly rfl
    | false => exact h.closePeer (fun hcallback => by cases hcallback) fun hcallback => absurd rfl hcallback
  | close hidle => exact h.closeAll
  | closed hp hidle hclosing _ _ => exact h.CloseComplete hp hclosing
  | returned hreturning => exact h.removeConnnection hreturning

/-- **A step does not fault**: libuv comes only to connections that are not closed, and those are in the
map. -/
theorem Inv.safe (h : Inv s) {e : Event} {x : Exec TcpServer} (hx : s.outcome e = some x) : Exec.Returns x :=
  returns_outcome hx h.owned

/-- The condition is necessary: a call to `closeConnection` while libuv is closing the handle
releases the connection at once. -/
theorem Inv.release_early (h : Inv s) (hid : s.getConnnection name = some id)
    (hclosing : s.stateOf id = some .closing) : ⟨id, .closing⟩ ∈ (s.closeConnection name).released := by
  obtain ⟨p, hp, hname⟩ := h.found name id hid
  obtain ⟨conn, handle, now, heq, hname', -, -, hcases⟩ :=
    p.conn.close_cases p.handle (some .closeConnection)
  rw [stateOf_eq hp, Option.some.injEq] at hclosing
  obtain ⟨hopen, -, -⟩ | ⟨-, hstate, rfl⟩ := hcases
  · rw [hclosing] at hopen
    cases hopen
  · have hstate' : (s.setPeer id ⟨conn, handle⟩).stateOf id = some .closing := by
      rw [stateOf, getElem?_setPeer hp, if_pos rfl, Option.map_some, hstate, hclosing]
    simp [TcpServer.closeConnection, TcpServer.closePeer, TcpServer.runCallback, TcpServer.release, hid,
      hp, heq, hname', hname, hstate']

/-- A new server. -/
theorem Inv.new : Inv TcpServer.new := by
  have hnone (name : Bytes) (id : ℕ) : TcpServer.new.getConnnection name ≠ some id := by
    simp [getConnnection, TcpServer.new]
  constructor
  · intro name id hid
    exact absurd hid (hnone name id)
  · intro id p hp
    cases hp
  · intro id p hp
    cases hp
  · intro name hname
    cases hname
  · intro r hr
    cases hr

end TcpServer

end UvCpp
