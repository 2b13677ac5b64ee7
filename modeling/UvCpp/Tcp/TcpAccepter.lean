import UvCpp.Tcp.ServerClose
import UvCpp.Systems.Duplex

/-!
# Listening, and closing the server

`TcpServer::bindAndListen` makes an accepter, and `close` closes it: when libuv has closed its handle, the server
closes its connections, and then the callback that `close` was called with runs. A server may be told to
listen again after that, as the example `server_quit` does over and over.

The accepter is released when the server gets another one, so the handle of the first must have been closed
by then. When it is, a server that has been closed is quiet: no connection is in use, none comes, every callback
has run once, and when libuv is done with what it is closing there is no connection left in the map
(`quits`).
-/

namespace UvCpp

open UvCpp.Cpp UvCpp.Systems

/-- `uv::TcpAccepter`, with close callbacks in `κ`. All that is kept of the callback for connections is whether it
is set. -/
structure TcpAccepter (κ : Type) where
  /-- Whether it has begun to listen. -/
  listened_ : Bool
  /-- Whether there is a callback for connections. -/
  callback_ : Bool
  /-- The callback for when the handle is closed. -/
  onCloseCompletCallback_ : Option κ
  /-- The handle. -/
  server_ : UvTcp
  deriving DecidableEq

namespace TcpAccepter

variable {κ : Type}

/-- A new accepter. -/
def new : TcpAccepter κ := ⟨false, false, none, .init⟩

/-- `setNewConnectinonCallback`. -/
def setNewConnectinonCallback (a : TcpAccepter κ) : TcpAccepter κ := { a with callback_ := true }

/-- `listen`, when `uv_listen` returns `rst`. -/
def listen (a : TcpAccepter κ) (rst : ℤ) : TcpAccepter κ := if rst = 0 then { a with listened_ := true } else a

/-- `isListen`: nothing takes it back. -/
def isListen (a : TcpAccepter κ) : Bool := a.listened_

/-- `onNewConnect`: whether the callback is called. -/
def onNewConnect (a : TcpAccepter κ) : Bool := a.callback_

/-- `onCloseComlet`: the callback that is called. -/
def onCloseComlet (a : TcpAccepter κ) : Option κ := a.onCloseCompletCallback_

/-- `uv_is_active`: whether libuv waits for connections. -/
def uv_is_active (a : TcpAccepter κ) : Bool := a.isListen && !a.server_.uv_is_closing

/-- `close`, and the callback that is called at once. -/
def close (a : TcpAccepter κ) (callback : Option κ) : TcpAccepter κ × Option κ :=
  let a := { a with onCloseCompletCallback_ := callback }
  let h := if a.uv_is_active then a.server_.uv_read_stop else a.server_
  if h.uv_is_closing = false then ({ a with server_ := h.uv_close }, none)
  else ({ a with server_ := h }, a.onCloseComlet)

/-- What `close` does: it keeps the callback, and calls it at once unless the handle is in use. -/
theorem close_cases (a : TcpAccepter κ) (callback : Option κ) : ∃ h now,
    a.close callback = ({ a with onCloseCompletCallback_ := callback, server_ := h }, now) ∧
      (a.server_.state = .inUse ∧ h.state = .closing ∧ now = none ∨
        a.server_.state ≠ .inUse ∧ h.state = a.server_.state ∧ now = callback) := by
  have hstate : (if ({ a with onCloseCompletCallback_ := callback } : TcpAccepter κ).uv_is_active then
      a.server_.uv_read_stop else a.server_).state = a.server_.state := by
    split <;> rfl
  rw [close]
  dsimp only
  by_cases hopen : a.server_.state = .inUse
  · rw [if_pos (by simp [UvTcp.uv_is_closing, hstate, hopen])]
    exact ⟨_, none, rfl, .inl ⟨hopen, rfl, rfl⟩⟩
  · rw [if_neg (by simp [UvTcp.uv_is_closing, hstate, hopen])]
    exact ⟨_, callback, rfl, .inr ⟨hopen, hstate, rfl⟩⟩

end TcpAccepter

/-! ### Connections that the server is to erase -/

namespace TcpServer

variable {s s' : TcpServer} {id : ℕ} {p p' : Peer} {name : Bytes}

/-- A connection that is in the map and not in use is being closed to be erased, or it is about to be
erased. -/
def Leaving (s : TcpServer) : Prop :=
  ∀ (name : Bytes) (id : ℕ) (p : Peer), s.getConnnection name = some id → s.peers[id]? = some p →
    p.handle.state ≠ .inUse →
      p.conn.closeCompleteCallback_ = some .closeConnection ∧ (p.handle.state = .closed → name ∈ s.returning)

theorem Leaving.setPeer (h : Leaving s) (hp : s.peers[id]? = some p) (hstate : p'.handle.state = p.handle.state)
    (hcallback : p'.conn.closeCompleteCallback_ = p.conn.closeCompleteCallback_) : Leaving (s.setPeer id p') := by
  intro name j q hj hq hnot
  rw [getElem?_setPeer hp] at hq
  split at hq
  · next heq =>
    subst heq
    cases hq
    rw [hcallback, hstate]
    exact h name id p hj hp (hstate ▸ hnot)
  · exact h name j q hj hq hnot

/-- `closeConnection` asks for a connection to be erased when it is closed. -/
theorem Leaving.closeConnection (h : Leaving s) (hkept : Kept s) (name : Bytes) :
    Leaving (s.closeConnection name) := by
  rw [TcpServer.closeConnection]
  split
  · exact h
  · next id hid =>
    obtain ⟨p, hp, rfl⟩ := hkept.found name id hid
    obtain ⟨conn, handle, now, heq, hname, -, hcallback, hcases⟩ :=
      p.conn.close_cases p.handle (some .closeConnection)
    rw [TcpServer.closePeer, hp]
    dsimp only
    rw [heq]
    have hset (returning : List Bytes) (hsub : ∀ n ∈ s.returning, n ∈ returning)
        (hclosed : handle.state = .closed → p.conn.name_ ∈ returning) (released : List Release) :
        Leaving { s.setPeer id ⟨conn, handle⟩ with returning, released } := by
      intro name' j q hj hq hnot
      change (s.setPeer id ⟨conn, handle⟩).peers[j]? = some q at hq
      rw [getElem?_setPeer hp] at hq
      split at hq
      · next hids =>
        subst hids
        cases hq
        obtain ⟨q, hq, hname'⟩ := hkept.found name' id hj
        rw [hp, Option.some.injEq] at hq
        rw [← hname', ← hq]
        exact ⟨hcallback, hclosed⟩
      · obtain ⟨hasked, hleft⟩ := h name' j q hj hq hnot
        exact ⟨hasked, fun hclosed => hsub _ (hleft hclosed)⟩
    rcases hcases with ⟨-, hclosing, rfl⟩ | ⟨-, -, rfl⟩
    · refine hset s.returning (fun _ hn => hn) (fun hclosed => ?_) s.released
      rw [hclosing] at hclosed
      cases hclosed
    · dsimp only
      rw [runCallback, getConnnection_setPeer, hname, hid]
      exact hset _ (fun _ hn => List.mem_cons_of_mem _ hn) (fun _ => List.mem_cons_self) _

theorem Leaving.onSocketClose (h : Leaving s) (hkept : Kept s) (id : ℕ) : Leaving (s.onSocketClose id) := by
  rw [TcpServer.onSocketClose]
  split
  · exact h
  · split
    · exact h.closeConnection hkept _
    · exact h

theorem Leaving.closeAll (h : Leaving s) (hkept : Kept s) : Leaving s.closeAll := by
  have hboth : Leaving s.closeAll ∧ Kept s.closeAll :=
    List.foldlRecOn _ _ (motive := fun s => Leaving s ∧ Kept s) ⟨h, hkept⟩ fun s h connection _ =>
      ⟨h.1.onSocketClose h.2 connection.2, h.2.evolves (evolves_onSocketClose s connection.2)⟩
  exact hboth.1

/-- libuv has closed a handle. -/
theorem Leaving.CloseComplete (h : Leaving s) (hkept : Kept s) (hp : s.peers[id]? = some p)
    (hclosing : p.handle.state = .closing) :
    Leaving ((s.setPeer id { p with handle.state := .closed }).CloseComplete id p.conn) := by
  have hset (returning : List Bytes) (hsub : ∀ n ∈ s.returning, n ∈ returning) (released : List Release)
      (hmine : s.getConnnection p.conn.name_ = some id → p.conn.name_ ∈ returning) :
      Leaving { s.setPeer id { p with handle.state := .closed } with returning, released } := by
    intro name j q hj hq hnot
    change (s.setPeer id { p with handle.state := .closed }).peers[j]? = some q at hq
    change s.getConnnection name = some j at hj
    rw [getElem?_setPeer hp] at hq
    split at hq
    · next hids =>
      subst hids
      cases hq
      obtain ⟨q, hq, hname⟩ := hkept.found name id hj
      rw [hp, Option.some.injEq] at hq
      subst hq hname
      exact ⟨(h p.conn.name_ id p hj hp (by simp [hclosing])).1, fun _ => hmine hj⟩
    · obtain ⟨hasked, hleft⟩ := h name j q hj hq hnot
      exact ⟨hasked, fun hclosed => hsub _ (hleft hclosed)⟩
  -- a connection in the map has the callback that erases it
  have hasked (hmine : s.getConnnection p.conn.name_ = some id) :
      p.conn.closeCompleteCallback_ = some .closeConnection := (h _ id p hmine hp (by simp [hclosing])).1
  rw [TcpServer.CloseComplete, TcpConnection.CloseComplete]
  cases hcallback : p.conn.closeCompleteCallback_ with
  | none =>
    refine hset _ (fun _ hn => hn) _ fun hmine => ?_
    rw [hasked hmine] at hcallback
    cases hcallback
  | some callback =>
    cases callback with
    | user =>
      refine hset _ (fun _ hn => hn) _ fun hmine => ?_
      rw [hasked hmine] at hcallback
      cases hcallback
    | closeConnection =>
      dsimp only
      rw [runCallback, getConnnection_setPeer]
      split
      · next hnone =>
        refine hset _ (fun _ hn => hn) _ fun hmine => ?_
        rw [hnone] at hmine
        cases hmine
      · exact hset _ (fun _ hn => List.mem_cons_of_mem _ hn) _ fun _ => List.mem_cons_self

/-- The server closes its connections itself: the user calls `close` of none. -/
theorem Leaving.step (h : Leaving s) (hkept : Kept s) {e : Event} (huser : ∀ id callback, e ≠ .closePeer id callback)
    (hstep : s.stepReused e = some s') : Leaving s' := by
  cases moves_of_stepReused hstep with
  | @onAccept name hidle =>
    intro name' j q hj hq hnot
    rw [getConnnection_onAccept] at hj
    rcases getElem?_onAccept s name hq with hold | ⟨-, hopen, -⟩
    · split at hj
      · cases hj
        rw [List.getElem?_eq_none le_rfl] at hold
        cases hold
      · exact h name' j q hj hold hnot
    · exact absurd hopen hnot
  | @onMesageReceive id p nread rst hp hidle hopen hreading =>
    obtain ⟨status, handle, hstate, hcases⟩ := s.onMesageReceive_cases id p nread rst
    have hset : Leaving (s.setPeer id ⟨p.conn.setConnectStatus status, handle⟩) := h.setPeer hp hstate rfl
    have hevolves : Evolves s (s.setPeer id ⟨p.conn.setConnectStatus status, handle⟩) :=
      .setPeer hp (.of_eq rfl rfl hstate)
    rcases hcases with heq | heq | heq
    · rwa [heq]
    · rwa [heq]
    · rw [heq]
      exact hset.onSocketClose (hkept.evolves hevolves) id
  | @shutdown id p hp hidle hopen hpos =>
    have hevolves : Evolves s (s.setPeer id { p with handle.shutdowns := p.handle.shutdowns - 1 }) :=
      .setPeer hp (.of_eq rfl rfl rfl)
    have hset : Leaving (s.setPeer id { p with handle.shutdowns := p.handle.shutdowns - 1 }) := h.setPeer hp rfl rfl
    exact hset.onSocketClose (hkept.evolves hevolves) id
  | expire id hidle => exact h.onSocketClose hkept id
  | expire_gone id hidle => exact h
  | @respond id p rst hp =>
    have hstate := p.conn.write_fst p.handle rst
    have hset : Leaving (s.setPeer id ⟨p.conn, (p.conn.write p.handle rst).1⟩) := h.setPeer hp hstate rfl
    have hevolves : Evolves s (s.setPeer id ⟨p.conn, (p.conn.write p.handle rst).1⟩) :=
      .setPeer hp (.of_eq rfl rfl hstate)
    rw [TcpServer.respond]
    dsimp only
    split
    · exact hset
    · exact hset.closeConnection (hkept.evolves hevolves) _
  | @written id p hp hidle hopen hpos =>
    have hevolves : Evolves s (s.setPeer id { p with handle.writes := p.handle.writes - 1 }) :=
      .setPeer hp (.of_eq rfl rfl rfl)
    have hset : Leaving (s.setPeer id { p with handle.writes := p.handle.writes - 1 }) := h.setPeer hp rfl rfl
    exact hset.closeConnection (hkept.evolves hevolves) _
  | closeConnection name => exact h.closeConnection hkept name
  | closePeer id callback => exact absurd rfl (huser id callback)
  | close hidle => exact h.closeAll hkept
  | closed hp hidle hclosing _ _ => exact h.CloseComplete hkept hp hclosing
  | @returned name returning hreturning =>
    intro name' j q hj hq hnot
    rw [getConnnection_removeConnnection] at hj
    split at hj
    · cases hj
    · next hne =>
      obtain ⟨hasked, hleft⟩ := h name' j q hj hq hnot
      refine ⟨hasked, fun hclosed => ?_⟩
      have hmem := hleft hclosed
      rw [hreturning] at hmem
      exact (List.mem_cons.mp hmem).resolve_left fun heq => hne heq.symm

/-- **The server's close closes every connection in use.** -/
theorem Named.closeAll_closes (h : Named s) (id : ℕ) : s.closeAll.stateOf id ≠ some .inUse := by
  intro hopen
  have hfold (connections : List (Bytes × ℕ)) {s : TcpServer} (hwhole : Whole s)
      (hmap : ∀ connection ∈ connections, s.getConnnection connection.1 = some connection.2) :
      ∀ connection ∈ connections,
        (connections.foldl (fun s connection => s.onSocketClose connection.2) s).stateOf connection.2 ≠
          some .inUse := by
    induction connections generalizing s with
    | nil => exact fun _ hmem => by cases hmem
    | cons connection connections ih =>
      rw [List.forall_mem_cons] at hmap ⊢
      have hevolves := evolves_onSocketClose s connection.2
      have hwhole' : Whole (s.onSocketClose connection.2) :=
        ⟨hwhole.toKept.evolves hevolves, EveryPeer.onSocketClose lasting_armed hwhole.armed _⟩
      refine ⟨?_, ih hwhole' fun c hc => (hevolves.lookup _).trans (hmap.2 c hc)⟩
      refine stateOf_ne_inUse (evolves_foldl _ connections) ?_
      dsimp only
      obtain ⟨-, p, p', hp, hclosing, -, heq⟩ | ⟨hstate, heq⟩ := hwhole.onSocketClose_of_entry hmap.1
      · rw [heq, stateOf, getElem?_setPeer hp, if_pos rfl, Option.map_some, hclosing]
        decide
      · rwa [heq]
  have hbefore : s.stateOf id = some .inUse := by
    by_contra hnot
    exact stateOf_ne_inUse (evolves_closeAll s) hnot hopen
  obtain ⟨p, hp, hstate⟩ := Option.map_eq_some_iff.mp hbefore
  have hmine := h.mine id p hp (h.armed id p hp hstate)
  have hmem : (p.conn.name_, id) ∈ s.connnections_.toList :=
    Std.ExtTreeMap.mem_toList_iff_getElem?_eq_some.mpr hmine
  exact hfold _ ⟨h.toKept, h.armed⟩ (fun c hc => Std.ExtTreeMap.mem_toList_iff_getElem?_eq_some.mp hc) _ hmem hopen

/-- A server whose connections are all accounted for: what is in use is in the map and watched, and what is in the
map and not in use is on its way out of it. -/
structure Tended (s : TcpServer) : Prop extends Named s where
  /-- A connection that is not in use is to be erased. -/
  leaving : Leaving s

theorem Tended.new : Tended TcpServer.new := by
  refine ⟨.new, fun name id p hid => ?_⟩
  simp [getConnnection, TcpServer.new] at hid

theorem Tended.closeAll (h : Tended s) : Tended s.closeAll where
  toNamed := h.toNamed.evolves (evolves_closeAll s) (calls_closeAll h.toKept)
  leaving := h.leaving.closeAll h.toKept

/-- **The step lemma.** -/
theorem Tended.step (h : Tended s) {e : Event} (hfresh : s.FreshNames e)
    (huser : ∀ id callback, e ≠ .closePeer id callback) (hstep : s.stepReused e = some s') : Tended s' where
  toNamed := h.toNamed.step hfresh hstep
  leaving := h.leaving.step h.toKept huser hstep

/-- Such a server, and none of its connections has been destroyed before it was closed. -/
structure Intact (s : TcpServer) : Prop extends Tended s where
  /-- What is not closed is in the map. -/
  inv : Inv s

theorem Intact.new : Intact TcpServer.new := ⟨.new, .new⟩

theorem Intact.closeAll (h : Intact s) : Intact s.closeAll := ⟨h.toTended.closeAll, h.inv.closeAll⟩

theorem Intact.step (h : Intact s) {e : Event} (hmet : s.Met e)
    (huser : ∀ id callback, e ≠ .closePeer id callback) (hstep : s.stepReused e = some s') : Intact s' :=
  ⟨h.toTended.step hmet.2 huser hstep, hmet.inv h.inv hstep⟩

/-- No connection comes into use but by an accept. -/
theorem Kept.stateOf_step (h : Kept s) {e : Event} (haccept : ∀ name, e ≠ .onAccept name)
    (hstep : s.stepReused e = some s') (hnot : s.stateOf id ≠ some .inUse) : s'.stateOf id ≠ some .inUse := by
  rcases h.step_cases hstep with ⟨name, rfl, -⟩ | ⟨name, returning, -, -, rfl⟩ | ⟨-, -, -, he⟩
  · exact absurd rfl (haccept name)
  · exact hnot
  · exact stateOf_ne_inUse he hnot

/-- When nothing is in use, or being closed, or about to be erased, the map is empty. -/
theorem Tended.empty (h : Tended s) (hopen : ∀ id, s.stateOf id ≠ some .inUse)
    (hclosing : ∀ id, s.stateOf id ≠ some .closing) (hreturning : s.returning = []) (name : Bytes) :
    s.getConnnection name = none := by
  by_contra hsome
  obtain ⟨id, hid⟩ := Option.ne_none_iff_exists'.mp hsome
  obtain ⟨p, hp, -⟩ := h.found name id hid
  have hstate := stateOf_eq hp
  have hnot : p.handle.state ≠ .inUse := fun heq => hopen id (hstate.trans (congrArg some heq))
  have hclosed : p.handle.state = .closed := by
    cases hcases : p.handle.state with
    | inUse => exact absurd hcases hnot
    | closing => exact absurd (hstate.trans (congrArg some hcases)) (hclosing id)
    | closed => rfl
  have hmem := (h.leaving name id p hid hp hnot).2 hclosed
  rw [hreturning] at hmem
  cases hmem

end TcpServer

/-! ### A server and its accepters -/

/-- A server that listens, with the callbacks of its `close` in `κ`. What the accepter is given is a function that
calls such a callback, which may be absent. -/
structure Listening (κ : Type) where
  /-- The server. -/
  server : TcpServer
  /-- Every accepter there has been. -/
  accepters : List (TcpAccepter (Option κ))
  /-- The accepter of the server, as a place in that list. -/
  accetper_ : Option ℕ
  /-- The callbacks that `close` has been called with, while there was an accepter. -/
  asked : List κ
  /-- The callbacks that have run. -/
  told : List κ

namespace Listening

variable {κ : Type}

/-- A new server. -/
def new : Listening κ := ⟨.new, [], none, [], []⟩

/-- The accepter. -/
def accepter (s : Listening κ) : Option (TcpAccepter (Option κ)) := s.accetper_.bind (s.accepters[·]?)

/-- A new state of the accepter. -/
def setAccepter (s : Listening κ) (k : ℕ) (a : TcpAccepter (Option κ)) : Listening κ :=
  { s with accepters := s.accepters.set k a }

/-- `bindAndListen`, when `uv_tcp_bind` returns `bound` and `uv_listen` returns `rst`. The accepter that the server
has had is released, with its handle. -/
def bindAndListen (s : Listening κ) (bound rst : ℤ) : Exec (Listening κ) :=
  if ∀ a ∈ s.accepter, a.server_.state = .closed then
    let a := if bound ≠ 0 then .new else (TcpAccepter.new.setNewConnectinonCallback).listen rst
    .ok { s with accepters := s.accepters ++ [a], accetper_ := some s.accepters.length }
  else .error .undefined

/-- The function that `close` gives to the accepter. -/
def onClosed (s : Listening κ) (callback : Option κ) : Exec (Listening κ) :=
  match callback with
  | none => .error .thrown
  | some c => .ok { s with server := s.server.closeAll, told := s.told ++ [c] }

/-- Such a function runs, if there is one. -/
def runCallback (s : Listening κ) : Option (Option κ) → Exec (Listening κ)
  | none => .ok s
  | some callback => s.onClosed callback

/-- `close`. -/
def close (s : Listening κ) (callback : Option κ) : Exec (Listening κ) :=
  match s.accetper_, s.accepter with
  | some k, some a =>
    { s with asked := s.asked ++ callback.toList }.setAccepter k (a.close (some callback)).1
      |>.runCallback (a.close (some callback)).2
  | _, _ => .ok s

/-- libuv has a connection for the accepter. If `uv_accept` fails, a handle is closed that is released at
once. -/
def accept (s : Listening κ) (a : TcpAccepter (Option κ)) (name : Bytes) (status rst : ℤ) : Exec (Listening κ) :=
  if status < 0 then .ok s
  else if rst = 0 then
    if a.onNewConnect then .ok { s with server := s.server.onAccept name } else .ok s
  else .error .undefined

/-- What happens. -/
inductive Event (κ : Type) where
  /-- The server is told to listen. -/
  | bindAndListen (bound rst : ℤ)
  /-- It is told to close. -/
  | close (callback : Option κ)
  /-- libuv has closed the accepter. -/
  | closed
  /-- A connection has come; `status` is what libuv says of it, and `rst` is what `uv_accept` returns. -/
  | accept (name : Bytes) (status rst : ℤ)
  /-- Something happens to the connections. -/
  | server (e : TcpServer.Event)

/-- A step. -/
def step (s : Listening κ) : Event κ → Exec (Listening κ)
  | .bindAndListen bound rst => s.bindAndListen bound rst
  | .close callback => s.close callback
  | .closed =>
    match s.accetper_, s.accepter with
    | some k, some a =>
      (s.setAccepter k { a with server_.state := .closed }).runCallback a.onCloseComlet
    | _, _ => .error .undefined
  | .accept name status rst =>
    match s.accepter with
    | some a => s.accept a name status rst
    | none => .error .undefined
  | .server e => do
    let server ← (s.server.outcomeReused e).getD (.error .undefined)
    .ok { s with server }

/-- What can happen: libuv runs no callback while another one runs, and has connections for an accepter that
listens. -/
def Allows (s : Listening κ) : Event κ → Prop
  | .bindAndListen _ _ => True
  | .close _ => True
  | .closed => s.server.returning = [] ∧ ∃ a, s.accepter = some a ∧ a.server_.state = .closing
  | .accept _ _ _ => s.server.returning = [] ∧ ∃ a, s.accepter = some a ∧ a.uv_is_active = true
  | .server e => (∀ name, e ≠ .onAccept name) ∧ e ≠ .close ∧ (s.server.outcomeReused e).isSome

/-- What is asked of a program, and of libuv: an accepter has been closed when the server gets another one; `close`
is called with a callback, and not again while libuv is closing the accepter; connections are closed through the
server, and none while libuv is closing it; a connection that has come can be accepted, under a name that is
fresh. -/
def Careful (s : Listening κ) : Event κ → Prop
  | .bindAndListen _ _ => ∀ a ∈ s.accepter, a.server_.state = .closed
  | .close callback => callback ≠ none ∧ ∀ a ∈ s.accepter, a.server_.state ≠ .closing
  | .closed => True
  | .accept name _ rst => rst = 0 ∧ s.server.Fresh name
  | .server e => s.server.Orderly e ∧ ∀ id callback, e ≠ .closePeer id callback

/-- The callback that is to run when libuv has closed the accepter. -/
def pending (s : Listening κ) : List κ :=
  match s.accepter with
  | some a => if a.server_.state = .closing then (a.onCloseCompletCallback_.bind id).toList else []
  | none => []

/-! ### What holds of a server that listens -/

variable {s : Listening κ}

/-- What holds in every run. -/
structure Inv (s : Listening κ) : Prop where
  /-- The connections are accounted for. -/
  tended : s.server.Intact
  /-- The accepter is one of those there have been. -/
  found : ∀ k, s.accetper_ = some k → ∃ a, s.accepters[k]? = some a
  /-- An accepter that is being closed has a callback. -/
  slot : ∀ a, s.accepter = some a → a.server_.state = .closing → ∃ c, a.onCloseCompletCallback_ = some (some c)
  /-- The callbacks run in turn, and none is lost. -/
  told : s.told ++ s.pending = s.asked
  /-- When the accepter is closed, no connection is in use. -/
  quiet : ∀ a, s.accepter = some a → a.server_.state = .closed → ∀ id, s.server.stateOf id ≠ some .inUse

theorem Inv.new : Inv (Listening.new : Listening κ) where
  tended := .new
  found := fun _ hk => by cases hk
  slot := fun _ ha => by cases ha
  told := rfl
  quiet := fun _ ha => by cases ha

theorem accepter_eq {k : ℕ} (hk : s.accetper_ = some k) : s.accepter = s.accepters[k]? := by
  rw [accepter, hk]
  rfl

theorem pending_eq {a : TcpAccepter (Option κ)} (ha : s.accepter = some a) :
    s.pending = if a.server_.state = .closing then (a.onCloseCompletCallback_.bind id).toList else [] := by
  rw [pending, ha]

/-- A server with an accepter, in any of its states. -/
theorem Inv.of_accepter {s' : Listening κ} {k : ℕ} {a : TcpAccepter (Option κ)} (htended : s'.server.Intact)
    (hk : s'.accetper_ = some k) (ha : s'.accepters[k]? = some a)
    (hslot : a.server_.state = .closing ∧
        (∃ c, a.onCloseCompletCallback_ = some (some c) ∧ s'.told ++ [c] = s'.asked) ∨
      a.server_.state ≠ .closing ∧ s'.told = s'.asked)
    (hquiet : a.server_.state = .closed → ∀ id, s'.server.stateOf id ≠ some .inUse) : Inv s' := by
  have haccepter : s'.accepter = some a := (accepter_eq hk).trans ha
  refine ⟨htended, fun k' hk' => ?_, fun b hb hclosing => ?_, ?_, fun b hb => ?_⟩
  · rw [hk, Option.some.injEq] at hk'
    exact ⟨a, hk' ▸ ha⟩
  · rw [haccepter, Option.some.injEq] at hb
    subst hb
    rcases hslot with ⟨-, c, hc, -⟩ | ⟨hnot, -⟩
    · exact ⟨c, hc⟩
    · exact absurd hclosing hnot
  · rw [pending_eq haccepter]
    rcases hslot with ⟨hclosing, c, hc, htold⟩ | ⟨hnot, htold⟩
    · rw [if_pos hclosing, hc]
      exact htold
    · rw [if_neg hnot, List.append_nil]
      exact htold
  · rw [haccepter, Option.some.injEq] at hb
    exact hb ▸ hquiet

theorem setAccepter_get {k : ℕ} {a : TcpAccepter (Option κ)} (ha : s.accepters[k]? = some a)
    (b : TcpAccepter (Option κ)) : (s.accepters.set k b)[k]? = some b := by
  obtain ⟨hlt, -⟩ := List.getElem?_eq_some_iff.mp ha
  exact List.getElem?_set_self hlt

/-- The accepter as it is, and where it is. -/
theorem Inv.exists_accepter (h : Inv s) {k : ℕ} (hk : s.accetper_ = some k) :
    ∃ a, s.accepters[k]? = some a ∧ s.accepter = some a := by
  obtain ⟨a, ha⟩ := h.found k hk
  exact ⟨a, ha, (accepter_eq hk).trans ha⟩

/-- The server gets another accepter. -/
theorem Inv.bindAndListen (h : Inv s) {bound rst : ℤ} (hcareful : s.Careful (.bindAndListen bound rst)) :
    ∃ s', s.bindAndListen bound rst = .ok s' ∧ Inv s' := by
  refine ⟨_, if_pos hcareful, ?_⟩
  refine .of_accepter h.tended rfl List.getElem?_concat_length (.inr ?_) fun hclosed => ?_
  · refine ⟨?_, ?_⟩
    · dsimp only [TcpAccepter.listen]
      split
      · exact fun heq => by cases heq
      · split
        · exact fun heq => by cases heq
        · exact fun heq => by cases heq
    · have htold := h.told
      cases haccepter : s.accepter with
      | none => rwa [pending, haccepter, List.append_nil] at htold
      | some a =>
        rw [pending_eq haccepter, if_neg, List.append_nil] at htold
        · exact htold
        · rw [hcareful a haccepter]
          exact fun heq => by cases heq
  · exfalso
    dsimp only [TcpAccepter.listen] at hclosed
    split at hclosed
    · cases hclosed
    · split at hclosed
      · cases hclosed
      · cases hclosed

/-- The server is told to close. -/
theorem Inv.close (h : Inv s) {callback : Option κ} (hcareful : s.Careful (.close callback)) :
    ∃ s', s.close callback = .ok s' ∧ Inv s' := by
  obtain ⟨hcallback, hnot⟩ := hcareful
  obtain ⟨c, rfl⟩ := Option.ne_none_iff_exists'.mp hcallback
  cases hk : s.accetper_ with
  | none => exact ⟨s, by rw [Listening.close, hk], h⟩
  | some k =>
    obtain ⟨a, ha, haccepter⟩ := h.exists_accepter hk
    have hopen := hnot a haccepter
    have htold : s.told = s.asked := by
      have htold := h.told
      rwa [pending_eq haccepter, if_neg hopen, List.append_nil] at htold
    obtain ⟨handle, now, heq, hcases⟩ := a.close_cases (some (some c))
    rw [Listening.close, hk, haccepter]
    dsimp only
    rw [heq]
    rcases hcases with ⟨-, hclosing, rfl⟩ | ⟨hused, hstate, rfl⟩
    · refine ⟨_, rfl, .of_accepter h.tended rfl (setAccepter_get ha _) (.inl ⟨hclosing, c, rfl, ?_⟩)
        fun hclosed => ?_⟩
      · exact congrArg (· ++ [c]) htold
      · dsimp only at hclosed
        rw [hclosing] at hclosed
        cases hclosed
    · -- the accepter is closed: the callback runs at once
      refine ⟨_, rfl, .of_accepter h.tended.closeAll rfl (setAccepter_get ha _) (.inr ⟨?_, ?_⟩) fun _ id => ?_⟩
      · exact hstate ▸ hopen
      · exact congrArg (· ++ [c]) htold
      · exact h.tended.closeAll_closes id

/-- libuv has closed the accepter. -/
theorem Inv.closed (h : Inv s) (hallows : s.Allows .closed) : ∃ s', s.step .closed = .ok s' ∧ Inv s' := by
  obtain ⟨-, a, haccepter, hclosing⟩ := hallows
  obtain ⟨c, hc⟩ := h.slot a haccepter hclosing
  obtain ⟨k, hk, ha⟩ := Option.bind_eq_some_iff.mp haccepter
  have htold := h.told
  rw [pending_eq haccepter, if_pos hclosing, hc] at htold
  rw [step, hk, haccepter]
  dsimp only
  rw [TcpAccepter.onCloseComlet, hc]
  refine ⟨_, rfl, .of_accepter h.tended.closeAll hk (setAccepter_get ha _) (.inr ⟨?_, htold⟩) fun _ id => ?_⟩
  · exact fun heq => by cases heq
  · exact h.tended.closeAll_closes id

/-- Something happens to the connections, and the accepter stays as it is. -/
theorem Inv.with_server (h : Inv s) {server : TcpServer} (htended : server.Intact)
    (hquiet : ∀ a, s.accepter = some a → a.server_.state = .closed → ∀ id, server.stateOf id ≠ some .inUse) :
    Inv { s with server } := ⟨htended, h.found, h.slot, h.told, hquiet⟩

/-- A connection has come. -/
theorem Inv.accept (h : Inv s) {name : Bytes} {status rst : ℤ} (hallows : s.Allows (.accept name status rst))
    (hcareful : s.Careful (.accept name status rst)) : ∃ s', s.step (.accept name status rst) = .ok s' ∧ Inv s' := by
  obtain ⟨hreturning, a, haccepter, hactive⟩ := hallows
  obtain ⟨rfl, hfresh⟩ := hcareful
  rw [step, haccepter]
  dsimp only
  rw [Listening.accept]
  split
  · exact ⟨s, rfl, h⟩
  · rw [if_pos rfl]
    split
    · refine ⟨_, rfl, h.with_server ?_ fun b hb hclosed => ?_⟩
      · exact h.tended.step (e := .onAccept name) ⟨trivial, hfresh⟩ (fun _ _ heq => by cases heq)
          (TcpServer.stepReused_onAccept_iff.mpr ⟨hreturning, rfl⟩)
      · -- libuv waits for connections only as long as the accepter is in use
        rw [haccepter, Option.some.injEq] at hb
        rw [TcpAccepter.uv_is_active, hb, UvTcp.uv_is_closing, hclosed] at hactive
        simp at hactive
    · exact ⟨s, rfl, h⟩

theorem step_server {e : TcpServer.Event} {server : TcpServer} (h : s.server.stepReused e = some server) :
    s.step (.server e) = .ok { s with server } := by
  rw [step, TcpServer.stepReused_eq_some_iff.mp h]
  rfl

theorem Inv.server_step (h : Inv s) {e : TcpServer.Event} (hallows : s.Allows (.server e))
    (hcareful : s.Careful (.server e)) : ∃ s', s.step (.server e) = .ok s' ∧ Inv s' := by
  obtain ⟨haccept, -, hoccurs⟩ := hallows
  obtain ⟨horderly, huser⟩ := hcareful
  obtain ⟨x, hx⟩ := Option.isSome_iff_exists.mp hoccurs
  obtain ⟨server, rfl⟩ := h.tended.inv.safe_reused hx
  have hserver := TcpServer.stepReused_eq_some_iff.mpr hx
  have hfresh : s.server.FreshNames e := by
    cases e with
    | onAccept name => exact absurd rfl (haccept name)
    | _ => trivial
  refine ⟨_, step_server hserver, h.with_server (h.tended.step ⟨horderly, hfresh⟩ huser hserver)
    fun a ha hclosed id => ?_⟩
  exact h.tended.toKept.stateOf_step haccept hserver (h.quiet a ha hclosed id)

/-- **The step lemma.** -/
theorem Inv.step (h : Inv s) {e : Event κ} (hallows : s.Allows e) (hcareful : s.Careful e) :
    ∃ s', s.step e = .ok s' ∧ Inv s' := by
  cases e with
  | bindAndListen bound rst => exact h.bindAndListen hcareful
  | close callback => exact h.close hcareful
  | closed => exact h.closed hallows
  | accept name status rst => exact h.accept hallows hcareful
  | server e => exact h.server_step hallows hcareful

/-- **A server that is closed is quiet**, in every run. Nothing faults; the callbacks that `close` was called with run
once each, in their order, the last of them when libuv has closed the accepter; from then on no connection is in
use, until the server listens again; and when libuv is done with what it is closing, the map is empty. -/
theorem quits {events : List (Event κ)}
    (hrun : Run (Steps step fun s e => s.Allows e ∧ s.Careful e) new events s) :
    (∀ e, s.Allows e → s.Careful e → Exec.Returns (s.step e)) ∧
      s.told ++ s.pending = s.asked ∧
      ∀ a, s.accepter = some a → a.server_.state = .closed →
        (∀ id, s.server.stateOf id ≠ some .inUse) ∧
          ((∀ id, s.server.stateOf id ≠ some .closing) → s.server.returning = [] →
            ∀ name, s.server.getConnnection name = none) := by
  obtain ⟨h, hsafe⟩ := hrun.safe Inv .new fun s e h he => h.step he.1 he.2
  refine ⟨fun e hallows hcareful => hsafe e ⟨hallows, hcareful⟩, h.told, fun a ha hclosed => ?_⟩
  have hquiet := h.quiet a ha hclosed
  exact ⟨hquiet, fun hclosing hreturning => h.tended.empty hquiet hclosing hreturning⟩

/-- A server listens, and a peer connects; then it is closed. -/
theorem quits_sample : ∃ s : Listening ℕ, s.asked = [7] ∧ s.told ++ s.pending = [7] ∧
    (∀ id, s.server.stateOf id ≠ some .inUse) ∧ ∀ name, s.server.getConnnection name = none := by
  have hrun : Run (Steps step fun s e => s.Allows e ∧ s.Careful e) (new : Listening ℕ) [] _ := .nil _
  have hrun := hrun.snoc (a := Event.bindAndListen 0 0) ⟨⟨trivial, fun a ha => by cases ha⟩, rfl⟩
  have hrun := hrun.snoc (a := Event.accept [97] 0 0)
    ⟨⟨⟨rfl, _, rfl, rfl⟩, rfl, by decide +kernel, fun p hp => by cases hp⟩, rfl⟩
  have hrun := hrun.snoc (a := Event.close (some 7))
    ⟨⟨trivial, by simp, fun a ha => by cases ha; exact fun heq => by cases heq⟩, rfl⟩
  have hrun := hrun.snoc (a := Event.closed) ⟨⟨⟨rfl, _, rfl, rfl⟩, trivial⟩, rfl⟩
  -- the connection is closed, and erased
  have hfacts : (((TcpServer.new.onAccept [97]).closeAll.stepReused (.closed 0)).bind (·.stepReused .returned)).map
      (fun t => (t.peers.map (·.handle.state), t.returning)) = some ([.closed], []) := by decide +kernel
  obtain ⟨u, hu, hpeers⟩ := Option.map_eq_some_iff.mp hfacts
  obtain ⟨t, ht, hu⟩ := Option.bind_eq_some_iff.mp hu
  rw [Prod.mk.injEq] at hpeers
  have hrun := hrun.snoc (a := Event.server (.closed 0))
    ⟨⟨⟨by simp, by simp, Option.isSome_of_mem (TcpServer.stepReused_eq_some_iff.mp ht)⟩, trivial,
      fun _ _ heq => by cases heq⟩, step_server ht⟩
  have hrun := hrun.snoc (a := Event.server .returned)
    ⟨⟨⟨by simp, by simp, Option.isSome_of_mem (TcpServer.stepReused_eq_some_iff.mp hu)⟩, trivial,
      fun _ _ heq => by cases heq⟩, step_server hu⟩
  obtain ⟨-, htold, hquiet⟩ := quits hrun
  obtain ⟨hopen, hempty⟩ := hquiet _ rfl rfl
  refine ⟨_, rfl, htold, hopen, hempty (fun id hclosing => ?_) hpeers.2⟩
  have hmem : HandleState.closing ∈ u.peers.map (·.handle.state) :=
    List.mem_of_getElem? (i := id) ((List.getElem?_map).trans hclosing)
  rw [hpeers.1] at hmem
  simp at hmem

end Listening

end UvCpp
