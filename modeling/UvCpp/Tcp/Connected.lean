import UvCpp.Tcp.Registry

/-!
# Whether a connection is connected

`connected_` is cleared in one place: where a read reports the end of the stream or an error. A connection
can be closed from others: by its owner, by the user, by the heartbeat, by the callback of a write. So a
connection that is being closed is not connected any more if and only if no call to `close` came before the
read that reported the end (`closing_disconnected_iff`).

That is said of a connection and its handle, and of any order of what can happen to them. The connections
of a server have such a history (`lived_of_run`).
-/

namespace UvCpp

open UvCpp.Cpp UvCpp.Systems

namespace TcpConnection

variable {κ : Type}

/-- `isConnected`. -/
def isConnected (c : TcpConnection κ) : Bool := c.connected_

/-- A connection and its handle. -/
structure Endpoint (κ : Type) where
  /-- The connection. -/
  conn : TcpConnection κ
  /-- The handle. -/
  handle : UvTcp

/-- What happens to a connection. -/
inductive Event (κ : Type) where
  /-- A read; `rst` is what `uv_shutdown` returns. -/
  | onMesageReceive (nread rst : ℤ)
  /-- A write; `rst` is what `uv_write` returns. -/
  | write (rst : ℤ)
  /-- `close` is called: by the owner, which has been told of an end, an error or an expired heartbeat, by the
  callback of a write, or by the user. -/
  | close (callback : Option κ)
  /-- The heartbeat expires, and the owner is told. -/
  | expire
  /-- A shutdown comes to an end, and the owner is told. -/
  | shutdown
  /-- A write comes to an end. -/
  | written
  /-- libuv has closed the handle. -/
  | closed

/-- `onMesageReceive`, up to what the owner does: libuv ends the reading at the end of the stream and at an
error. -/
def Endpoint.onMesageReceive (s : Endpoint κ) (nread rst : ℤ) : Endpoint κ :=
  let (conn, received) := s.conn.onMesageReceive nread
  match received with
  | .message => s
  | .nothing => s
  | .socketClose => ⟨conn, s.handle.uv_read_stop⟩
  | .shutdown =>
    let shutdowns := if rst = 0 then s.handle.shutdowns + 1 else s.handle.shutdowns
    ⟨conn, { s.handle.uv_read_stop with shutdowns }⟩

/-- `close`, up to the callback that is called at once. -/
def Endpoint.close (s : Endpoint κ) (callback : Option κ) : Endpoint κ :=
  let (conn, handle, _) := s.conn.close s.handle callback
  ⟨conn, handle⟩

/-- A step: libuv reads only what is in use, and closes a handle after `uv_close`, when its writes and shutdowns
have come to an end. -/
inductive Step (s : Endpoint κ) : Event κ → Endpoint κ → Prop where
  | onMesageReceive (nread rst : ℤ) : s.handle.state = .inUse → s.handle.reading = true →
      Step s (.onMesageReceive nread rst) (s.onMesageReceive nread rst)
  | write (rst : ℤ) : Step s (.write rst) ⟨s.conn, (s.conn.write s.handle rst).1⟩
  | close (callback : Option κ) : Step s (.close callback) (s.close callback)
  | expire : Step s .expire s
  | shutdown : s.handle.state ≠ .closed → 0 < s.handle.shutdowns →
      Step s .shutdown { s with handle.shutdowns := s.handle.shutdowns - 1 }
  | written : s.handle.state ≠ .closed → 0 < s.handle.writes →
      Step s .written { s with handle.writes := s.handle.writes - 1 }
  | closed : s.handle.state = .closing → s.handle.shutdowns = 0 → s.handle.writes = 0 →
      Step s .closed { s with handle.state := .closed }

/-- A read has reported the end of the stream, or an error. -/
def Ended (events : List (Event κ)) : Prop := ∃ nread rst, .onMesageReceive nread rst ∈ events ∧ nread < 0

/-- `close` is called only when a read has reported the end of the stream, or an error. -/
def ClosedAfterEnd (events : List (Event κ)) : Prop :=
  ∀ before callback after, events = before ++ .close callback :: after → Ended before

/-- A connection that is not connected answers every write at once. -/
theorem write_of_not_connected {c : TcpConnection κ} (h : c.isConnected = false) (handle : UvTcp) (rst : ℤ) :
    c.write handle rst = (handle, some (-1)) := by
  rw [isConnected] at h
  rw [write, if_neg (by simp [h])]

/-! ### One step -/

theorem Endpoint.close_state (s : Endpoint κ) (callback : Option κ) : (s.close callback).handle.state ≠ .inUse := by
  obtain ⟨conn, handle, now, heq, -, -, -, ⟨-, hclosing, -⟩ | ⟨hclosed, hstate, -⟩⟩ :=
    s.conn.close_cases s.handle callback
  · rw [Endpoint.close, heq, hclosing]
    decide
  · rw [Endpoint.close, heq, hstate]
    exact hclosed

/-- `close` leaves `connected_`. -/
theorem Endpoint.close_isConnected (s : Endpoint κ) (callback : Option κ) :
    (s.close callback).conn.isConnected = s.conn.isConnected := by
  rw [Endpoint.close, TcpConnection.close]
  dsimp only
  split <;> split <;> rfl

theorem Endpoint.onMesageReceive_state (s : Endpoint κ) (nread rst : ℤ) :
    (s.onMesageReceive nread rst).handle.state = s.handle.state := by
  rw [Endpoint.onMesageReceive]
  dsimp only
  split <;> rfl

/-- A read clears `connected_` if it reports an end or an error. -/
theorem Endpoint.onMesageReceive_isConnected (s : Endpoint κ) (nread rst : ℤ) :
    (s.onMesageReceive nread rst).conn.isConnected = (s.conn.isConnected && decide (0 ≤ nread)) := by
  rw [Endpoint.onMesageReceive, TcpConnection.onMesageReceive]
  dsimp only
  by_cases hpos : 0 < nread
  · rw [if_pos hpos]
    have hle : 0 ≤ nread := Int.le_of_lt hpos
    cases s.conn.onMessageCallback_ <;> simp [hle]
  · rw [if_neg hpos]
    by_cases hneg : nread < 0
    · have hle : ¬ 0 ≤ nread := Int.not_le.mpr hneg
      rw [if_pos hneg, decide_eq_false hle, Bool.and_false]
      by_cases heof : nread = UV_EOF
      · rw [if_neg (not_not.mpr heof)]
        rfl
      · rw [if_pos heof]
        rfl
    · have hle : 0 ≤ nread := Int.not_lt.mp hneg
      simp [hneg, hle]

/-- What the events so far say of a connection. -/
structure Told (events : List (Event κ)) (s : Endpoint κ) : Prop where
  /-- It is not connected if a read has reported the end of the stream, or an error. -/
  ended : s.conn.isConnected = false ↔ Ended events
  /-- Its handle is in use if `close` has not been called. -/
  unclosed : s.handle.state = .inUse ↔ ∀ callback, .close callback ∉ events

theorem ended_concat_iff {events : List (Event κ)} {e : Event κ} : Ended (events ++ [e]) ↔
    Ended events ∨ ∃ nread rst, e = .onMesageReceive nread rst ∧ nread < 0 := by
  simp only [Ended, List.mem_append, List.mem_singleton, or_and_right, exists_or]
  simp only [eq_comm]

/-- An event that neither is a call to `close` nor a read. -/
theorem Told.concat {events : List (Event κ)} {e : Event κ} {s s' : Endpoint κ} (h : Told events s)
    (hconn : s'.conn = s.conn) (hstate : s'.handle.state = .inUse ↔ s.handle.state = .inUse)
    (hread : ∀ nread rst, e ≠ .onMesageReceive nread rst) (hclose : ∀ callback, e ≠ .close callback) :
    Told (events ++ [e]) s' := by
  constructor
  · rw [hconn, h.ended, ended_concat_iff, or_iff_left]
    rintro ⟨nread, rst, he, -⟩
    exact hread nread rst he
  · simp only [hstate, h.unclosed, List.mem_append, List.mem_singleton, (hclose _).symm, or_false]

/-- **The step lemma.** -/
theorem Told.step {events : List (Event κ)} {e : Event κ} {s s' : Endpoint κ} (h : Told events s)
    (hstep : Step s e s') : Told (events ++ [e]) s' := by
  cases hstep with
  | onMesageReceive nread rst hopen _ =>
    constructor
    · rw [Endpoint.onMesageReceive_isConnected, Bool.and_eq_false_iff, h.ended, ended_concat_iff]
      simp
    · rw [Endpoint.onMesageReceive_state, h.unclosed]
      simp
  | write rst => exact h.concat rfl (by rw [write_fst]) nofun nofun
  | close callback =>
    constructor
    · rw [Endpoint.close_isConnected, h.ended, ended_concat_iff]
      simp
    · refine iff_of_false (s.close_state callback) fun hnone => hnone callback ?_
      exact List.mem_append_right events List.mem_cons_self
  | expire => exact h.concat rfl Iff.rfl nofun nofun
  | shutdown _ _ => exact h.concat rfl Iff.rfl nofun nofun
  | written _ _ => exact h.concat rfl Iff.rfl nofun nofun
  | closed hclosing _ _ =>
    refine h.concat rfl (iff_of_false ?_ ?_) nofun nofun
    · simp
    · rw [hclosing]
      decide

/-! ### Runs -/

/-- **The run lemma.** -/
theorem told_of_run {s₀ s : Endpoint κ} {events : List (Event κ)} (hconnected : s₀.conn.isConnected = true)
    (hopen : s₀.handle.state = .inUse) (hrun : Run Step s₀ events s) : Told events s := by
  have hnew : Told [] s₀ := by
    constructor
    · rw [hconnected]
      simp [Ended]
    · simp [hopen]
  exact hrun.rec_events hnew fun _ _ _ _ h hstep => h.step hstep

/-- **When a connection that is being closed is not connected any more**, in every state of a run: if `close` is
called only when a read has reported the end of the stream, or an error. -/
theorem closing_disconnected_iff {s₀ s : Endpoint κ} {events : List (Event κ)}
    (hconnected : s₀.conn.isConnected = true) (hopen : s₀.handle.state = .inUse) (hrun : Run Step s₀ events s) :
    (∀ before after t, events = before ++ after → Run Step s₀ before t → t.handle.state ≠ .inUse →
        t.conn.isConnected = false ∧ ∀ rst, t.conn.write t.handle rst = (t.handle, some (-1))) ↔
      ClosedAfterEnd events := by
  constructor
  · rintro h before callback after rfl
    obtain ⟨t, ht⟩ := hrun.exists_before
    have htold := told_of_run hconnected hopen ht
    rw [← htold.ended]
    by_cases hstate : t.handle.state = .inUse
    · -- the handle is closed while the connection is connected
      have hclose : Run Step s₀ (before ++ [.close callback]) (t.close callback) := ht.snoc (.close callback)
      have hnot := (h (before ++ [.close callback]) after _ (by simp) hclose (t.close_state callback)).1
      rwa [t.close_isConnected callback] at hnot
    · exact (h before _ t rfl ht hstate).1
  · rintro h before after t rfl ht hstate
    have htold := told_of_run hconnected hopen ht
    rw [ne_eq, htold.unclosed, not_forall] at hstate
    obtain ⟨callback, hmem⟩ := hstate
    rw [not_not] at hmem
    obtain ⟨before', after', rfl⟩ := List.append_of_mem hmem
    obtain ⟨nread, rst, hread, hneg⟩ := h before' callback (after' ++ after) (by simp)
    have hnot : t.conn.isConnected = false := htold.ended.mpr ⟨nread, rst, List.mem_append_left _ hread, hneg⟩
    exact ⟨hnot, fun rst => write_of_not_connected hnot t.handle rst⟩

/-- A new connection, as its owner makes it. -/
def Endpoint.accepted (name : Bytes) : Endpoint κ :=
  ⟨(TcpConnection.new name).setMessageCallback.setConnectCloseCallback, UvTcp.init.uv_read_start⟩

/-- The stream ends, and when the shutdown has come to an end the connection is closed. -/
theorem closing_disconnected_iff_sample :
    (∀ before after t, [.onMesageReceive UV_EOF 0, .shutdown, .close (some 0)] = before ++ after →
      Run Step (Endpoint.accepted (bytes "127.0.0.1:10002") : Endpoint ℕ) before t → t.handle.state ≠ .inUse →
        t.conn.isConnected = false ∧ ∀ rst, t.conn.write t.handle rst = (t.handle, some (-1))) ↔
      ClosedAfterEnd [.onMesageReceive UV_EOF 0, .shutdown, .close (some 0)] := by
  have hrun : Run Step (Endpoint.accepted (bytes "127.0.0.1:10002") : Endpoint ℕ) [] _ := .nil _
  have hrun := hrun.snoc (.onMesageReceive UV_EOF 0 rfl rfl)
  have hrun := hrun.snoc (.shutdown (by decide) (by decide))
  have hrun := hrun.snoc (.close (some 0))
  exact closing_disconnected_iff rfl rfl hrun

end TcpConnection

/-! ### The connections of a server -/

namespace TcpServer

open TcpConnection (Endpoint Step)

variable {s s' : TcpServer} {id : ℕ} {p p' : Peer} {P : Endpoint ServerCallback → Prop}

/-- All connections of a server have a property. -/
def EveryPeer (P : Endpoint ServerCallback → Prop) (s : TcpServer) : Prop :=
  ∀ (id : ℕ) (p : Peer), s.peers[id]? = some p → P ⟨p.conn, p.handle⟩

/-- New connections have a property, and it is not lost. -/
structure Lasting (P : Endpoint ServerCallback → Prop) : Prop where
  /-- New connections have it. -/
  accepted : ∀ name, P (.accepted name)
  /-- Nothing that happens to a connection takes it away. -/
  step : ∀ s e s', P s → Step s e s' → P s'

theorem EveryPeer.of_peers (h : EveryPeer P s) (hpeers : s'.peers = s.peers) : EveryPeer P s' := by
  intro id p hp
  rw [hpeers] at hp
  exact h id p hp

theorem EveryPeer.setPeer (h : EveryPeer P s) (p' : Peer) (hp : s.peers[id]? = some p)
    (hp' : P ⟨p'.conn, p'.handle⟩) : EveryPeer P (s.setPeer id p') := by
  intro j q hq
  rw [getElem?_setPeer hp] at hq
  split at hq
  · cases hq
    exact hp'
  · exact h j q hq

theorem peers_runCallback (s : TcpServer) (id : ℕ) (name : Bytes) (callback : ServerCallback) :
    (s.runCallback id name callback).peers = s.peers := by
  cases callback with
  | user => rfl
  | closeConnection =>
    rw [runCallback]
    split
    · rfl
    · rfl

section Closes

variable (hP : Lasting P) (h : EveryPeer P s)
include hP h

theorem EveryPeer.closePeer (id : ℕ) (callback : Option ServerCallback) : EveryPeer P (s.closePeer id callback) := by
  rw [TcpServer.closePeer]
  split
  · exact h
  · next p hp =>
    have hset := h.setPeer ⟨(p.conn.close p.handle callback).1, (p.conn.close p.handle callback).2.1⟩ hp
      (hP.step _ _ _ (h id p hp) (.close callback))
    dsimp only
    split
    · exact hset
    · exact hset.of_peers (peers_runCallback _ _ _ _)

theorem EveryPeer.closeConnection (name : Bytes) : EveryPeer P (s.closeConnection name) := by
  rw [TcpServer.closeConnection]
  split
  · exact h
  · exact h.closePeer hP _ _

theorem EveryPeer.onSocketClose (id : ℕ) : EveryPeer P (s.onSocketClose id) := by
  rw [TcpServer.onSocketClose]
  split
  · exact h
  · split
    · exact h.closeConnection hP _
    · exact h

theorem EveryPeer.closeAll : EveryPeer P s.closeAll :=
  List.foldlRecOn _ _ h fun _ h connection _ => h.onSocketClose hP connection.2

/-- A read, and what the server does if it reports an error. -/
theorem EveryPeer.onMesageReceive (hp : s.peers[id]? = some p) (hopen : p.handle.state = .inUse)
    (hreading : p.handle.reading = true) (nread rst : ℤ) : EveryPeer P (s.onMesageReceive id p nread rst) := by
  have hread := hP.step _ _ _ (h id p hp) (.onMesageReceive nread rst hopen hreading)
  rw [Endpoint.onMesageReceive] at hread
  rw [TcpServer.onMesageReceive]
  dsimp only at hread ⊢
  cases hreceived : (p.conn.onMesageReceive nread).2 with
  | message => exact h
  | nothing => exact h
  | socketClose =>
    rw [hreceived] at hread
    exact EveryPeer.onSocketClose hP (h.setPeer _ hp hread) id
  | shutdown =>
    rw [hreceived] at hread
    exact h.setPeer _ hp hread

/-- **A step of a server is nothing to its connections but what can happen to a connection.** -/
theorem EveryPeer.step {e : Event} (hmoves : s.Moves e s') : EveryPeer P s' := by
  cases hmoves with
  | @onAccept name _ =>
    intro j q hq
    have hq : (s.peers ++ [_])[j]? = some q := hq
    rw [List.getElem?_append] at hq
    split at hq
    · exact h j q hq
    · rw [List.getElem?_singleton] at hq
      split at hq
      · cases hq
        exact hP.accepted name
      · cases hq
  | onMesageReceive nread rst hp _ hopen hreading => exact h.onMesageReceive hP hp hopen hreading nread rst
  | @shutdown id p hp _ hopen hpos =>
    have hset := h.setPeer { p with handle.shutdowns := p.handle.shutdowns - 1 } hp
      (hP.step _ _ _ (h id p hp) (.shutdown hopen hpos))
    exact hset.onSocketClose hP id
  | expire id _ => exact h.onSocketClose hP id
  | expire_gone id _ => exact h
  | @respond id p rst hp =>
    have hset := h.setPeer ⟨p.conn, (p.conn.write p.handle rst).1⟩ hp
      (hP.step _ _ _ (h id p hp) (.write rst))
    rw [TcpServer.respond]
    dsimp only
    split
    · exact hset
    · exact hset.closeConnection hP _
  | @written id p hp _ hopen hpos =>
    have hset := h.setPeer { p with handle.writes := p.handle.writes - 1 } hp
      (hP.step _ _ _ (h id p hp) (.written hopen hpos))
    exact hset.closeConnection hP _
  | closeConnection name => exact h.closeConnection hP name
  | closePeer id callback => exact h.closePeer hP id _
  | close _ => exact h.closeAll hP
  | @closed id p hp _ hclosing hshutdowns hwrites =>
    have hset := h.setPeer { p with handle.state := .closed } hp
      (hP.step _ _ _ (h id p hp) (.closed hclosing hshutdowns hwrites))
    rw [TcpServer.CloseComplete]
    split
    · exact hset
    · exact hset.of_peers (peers_runCallback _ _ _ _)
  | returned _ => exact h.of_peers rfl

end Closes

/-- A connection has become what it is by what can happen to a connection. -/
def Lived (s : Endpoint ServerCallback) : Prop := ∃ name events, Run Step (.accepted name) events s

theorem lasting_lived : Lasting Lived where
  accepted name := ⟨name, [], .nil _⟩
  step := by
    rintro s e s' ⟨name, events, hrun⟩ hstep
    exact ⟨name, _, hrun.snoc hstep⟩

/-- **The connections of a server have a history** of what can happen to a connection. -/
theorem lived_of_run {events : List Event} (hrun : Run (fun s e s' => s.stepReused e = some s') new events s) :
    EveryPeer Lived s := by
  refine hrun.invariant (fun id p hp => ?_) fun _ _ _ h hstep => h.step lasting_lived (moves_of_stepReused hstep)
  cases hp

/-- **A connection that is being closed is still connected**: its heartbeat expires, the server closes it, and a
write is handed to libuv. -/
theorem not_closing_disconnected : ∃ s p,
    Run (fun s e s' => s.stepReused e = some s') new [.onAccept [97], .expire 0] s ∧
    s.peers[0]? = some p ∧ p.handle.state = .closing ∧ p.conn.isConnected = true ∧
      p.conn.write p.handle 0 = ({ p.handle with writes := p.handle.writes + 1 }, none) := by
  obtain ⟨s, hs⟩ := Option.isSome_iff_exists.mp
    (show ([Event.onAccept [97], .expire 0].foldlM stepReused new).isSome from by decide +kernel)
  have hfacts : ([Event.onAccept [97], .expire 0].foldlM stepReused new).map (fun s =>
      s.peers[0]?.map fun p => (p.handle.state, p.conn.isConnected)) = some (some (.closing, true)) := by
    decide +kernel
  rw [hs, Option.map_some, Option.some.injEq, Option.map_eq_some_iff] at hfacts
  obtain ⟨p, hp, hfacts⟩ := hfacts
  obtain ⟨hclosing, hconnected⟩ := Prod.mk.inj hfacts
  have hwrite : p.conn.write p.handle 0 = ({ p.handle with writes := p.handle.writes + 1 }, none) :=
    (if_pos hconnected).trans (if_pos rfl)
  exact ⟨s, p, Run.of_foldlM hs, hp, hclosing, hconnected, hwrite⟩

end TcpServer

end UvCpp
