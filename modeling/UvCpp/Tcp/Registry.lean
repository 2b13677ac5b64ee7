import UvCpp.Tcp.TcpServer

/-!
# The names of connections

A server knows its connections by the addresses of their peers, and an address can come back: while
the earlier connection with it is in the map, because it has not been closed yet, or because it was
closed by a call to its own `close`, which does not take it out. `addConnnection` inserts, and an
insert leaves the entry that is there. The new connection is then not in the map, and it is destroyed
as soon as it has been accepted, while libuv reads it.

`outcomeReused` is the step of a server whose peers may come back at any time. If a peer comes back
only when there is no entry with its name and libuv is done with the earlier connections of that
name, a connection is in the map from the start, and an end or an error, or its heartbeat, closes
it and no other (`accepted_registered`).
-/

namespace UvCpp.TcpServer

open UvCpp.Cpp UvCpp.Systems

variable {s s' s'' : TcpServer} {id : ℕ} {p p' : Peer} {name : Bytes}

/-- What a step comes to, if it can happen, of a server whose peers may come back under a name that is in
the map. -/
def outcomeReused (s : TcpServer) : Event → Option (Exec TcpServer)
  | .onAccept name => if s.returning = [] then some (.ok (s.onAccept name)) else none
  | e => s.outcome e

/-- Such a step, if it does not fault. -/
def stepReused (s : TcpServer) (e : Event) : Option TcpServer := (s.outcomeReused e).bind Except.toOption

theorem outcomeReused_of_ne {e : Event} (h : ∀ name, e ≠ .onAccept name) : s.outcomeReused e = s.outcome e := by
  cases e with
  | onAccept name => exact absurd rfl (h name)
  | _ => rfl

theorem outcomeReused_onAccept_iff {x : Exec TcpServer} :
    s.outcomeReused (.onAccept name) = some x ↔ s.returning = [] ∧ .ok (s.onAccept name) = x := by
  rw [outcomeReused, Option.ite_none_right_eq_some, Option.some.injEq]

theorem stepReused_eq_some_iff {e : Event} : s.stepReused e = some s' ↔ s.outcomeReused e = some (.ok s') :=
  Exec.bind_toOption_eq_some_iff

theorem stepReused_onAccept_iff :
    s.stepReused (.onAccept name) = some s' ↔ s.returning = [] ∧ s' = s.onAccept name := by
  rw [stepReused_eq_some_iff, outcomeReused_onAccept_iff, Except.ok.injEq, eq_comm (a := s')]

theorem moves_of_stepReused {e : Event} (h : s.stepReused e = some s') : s.Moves e s' := by
  cases e with
  | onAccept name =>
    obtain ⟨hidle, rfl⟩ := stepReused_onAccept_iff.mp h
    exact .onAccept hidle
  | _ => exact moves_of_step h

/-! ### What becomes of a connection -/

/-- What becomes of a connection in a step. -/
structure PeerEvolves (p p' : Peer) : Prop where
  /-- Its name stays. -/
  name : p'.conn.name_ = p.conn.name_
  /-- The owner's callback can be taken away; until then it is not closed. -/
  callback : p'.conn.onConnectCloseCallback_ = true →
    p.conn.onConnectCloseCallback_ = true ∧ p'.handle.state = p.handle.state
  /-- What is in use has been in use before. -/
  inUse : p'.handle.state = .inUse → p.handle.state = .inUse
  /-- And it keeps the owner's callback. -/
  armed : p'.handle.state = .inUse → p.conn.onConnectCloseCallback_ = true → p'.conn.onConnectCloseCallback_ = true
  /-- What is closed stays closed. -/
  closed : p.handle.state = .closed → p'.handle.state = .closed

theorem PeerEvolves.refl (p : Peer) : PeerEvolves p p :=
  ⟨rfl, fun h => ⟨h, rfl⟩, fun h => h, fun _ h => h, fun h => h⟩

theorem PeerEvolves.of_eq (hname : p'.conn.name_ = p.conn.name_)
    (hcallback : p'.conn.onConnectCloseCallback_ = p.conn.onConnectCloseCallback_)
    (hstate : p'.handle.state = p.handle.state) : PeerEvolves p p' :=
  ⟨hname, fun h => ⟨hcallback.symm.trans h, hstate⟩, hstate.symm.trans, fun _ h => hcallback.trans h, hstate.trans⟩

theorem PeerEvolves.trans {p'' : Peer} (h : PeerEvolves p p') (h' : PeerEvolves p' p'') :
    PeerEvolves p p'' := by
  refine ⟨h'.name.trans h.name, fun hcallback => ?_, fun hopen => h.inUse (h'.inUse hopen),
    fun hopen hcallback => h'.armed hopen (h.armed (h'.inUse hopen) hcallback),
    fun hclosed => h'.closed (h.closed hclosed)⟩
  obtain ⟨hcallback, hstate⟩ := h'.callback hcallback
  obtain ⟨hcallback, hstate'⟩ := h.callback hcallback
  exact ⟨hcallback, hstate.trans hstate'⟩

/-- A step that leaves the map as it is. -/
structure Evolves (s s' : TcpServer) : Prop where
  /-- The map is the same. -/
  lookup : ∀ name, s'.getConnnection name = s.getConnnection name
  /-- The connections are the same. -/
  length : s'.peers.length = s.peers.length
  /-- What becomes of each. -/
  peer : ∀ (id : ℕ) (p' : Peer), s'.peers[id]? = some p' → ∃ p, s.peers[id]? = some p ∧ PeerEvolves p p'

theorem Evolves.refl (s : TcpServer) : Evolves s s :=
  ⟨fun _ => rfl, rfl, fun _ p hp => ⟨p, hp, .refl p⟩⟩

theorem Evolves.trans (h : Evolves s s') (h' : Evolves s' s'') : Evolves s s'' := by
  refine ⟨fun name => (h'.lookup name).trans (h.lookup name), h'.length.trans h.length, fun id p hp => ?_⟩
  obtain ⟨p', hp', hpp'⟩ := h'.peer id p hp
  obtain ⟨p'', hp'', hpp''⟩ := h.peer id p' hp'
  exact ⟨p'', hp'', hpp''.trans hpp'⟩

/-- The other direction: what a connection has become. -/
theorem Evolves.exists_peer (h : Evolves s s') (hp : s.peers[id]? = some p) :
    ∃ p', s'.peers[id]? = some p' ∧ PeerEvolves p p' := by
  obtain ⟨hlt, -⟩ := List.getElem?_eq_some_iff.mp hp
  have hp' := List.getElem?_eq_getElem (h.length.symm ▸ hlt : id < s'.peers.length)
  obtain ⟨q, hq, hqp⟩ := h.peer id _ hp'
  rw [hp, Option.some.injEq] at hq
  exact ⟨_, hp', hq ▸ hqp⟩

theorem Evolves.setPeer (hp : s.peers[id]? = some p) (h : PeerEvolves p p') : Evolves s (s.setPeer id p') := by
  refine ⟨fun _ => rfl, List.length_set, fun j q hq => ?_⟩
  rw [getElem?_setPeer hp] at hq
  split at hq
  · next heq =>
    subst heq
    cases hq
    exact ⟨p, hp, h⟩
  · exact ⟨q, hq, .refl q⟩

theorem evolves_runCallback (s : TcpServer) (id : ℕ) (name : Bytes) (callback : ServerCallback) :
    Evolves s (s.runCallback id name callback) := by
  cases callback with
  | user => exact ⟨fun _ => rfl, rfl, fun _ p hp => ⟨p, hp, .refl p⟩⟩
  | closeConnection =>
    rw [runCallback]
    split
    · exact .refl s
    · exact ⟨fun _ => rfl, rfl, fun _ p hp => ⟨p, hp, .refl p⟩⟩

theorem evolves_closePeer (s : TcpServer) (id : ℕ) (callback : Option ServerCallback) :
    Evolves s (s.closePeer id callback) := by
  rw [closePeer]
  split
  · exact .refl s
  · next p hp =>
    obtain ⟨conn, handle, now, heq, hname, hsilent, -, hcases⟩ := p.conn.close_cases p.handle callback
    have hset : Evolves s (s.setPeer id ⟨conn, handle⟩) := by
      refine .setPeer hp ⟨hname, fun hcallback => ?_, fun hopen => ?_, fun hopen _ => ?_, fun hclosed => ?_⟩
      · rw [hsilent] at hcallback
        cases hcallback
      · rcases hcases with ⟨hold, -⟩ | ⟨-, hstate, -⟩
        · exact hold
        · exact hstate.symm.trans hopen
      · -- what has been closed is not in use
        rcases hcases with ⟨-, hclosing, -⟩ | ⟨hclosed, hstate, -⟩
        · rw [hclosing] at hopen
          cases hopen
        · exact absurd (hstate.symm.trans hopen) hclosed
      · rcases hcases with ⟨hold, -⟩ | ⟨-, hstate, -⟩
        · rw [hclosed] at hold
          cases hold
        · exact hstate.trans hclosed
    rw [heq]
    cases now with
    | none => exact hset
    | some callback' => exact hset.trans (evolves_runCallback _ _ _ _)

theorem evolves_closeConnection (s : TcpServer) (name : Bytes) : Evolves s (s.closeConnection name) := by
  rw [closeConnection]
  split
  · exact .refl s
  · exact evolves_closePeer _ _ _

theorem evolves_onSocketClose (s : TcpServer) (id : ℕ) : Evolves s (s.onSocketClose id) := by
  rw [onSocketClose]
  split
  · exact .refl s
  · split
    · exact evolves_closeConnection _ _
    · exact .refl s

theorem evolves_foldl (s : TcpServer) (connections : List (Bytes × ℕ)) :
    Evolves s (connections.foldl (fun s connection => s.onSocketClose connection.2) s) :=
  List.foldlRecOn _ _ (.refl s) fun _ h connection _ => h.trans (evolves_onSocketClose _ connection.2)

theorem evolves_closeAll (s : TcpServer) : Evolves s s.closeAll := evolves_foldl s _

theorem evolves_onMesageReceive (hp : s.peers[id]? = some p) (nread rst : ℤ) :
    Evolves s (s.onMesageReceive id p nread rst) := by
  obtain ⟨status, handle, hstate, hcases⟩ := s.onMesageReceive_cases id p nread rst
  have hset : Evolves s (s.setPeer id ⟨p.conn.setConnectStatus status, handle⟩) :=
    .setPeer hp (.of_eq rfl rfl hstate)
  rcases hcases with heq | heq | heq
  · rw [heq]
    exact .refl s
  · rwa [heq]
  · rw [heq]
    exact hset.trans (evolves_onSocketClose _ _)

theorem evolves_respond (hp : s.peers[id]? = some p) (rst : ℤ) : Evolves s (s.respond id p rst) := by
  have hset : Evolves s (s.setPeer id ⟨p.conn, (p.conn.write p.handle rst).1⟩) :=
    .setPeer hp (.of_eq rfl rfl (p.conn.write_fst p.handle rst))
  rw [respond]
  dsimp only
  split
  · exact hset
  · exact hset.trans (evolves_closeConnection _ _)

theorem evolves_CloseComplete (hp : s.peers[id]? = some p)
    (hsilent : p.conn.onConnectCloseCallback_ ≠ true) :
    Evolves s ((s.setPeer id { p with handle.state := .closed }).CloseComplete id p.conn) := by
  have hset : Evolves s (s.setPeer id { p with handle.state := .closed }) := by
    exact .setPeer hp ⟨rfl, fun h => absurd h hsilent, fun h => (by cases h), fun h => (by cases h), fun _ => rfl⟩
  rw [CloseComplete]
  split
  · exact hset
  · exact hset.trans (evolves_runCallback _ _ _ _)

/-! ### What holds in every run -/

/-- What holds of a server in every run. -/
structure Kept (s : TcpServer) : Prop where
  /-- A connection in the map has the name it is found under. -/
  found : ∀ name id, s.getConnnection name = some id → ∃ p, s.peers[id]? = some p ∧ p.conn.name_ = name
  /-- A connection that would tell the server of an end or an error is in use. -/
  watched : ∀ (id : ℕ) (p : Peer), s.peers[id]? = some p → p.conn.onConnectCloseCallback_ = true →
    p.handle.state = .inUse

theorem Kept.evolves (h : Kept s) (he : Evolves s s') : Kept s' := by
  constructor
  · intro name id hid
    rw [he.lookup] at hid
    obtain ⟨p, hp, hname⟩ := h.found name id hid
    obtain ⟨p', hp', hpp'⟩ := he.exists_peer hp
    exact ⟨p', hp', hpp'.name.trans hname⟩
  · intro id p' hp' hcallback
    obtain ⟨p, hp, hpp'⟩ := he.peer id p' hp'
    obtain ⟨hcallback, hstate⟩ := hpp'.callback hcallback
    exact hstate.trans (h.watched id p hp hcallback)

theorem Kept.lt (h : Kept s) (hid : s.getConnnection name = some id) : id < s.peers.length := by
  obtain ⟨p, hp, -⟩ := h.found name id hid
  obtain ⟨hlt, -⟩ := List.getElem?_eq_some_iff.mp hp
  exact hlt

/-- The map after an accept: an entry that is there stays. -/
theorem getConnnection_onAccept (s : TcpServer) (name name' : Bytes) :
    (s.onAccept name).getConnnection name' =
      if name = name' ∧ s.getConnnection name = none then some s.peers.length
      else s.getConnnection name' := by
  have hfree : s.getConnnection name = none ↔ name ∉ s.connnections_ := by simp [getConnnection]
  have hadd : (s.onAccept name).getConnnection name' =
      (s.connnections_.insertIfNew name s.peers.length)[name']? := rfl
  rw [hadd, Std.ExtTreeMap.getElem?_insertIfNew]
  simp only [hfree, Std.LawfulEqOrd.compare_eq_iff_eq]
  rfl

theorem getElem?_onAccept_of_lt (s : TcpServer) (name : Bytes) {j : ℕ} (hj : j < s.peers.length) :
    (s.onAccept name).peers[j]? = s.peers[j]? := List.getElem?_append_left hj

theorem Kept.onAccept (h : Kept s) (name : Bytes) : Kept (s.onAccept name) := by
  constructor
  · intro name' id hid
    rw [getConnnection_onAccept] at hid
    split at hid
    · next hnew =>
      cases hid
      exact ⟨_, List.getElem?_concat_length, hnew.1⟩
    · obtain ⟨p, hp, hname⟩ := h.found name' id hid
      exact ⟨p, by rw [getElem?_onAccept_of_lt s name (h.lt hid), hp], hname⟩
  · intro id p hp hcallback
    rcases getElem?_onAccept s name hp with hold | ⟨-, hopen, -⟩
    · exact h.watched id p hold hcallback
    · exact hopen

theorem Kept.removeConnnection (h : Kept s) (returning : List Bytes) (name : Bytes) :
    Kept ({ s with returning }.removeConnnection name) := by
  refine ⟨fun name' id hid => ?_, h.watched⟩
  rw [getConnnection_removeConnnection] at hid
  split at hid
  · cases hid
  · exact h.found name' id hid

/-- **What a step does** to the connections and the map: it accepts a connection, or erases one whose
close callback returns, or leaves the map as it is. -/
theorem Kept.step_cases (h : Kept s) {e : Event} (hstep : s.stepReused e = some s') :
    (∃ name, e = .onAccept name ∧ s.returning = [] ∧ s' = s.onAccept name) ∨
      (∃ name returning, e = .returned ∧ s.returning = name :: returning ∧
        s' = { s with returning }.removeConnnection name) ∨
      ((∀ name, e ≠ .onAccept name) ∧ e ≠ .returned ∧ s.Moves e s' ∧ Evolves s s') := by
  have hmoves := moves_of_stepReused hstep
  cases moves_of_stepReused hstep with
  | @onAccept name hidle => exact .inl ⟨name, rfl, hidle, rfl⟩
  | @returned name returning hreturning => exact .inr (.inl ⟨name, returning, rfl, hreturning, rfl⟩)
  | onMesageReceive nread rst hp hidle hopen hreading =>
    exact .inr (.inr ⟨by simp, by simp, hmoves, evolves_onMesageReceive hp nread rst⟩)
  | @shutdown id p hp hidle hopen hpos =>
    have hset : Evolves s (s.setPeer id { p with handle.shutdowns := p.handle.shutdowns - 1 }) :=
      .setPeer hp (.of_eq rfl rfl rfl)
    exact .inr (.inr ⟨by simp, by simp, hmoves, hset.trans (evolves_onSocketClose _ _)⟩)
  | expire id hidle => exact .inr (.inr ⟨by simp, by simp, hmoves, evolves_onSocketClose _ _⟩)
  | expire_gone id hidle => exact .inr (.inr ⟨by simp, by simp, hmoves, .refl s⟩)
  | respond rst hp => exact .inr (.inr ⟨by simp, by simp, hmoves, evolves_respond hp rst⟩)
  | @written id p hp hidle hopen hpos =>
    have hset : Evolves s (s.setPeer id { p with handle.writes := p.handle.writes - 1 }) :=
      .setPeer hp (.of_eq rfl rfl rfl)
    exact .inr (.inr ⟨by simp, by simp, hmoves, hset.trans (evolves_closeConnection _ _)⟩)
  | closeConnection name => exact .inr (.inr ⟨by simp, by simp, hmoves, evolves_closeConnection _ _⟩)
  | closePeer id callback => exact .inr (.inr ⟨by simp, by simp, hmoves, evolves_closePeer _ _ _⟩)
  | close hidle => exact .inr (.inr ⟨by simp, by simp, hmoves, evolves_closeAll s⟩)
  | @closed id p hp hidle hclosing _ _ =>
    refine .inr (.inr ⟨by simp, by simp, hmoves, evolves_CloseComplete hp fun hcallback => ?_⟩)
    have hopen := h.watched id p hp hcallback
    rw [hclosing] at hopen
    cases hopen

/-- **The step lemma.** -/
theorem Kept.step (h : Kept s) {e : Event} (hstep : s.stepReused e = some s') : Kept s' := by
  rcases h.step_cases hstep with ⟨name, -, -, rfl⟩ | ⟨name, returning, -, -, rfl⟩ | ⟨-, -, -, he⟩
  · exact h.onAccept name
  · exact h.removeConnnection returning name
  · exact h.evolves he

theorem Kept.new : Kept TcpServer.new := by
  refine ⟨fun name id hid => ?_, fun id p hp => by cases hp⟩
  simp [getConnnection, TcpServer.new] at hid

/-- A connection that is watched, and in the map, is closed by what happens to it, and nothing else
changes. -/
theorem onSocketClose_of_watched (hp : s.peers[id]? = some p) (hcallback : p.conn.onConnectCloseCallback_ = true)
    (hopen : p.handle.state = .inUse) (hmine : s.getConnnection p.conn.name_ = some id) :
    ∃ p', p'.handle.state = .closing ∧ p'.handle.closes = p.handle.closes + 1 ∧
      s.onSocketClose id = s.setPeer id p' := by
  obtain ⟨conn, handle, now, heq, -, -, -, hcases⟩ :=
    p.conn.close_cases p.handle (some .closeConnection)
  have hcloses := p.conn.close_closes (some .closeConnection) hopen
  rw [heq] at hcloses
  rcases hcases with ⟨-, hstate, rfl⟩ | ⟨hclosed, -⟩
  · refine ⟨⟨conn, handle⟩, hstate, hcloses, ?_⟩
    simp [onSocketClose, closeConnection, closePeer, TcpConnection.onSocketClose, hp, hcallback, hmine, heq]
  · exact absurd hopen hclosed

theorem onSocketClose_of_not_watched (hp : s.peers[id]? = some p)
    (hcallback : p.conn.onConnectCloseCallback_ ≠ true) : s.onSocketClose id = s := by
  simp [onSocketClose, TcpConnection.onSocketClose, hp, hcallback]

/-! ### Names that do not come back too early -/

/-- There is no entry with a name in the map, and libuv is done with the connections that had it. -/
def Fresh (s : TcpServer) (name : Bytes) : Prop :=
  s.getConnnection name = none ∧ ∀ p ∈ s.peers, p.conn.name_ = name → p.handle.state = .closed

/-- A peer comes back only when its name is fresh. -/
def FreshNames (s : TcpServer) : Event → Prop
  | .onAccept name => s.Fresh name
  | _ => True

instance (s : TcpServer) (name : Bytes) : Decidable (s.Fresh name) := inferInstanceAs (Decidable (_ ∧ _))

instance (s : TcpServer) (e : Event) : Decidable (s.FreshNames e) :=
  match e with
  | .onAccept name => inferInstanceAs (Decidable (s.Fresh name))
  | .onMesageReceive _ _ _ | .shutdown _ | .expire _ | .respond _ _ | .written _ | .closeConnection _
  | .closePeer _ _ | .close | .closed _ | .returned => isTrue trivial

/-- What holds as long as names do not come back too early. -/
structure Named (s : TcpServer) : Prop extends Kept s where
  /-- A connection that would tell the server of an end or an error is in the map. -/
  mine : ∀ (id : ℕ) (p : Peer), s.peers[id]? = some p → p.conn.onConnectCloseCallback_ = true →
    s.getConnnection p.conn.name_ = some id
  /-- A connection in use would do so. -/
  armed : ∀ (id : ℕ) (p : Peer), s.peers[id]? = some p → p.handle.state = .inUse →
    p.conn.onConnectCloseCallback_ = true
  /-- What is about to be erased is not in use. -/
  erasing : ∀ name ∈ s.returning, ∀ id, s.getConnnection name = some id → s.stateOf id ≠ some .inUse
  /-- Of the connections with one name libuv is done with all but one. -/
  distinct : ∀ (i j : ℕ) (p q : Peer), s.peers[i]? = some p → s.peers[j]? = some q →
    p.conn.name_ = q.conn.name_ → p.handle.state ≠ .closed → q.handle.state ≠ .closed → i = j

/-- The user's close callback is called for connections that are not in use. -/
def Calls (s s' : TcpServer) : Prop :=
  ∀ name ∈ s'.returning, name ∈ s.returning ∨
    ∀ id, s'.getConnnection name = some id → s'.stateOf id ≠ some .inUse

theorem Calls.refl (s : TcpServer) : Calls s s := fun _ hname => .inl hname

theorem Calls.of_eq (h : s'.returning = s.returning) : Calls s s' := by
  intro name hname
  exact .inl (h ▸ hname)

theorem stateOf_ne_inUse (he : Evolves s s') (h : s.stateOf id ≠ some .inUse) :
    s'.stateOf id ≠ some .inUse := by
  intro hopen
  rw [stateOf, Option.map_eq_some_iff] at hopen
  obtain ⟨p', hp', hopen⟩ := hopen
  obtain ⟨p, hp, hpp'⟩ := he.peer id p' hp'
  rw [stateOf_eq hp] at h
  exact h (congrArg some (hpp'.inUse hopen))

theorem Calls.trans (h : Calls s s') (h' : Calls s' s'') (he : Evolves s' s'') : Calls s s'' := by
  intro name hname
  rcases h' name hname with hname | hdone
  · rcases h name hname with hname | hdone
    · exact .inl hname
    · refine .inr fun id hid => stateOf_ne_inUse he (hdone id ?_)
      rwa [he.lookup] at hid
  · exact .inr hdone

/-- A close callback of a connection. -/
theorem calls_runCallback {callback : ServerCallback}
    (hdone : callback = .closeConnection → ∀ j, s.getConnnection name = some j → s.stateOf j ≠ some .inUse) :
    Calls s (s.runCallback id name callback) := by
  cases callback with
  | user => exact .of_eq rfl
  | closeConnection =>
    rw [runCallback]
    split
    · exact .refl s
    · next j hj =>
      intro name' hname'
      rcases List.mem_cons.mp hname' with rfl | hname'
      · exact .inr (hdone rfl)
      · exact .inl hname'

/-- A call to `close` of a connection. -/
theorem calls_closePeer {callback : Option ServerCallback}
    (hmine : callback = some .closeConnection → ∀ p, s.peers[id]? = some p →
      s.getConnnection p.conn.name_ = some id) : Calls s (s.closePeer id callback) := by
  rw [closePeer]
  split
  · exact .refl s
  · next p hp =>
    obtain ⟨conn, handle, now, heq, hname, -, -, hcases⟩ := p.conn.close_cases p.handle callback
    rw [heq]
    cases now with
    | none => exact .of_eq rfl
    | some callback' =>
      rcases hcases with ⟨-, -, hnow⟩ | ⟨hclosed, hstate, hnow⟩
      · cases hnow
      · refine (Calls.of_eq rfl : Calls s (s.setPeer id ⟨conn, handle⟩)).trans (calls_runCallback ?_)
          (evolves_runCallback _ _ _ _)
        rintro rfl j hj
        have hj : s.getConnnection conn.name_ = some j := hj
        rw [hname, hmine hnow.symm p hp, Option.some.injEq] at hj
        rw [← hj, stateOf, getElem?_setPeer hp, if_pos rfl, Option.map_some, hstate]
        simpa using hclosed

theorem calls_closeConnection (h : Kept s) (name : Bytes) : Calls s (s.closeConnection name) := by
  rw [closeConnection]
  split
  · exact .refl s
  · next id hid =>
    refine calls_closePeer fun _ p hp => ?_
    obtain ⟨q, hq, rfl⟩ := h.found name id hid
    rw [hp, Option.some.injEq] at hq
    rw [hq]
    exact hid

theorem calls_onSocketClose (h : Kept s) (id : ℕ) : Calls s (s.onSocketClose id) := by
  rw [onSocketClose]
  split
  · exact .refl s
  · split
    · exact calls_closeConnection h _
    · exact .refl s

theorem calls_closeAll (h : Kept s) : Calls s s.closeAll := by
  rw [closeAll]
  generalize s.connnections_.toList = connections
  induction connections generalizing s with
  | nil => exact .refl s
  | cons connection connections ih =>
    have hstep := evolves_onSocketClose s connection.2
    rw [List.foldl_cons]
    exact (calls_onSocketClose h connection.2).trans (ih (h.evolves hstep)) (evolves_foldl _ _)

/-- libuv has closed a handle. -/
theorem Named.calls_CloseComplete (h : Named s) (hp : s.peers[id]? = some p)
    (hclosing : p.handle.state = .closing) :
    Calls s ((s.setPeer id { p with handle.state := .closed }).CloseComplete id p.conn) := by
  have hset : Calls s (s.setPeer id { p with handle.state := .closed }) := .of_eq rfl
  rw [CloseComplete]
  split
  · exact hset
  · refine hset.trans (calls_runCallback fun _ j hj => ?_) (evolves_runCallback _ _ _ _)
    have hj : s.getConnnection p.conn.name_ = some j := hj
    obtain ⟨q, hq, hname⟩ := h.found _ j hj
    rw [stateOf, getElem?_setPeer hp]
    split
    · simp
    · next hne =>
      rw [hq, Option.map_some]
      intro hopen
      rw [Option.some.injEq] at hopen
      exact hne (h.distinct id j p q hp hq hname.symm (by simp [hclosing]) (by simp [hopen]))

/-- A step that leaves the map as it is. -/
theorem Named.calls_step (h : Named s) {e : Event} (haccept : ∀ name, e ≠ .onAccept name)
    (hreturned : e ≠ .returned) (hmoves : s.Moves e s') : Calls s s' := by
  cases hmoves with
  | onAccept hidle => exact absurd rfl (haccept _)
  | returned hreturning => exact absurd rfl hreturned
  | @onMesageReceive id p nread rst hp hidle hopen hreading =>
    obtain ⟨status, handle, hstate, hcases⟩ := s.onMesageReceive_cases id p nread rst
    have hset : Evolves s (s.setPeer id ⟨p.conn.setConnectStatus status, handle⟩) :=
      .setPeer hp (.of_eq rfl rfl hstate)
    rcases hcases with heq | heq | heq
    · rw [heq]
      exact .refl s
    · rw [heq]
      exact .of_eq rfl
    · rw [heq]
      exact (calls_onSocketClose (h.toKept.evolves hset) id : Calls (s.setPeer id _) _)
  | @shutdown id p hp hidle hopen hpos =>
    have hset : Evolves s (s.setPeer id { p with handle.shutdowns := p.handle.shutdowns - 1 }) :=
      .setPeer hp (.of_eq rfl rfl rfl)
    exact (calls_onSocketClose (h.toKept.evolves hset) id : Calls (s.setPeer id _) _)
  | expire id hidle => exact calls_onSocketClose h.toKept id
  | expire_gone id hidle => exact .refl s
  | @respond id p rst hp =>
    have hset : Evolves s (s.setPeer id ⟨p.conn, (p.conn.write p.handle rst).1⟩) :=
      .setPeer hp (.of_eq rfl rfl (p.conn.write_fst p.handle rst))
    rw [TcpServer.respond]
    dsimp only
    split
    · exact .of_eq rfl
    · exact (calls_closeConnection (h.toKept.evolves hset) _ : Calls (s.setPeer id _) _)
  | @written id p hp hidle hopen hpos =>
    have hset : Evolves s (s.setPeer id { p with handle.writes := p.handle.writes - 1 }) :=
      .setPeer hp (.of_eq rfl rfl rfl)
    exact (calls_closeConnection (h.toKept.evolves hset) _ : Calls (s.setPeer id _) _)
  | closeConnection name => exact calls_closeConnection h.toKept name
  | closePeer id callback =>
    cases callback with
    | true => exact calls_closePeer fun hcallback => by cases hcallback
    | false => exact calls_closePeer fun hcallback => by cases hcallback
  | close hidle => exact calls_closeAll h.toKept
  | closed hp hidle hclosing _ _ => exact h.calls_CloseComplete hp hclosing

theorem Named.onAccept (h : Named s) (hreturning : s.returning = []) (hfresh : s.Fresh name) :
    Named (s.onAccept name) := by
  have hlookup (name' : Bytes) : (s.onAccept name).getConnnection name' =
      if name = name' then some s.peers.length else s.getConnnection name' := by
    rw [getConnnection_onAccept]
    simp [hfresh.1]
  have hclosed (j : ℕ) (q : Peer) (hq : s.peers[j]? = some q) (hname : q.conn.name_ = name) :
      q.handle.state = .closed := hfresh.2 q (List.mem_of_getElem? hq) hname
  refine ⟨h.toKept.onAccept name, ?_, ?_, ?_, ?_⟩
  · intro j q hq hcallback
    rw [hlookup]
    rcases getElem?_onAccept s name hq with hold | ⟨rfl, -, hname, -⟩
    · rw [if_neg, h.mine j q hold hcallback]
      rintro rfl
      have hopen := h.watched j q hold hcallback
      rw [hclosed j q hold rfl] at hopen
      cases hopen
    · rw [if_pos hname.symm]
  · intro j q hq hopen
    rcases getElem?_onAccept s name hq with hold | ⟨-, -, -, -, hcallback⟩
    · exact h.armed j q hold hopen
    · exact hcallback
  · intro name' hname'
    have hname' : name' ∈ s.returning := hname'
    rw [hreturning] at hname'
    cases hname'
  · intro i j p q hp hq hname hp' hq'
    rcases getElem?_onAccept s name hp with hold | ⟨rfl, -, hname', -⟩
    · rcases getElem?_onAccept s name hq with hold' | ⟨rfl, -, hname', -⟩
      · exact h.distinct i j p q hold hold' hname hp' hq'
      · exact absurd (hclosed i p hold (hname.trans hname')) hp'
    · rcases getElem?_onAccept s name hq with hold' | ⟨rfl, -, -, -⟩
      · exact absurd (hclosed j q hold' (hname.symm.trans hname')) hq'
      · rfl

theorem Named.removeConnnection (h : Named s) {returning : List Bytes}
    (hreturning : s.returning = name :: returning) :
    Named ({ s with returning }.removeConnnection name) := by
  refine ⟨h.toKept.removeConnnection returning name, ?_, h.armed, ?_, h.distinct⟩
  · intro j q hq hcallback
    have hmine := h.mine j q hq hcallback
    have hopen : s.stateOf j = some .inUse :=
      (stateOf_eq (s := s) hq).trans (congrArg some (h.watched j q hq hcallback))
    rw [getConnnection_removeConnnection, if_neg]
    · exact hmine
    · rintro rfl
      exact h.erasing q.conn.name_ (by rw [hreturning]; exact List.mem_cons_self) j hmine hopen
  · intro name' hname' j hj
    rw [getConnnection_removeConnnection] at hj
    split at hj
    · cases hj
    · exact h.erasing name' (by rw [hreturning]; exact List.mem_cons_of_mem _ hname') j hj

theorem Named.evolves (h : Named s) (he : Evolves s s') (hcalls : Calls s s') : Named s' := by
  refine ⟨h.toKept.evolves he, ?_, ?_, ?_, ?_⟩
  · intro id p' hp' hcallback
    obtain ⟨p, hp, hpp'⟩ := he.peer id p' hp'
    rw [he.lookup, hpp'.name]
    exact h.mine id p hp (hpp'.callback hcallback).1
  · intro id p' hp' hopen
    obtain ⟨p, hp, hpp'⟩ := he.peer id p' hp'
    exact hpp'.armed hopen (h.armed id p hp (hpp'.inUse hopen))
  · intro name hname id hid
    rcases hcalls name hname with hname | hdone
    · rw [he.lookup] at hid
      exact stateOf_ne_inUse he (h.erasing name hname id hid)
    · exact hdone id hid
  · intro i j p' q' hp' hq' hname hp hq
    obtain ⟨p, hp₀, hpp'⟩ := he.peer i p' hp'
    obtain ⟨q, hq₀, hqq'⟩ := he.peer j q' hq'
    refine h.distinct i j p q hp₀ hq₀ ?_ (fun hc => hp (hpp'.closed hc)) fun hc => hq (hqq'.closed hc)
    rw [← hpp'.name, hname, hqq'.name]

/-- **The step lemma.** -/
theorem Named.step (h : Named s) {e : Event} (hfresh : s.FreshNames e) (hstep : s.stepReused e = some s') :
    Named s' := by
  rcases h.toKept.step_cases hstep with ⟨name, rfl, hreturning, rfl⟩ | ⟨name, returning, rfl, hreturning, rfl⟩ |
    ⟨haccept, hreturned, hstep, he⟩
  · exact h.onAccept hreturning hfresh
  · exact h.removeConnnection hreturning
  · exact h.evolves he (h.calls_step haccept hreturned hstep)

theorem Named.new : Named TcpServer.new :=
  ⟨.new, fun id p hp => (by cases hp), fun id p hp => (by cases hp), fun name hname => (by cases hname),
    fun i j p q hp => by cases hp⟩

/-! ### No step faults -/

/-- A step that meets both conditions: no close is asked for while libuv is closing the handle, and a peer comes
only when its name is fresh. -/
def Met (s : TcpServer) (e : Event) : Prop := s.Orderly e ∧ s.FreshNames e

instance (s : TcpServer) (e : Event) : Decidable (s.Met e) := inferInstanceAs (Decidable (_ ∧ _))

/-- Such a step is one of a server whose peers have different names. -/
theorem Met.inv {e : Event} (h : s.Met e) (hinv : s.Inv) (hstep : s.stepReused e = some s') : s'.Inv := by
  refine hinv.step h.1 ?_
  rw [stepReused_eq_some_iff] at hstep
  rw [step_eq_some_iff]
  by_cases haccept : ∃ name, e = .onAccept name
  · obtain ⟨name, rfl⟩ := haccept
    obtain ⟨hidle, hs'⟩ := outcomeReused_onAccept_iff.mp hstep
    rw [outcome, if_pos ⟨hidle, h.2.1⟩, hs']
  · rwa [outcomeReused_of_ne fun name heq => haccept ⟨name, heq⟩] at hstep

/-- **A step does not fault**, as long as every step has met the conditions. -/
theorem Inv.safe_reused (h : s.Inv) {e : Event} {x : Exec TcpServer} (hx : s.outcomeReused e = some x) :
    Exec.Returns x := by
  by_cases haccept : ∃ name, e = .onAccept name
  · obtain ⟨name, rfl⟩ := haccept
    obtain ⟨-, rfl⟩ := outcomeReused_onAccept_iff.mp hx
    exact Exec.returns_ok _
  · rw [outcomeReused_of_ne fun name heq => haccept ⟨name, heq⟩] at hx
    exact h.safe hx

/-! ### What closes a connection -/

/-- What closes a connection: a read fails, the shutdown after the end of the stream comes to an end, or the
heartbeat expires. -/
inductive Ends (id : ℕ) : Event → Prop where
  | error {nread : ℤ} (rst : ℤ) (hneg : nread < 0) (herror : nread ≠ UV_EOF) : Ends id (.onMesageReceive id nread rst)
  | shutdown : Ends id (.shutdown id)
  | expire : Ends id (.expire id)

/-- One connection is closed, and the others are left alone. -/
structure ClosesOnly (s s' : TcpServer) (id : ℕ) : Prop where
  /-- libuv is closing its handle. -/
  closing : s'.stateOf id = some .closing
  /-- Nothing becomes of the others. -/
  others : ∀ j ≠ id, s'.peers[j]? = s.peers[j]?

/-- A connection in use changes, and then it is told of the end of its socket. -/
theorem Named.closesOnly (h : Named s) (hp : s.peers[id]? = some p) (hopen : p.handle.state = .inUse)
    (hpp' : PeerEvolves p p') (hstate : p'.handle.state = .inUse) :
    ClosesOnly s ((s.setPeer id p').onSocketClose id) id := by
  have hset : Evolves s (s.setPeer id p') := .setPeer hp hpp'
  have hp' : (s.setPeer id p').peers[id]? = some p' := by rw [getElem?_setPeer hp, if_pos rfl]
  have hcallback := hpp'.armed hstate (h.armed id p hp hopen)
  have hmine : (s.setPeer id p').getConnnection p'.conn.name_ = some id := by
    rw [hpp'.name]
    exact h.mine id p hp (h.armed id p hp hopen)
  obtain ⟨p'', hclosing, -, heq⟩ := onSocketClose_of_watched hp' hcallback hstate hmine
  rw [heq]
  refine ⟨?_, fun j hj => ?_⟩
  · rw [stateOf, getElem?_setPeer hp', if_pos rfl, Option.map_some, hclosing]
  · rw [getElem?_setPeer hp', if_neg hj.symm, getElem?_setPeer hp, if_neg hj.symm]

theorem setPeer_self (hp : s.peers[id]? = some p) : s.setPeer id p = s := by
  obtain ⟨hlt, rfl⟩ := List.getElem?_eq_some_iff.mp hp
  rw [setPeer, List.set_getElem_self]

/-- **What ends a connection in use closes it, and no other.** -/
theorem Named.ends (h : Named s) (hp : s.peers[id]? = some p) (hopen : p.handle.state = .inUse) {e : Event}
    (hends : Ends id e) {x : Exec TcpServer} (hx : s.outcomeReused e = some x) :
    ∃ s', x = .ok s' ∧ ClosesOnly s s' id := by
  have hmine := h.mine id p hp (h.armed id p hp hopen)
  have hreach (s' : TcpServer) : s.reach id p s' = .ok s' := if_pos hmine
  cases hends with
  | @error nread rst hneg herror =>
    simp only [outcomeReused, outcome, hp, Option.bind_eq_bind, Option.bind_some, hreach,
      Option.ite_none_right_eq_some, Option.some.injEq] at hx
    obtain ⟨-, rfl⟩ := hx
    refine ⟨_, rfl, ?_⟩
    rw [onMesageReceive, TcpConnection.onMesageReceive, if_neg (Int.not_lt.mpr (Int.le_of_lt hneg)), if_pos hneg,
      if_pos herror]
    exact h.closesOnly hp hopen (.of_eq rfl rfl rfl) hopen
  | shutdown =>
    simp only [outcomeReused, outcome, hp, Option.bind_eq_bind, Option.bind_some, hreach,
      Option.ite_none_right_eq_some, Option.some.injEq] at hx
    obtain ⟨-, rfl⟩ := hx
    exact ⟨_, rfl, h.closesOnly hp hopen (.of_eq rfl rfl rfl) hopen⟩
  | expire =>
    simp only [outcomeReused, outcome, Option.ite_none_right_eq_some, Option.some.injEq] at hx
    obtain ⟨-, rfl⟩ := hx
    refine ⟨_, rfl, ?_⟩
    have hcloses := h.closesOnly hp hopen (.refl p) hopen
    rw [setPeer_self hp] at hcloses
    have hdrop : s.dropWrapper id = s.onSocketClose id := by
      rw [dropWrapper, hp]
      exact if_pos hmine
    rwa [hdrop]

end UvCpp.TcpServer
