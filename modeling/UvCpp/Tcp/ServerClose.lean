import UvCpp.Tcp.Connected

/-!
# Closing the server

When the accepter is closed, the server goes over its map and tells each connection of the end of its
socket, which closes it. `closeConnection` can erase an entry of the map: of a connection whose handle is
being closed it runs the close callback at once. The loop is safe since it does not come to that. A
connection that libuv is closing has been closed by a call to `close`, which takes the callback away by
which it would call the server; and one that is in use still has it, as nothing else takes it
away (`Whole`). So the loop calls `uv_close` once for each connection in use, and for none of the others
(`close_undisturbed`).
-/

namespace UvCpp.TcpServer

open UvCpp.Cpp UvCpp.Systems

variable {s s' : TcpServer} {id : ℕ} {p p' : Peer} {name : Bytes}

/-- What a step comes to of a server that may be closed again: then its accepter is closed already, and the
loop runs at once, also inside of a callback. -/
def outcomeClosing (s : TcpServer) : Event → Option (Exec TcpServer)
  | .close => some (.ok s.closeAll)
  | e => s.outcomeReused e

/-- Such a step, if it does not fault. -/
def stepClosing (s : TcpServer) (e : Event) : Option TcpServer := (s.outcomeClosing e).bind Except.toOption

/-- How often `uv_close` has been called for the handle of a connection. -/
def closesOf (s : TcpServer) (id : ℕ) : Option ℕ := s.peers[id]?.map fun p => p.handle.closes

/-- The loop of `close` over connections. -/
def closeLoop (s : TcpServer) (connections : List (Bytes × ℕ)) : TcpServer :=
  connections.foldl (fun s connection => s.onSocketClose connection.2) s

/-! ### Connections in use -/

/-- The connections in use have the callback with which they tell the server of an end or an error. -/
def Armed (s : TcpServer) : Prop :=
  ∀ (id : ℕ) (p : Peer), s.peers[id]? = some p → p.handle.state = .inUse → p.conn.onConnectCloseCallback_ = true

/-- Only `close` takes the callback away. -/
theorem lasting_armed : Lasting fun s => s.handle.state = .inUse → s.conn.onConnectCloseCallback_ = true where
  accepted _ _ := rfl
  step s e s' h hstep := by
    cases hstep with
    | onMesageReceive nread rst hopen _ =>
      obtain ⟨status, hconn⟩ := s.conn.onMesageReceive_fst nread
      intro _
      rw [TcpConnection.Endpoint.onMesageReceive]
      dsimp only
      rw [hconn]
      split <;> exact h hopen
    | write rst => exact fun hopen => h ((s.conn.write_fst s.handle rst).symm.trans hopen)
    | close callback => exact fun hopen => absurd hopen (s.close_state callback)
    | expire => exact h
    | shutdown _ _ => exact h
    | written _ _ => exact h
    | closed _ _ _ => exact fun hopen => by cases hopen

/-- What holds of a server in every run: a connection has the callback exactly if it is in use. -/
structure Whole (s : TcpServer) : Prop extends Kept s where
  /-- A connection in use has the callback. -/
  armed : Armed s

/-- **The step lemma.** -/
theorem Whole.step (h : Whole s) {e : Event} (hstep : s.stepClosing e = some s') : Whole s' := by
  by_cases hclose : e = .close
  · subst hclose
    cases hstep
    exact ⟨h.toKept.evolves (evolves_closeAll s), EveryPeer.closeAll lasting_armed h.armed⟩
  · have hstep : s.stepReused e = some s' := by
      cases e with
      | close => exact absurd rfl hclose
      | _ => exact hstep
    exact ⟨h.toKept.step hstep, EveryPeer.step lasting_armed h.armed (moves_of_stepReused hstep)⟩

theorem Whole.new : Whole TcpServer.new := ⟨.new, fun id p hp => by cases hp⟩

/-! ### The loop -/

theorem closesOf_eq (hp : s.peers[id]? = some p) : s.closesOf id = some p.handle.closes := by
  rw [closesOf, hp]
  rfl

/-- **A round of the loop**: it closes a connection in use, and otherwise changes nothing. -/
theorem Whole.onSocketClose_of_entry (h : Whole s) (hid : s.getConnnection name = some id) :
    s.stateOf id = some .inUse ∧ (∃ p p', s.peers[id]? = some p ∧ p'.handle.state = .closing ∧
        p'.handle.closes = p.handle.closes + 1 ∧ s.onSocketClose id = s.setPeer id p') ∨
      s.stateOf id ≠ some .inUse ∧ s.onSocketClose id = s := by
  obtain ⟨p, hp, rfl⟩ := h.found name id hid
  rw [stateOf_eq hp]
  by_cases hopen : p.handle.state = .inUse
  · obtain ⟨p', hclosing, hcloses, heq⟩ := onSocketClose_of_watched hp (h.armed id p hp hopen) hopen hid
    exact .inl ⟨congrArg some hopen, p, p', hp, hclosing, hcloses, heq⟩
  · refine .inr ⟨fun heq => hopen (Option.some.inj heq), onSocketClose_of_not_watched hp fun hcallback => ?_⟩
    exact hopen (h.watched id p hp hcallback)

/-- What the rounds leave as it is. The erasing is done by the close callbacks, so it does not do to say that
the map stays. -/
structure Undisturbed (s s' : TcpServer) : Prop where
  /-- No entry of the map is erased. -/
  connnections : s'.connnections_ = s.connnections_
  /-- No close callback is run, which would erase one. -/
  returning : s'.returning = s.returning
  /-- No close is completed. -/
  released : s'.released = s.released

theorem Undisturbed.trans {s'' : TcpServer} (h : Undisturbed s s') (h' : Undisturbed s' s'') : Undisturbed s s'' :=
  ⟨h'.connnections.trans h.connnections, h'.returning.trans h.returning, h'.released.trans h.released⟩

/-- What a round does: it calls `uv_close` if the connection is in use, and for that connection. -/
theorem Whole.round (h : Whole s) (hid : s.getConnnection name = some id) :
    Undisturbed s (s.onSocketClose id) ∧
      (s.onSocketClose id).closesOf id =
        (if s.stateOf id = some .inUse then (s.closesOf id).map (· + 1) else s.closesOf id) ∧
      ∀ j ≠ id, (s.onSocketClose id).closesOf j = s.closesOf j ∧ (s.onSocketClose id).stateOf j = s.stateOf j := by
  rcases h.onSocketClose_of_entry hid with ⟨hstate, p, p', hp, hclosing, hcloses, heq⟩ | ⟨hstate, heq⟩
  · rw [heq, if_pos hstate]
    refine ⟨⟨rfl, rfl, rfl⟩, ?_, fun j hj => ⟨?_, ?_⟩⟩
    · rw [closesOf, getElem?_setPeer hp, if_pos rfl, closesOf_eq hp, Option.map_some, Option.map_some, hcloses]
    · rw [closesOf, getElem?_setPeer hp, if_neg hj.symm, closesOf]
    · rw [stateOf, getElem?_setPeer hp, if_neg hj.symm, stateOf]
  · rw [heq, if_neg hstate]
    exact ⟨⟨rfl, rfl, rfl⟩, rfl, fun _ _ => ⟨rfl, rfl⟩⟩

/-- The rounds over connections that are in the map. -/
theorem Whole.closeLoop (h : Whole s) {connections : List (Bytes × ℕ)}
    (hmap : ∀ connection ∈ connections, s.getConnnection connection.1 = some connection.2)
    (hdistinct : (connections.map Prod.snd).Nodup) :
    Undisturbed s (s.closeLoop connections) ∧
      ∀ id, (s.closeLoop connections).closesOf id =
        if id ∈ connections.map Prod.snd ∧ s.stateOf id = some .inUse then (s.closesOf id).map (· + 1)
        else s.closesOf id := by
  induction connections generalizing s with
  | nil => exact ⟨⟨rfl, rfl, rfl⟩, fun id => (if_neg fun hmem => by cases hmem.1).symm⟩
  | cons connection connections ih =>
    obtain ⟨name, id⟩ := connection
    rw [List.forall_mem_cons] at hmap
    rw [List.map_cons, List.nodup_cons] at hdistinct
    obtain ⟨hsame, hclosed, hothers⟩ := h.round hmap.1
    have hwhole : Whole (s.onSocketClose id) :=
      ⟨h.toKept.evolves (evolves_onSocketClose s id), EveryPeer.onSocketClose lasting_armed h.armed id⟩
    have hmap' : ∀ connection ∈ connections,
        (s.onSocketClose id).getConnnection connection.1 = some connection.2 := by
      intro connection hmem
      rw [getConnnection, hsame.connnections]
      exact hmap.2 connection hmem
    obtain ⟨hrest, hcalls⟩ := ih hwhole hmap' hdistinct.2
    refine ⟨hsame.trans hrest, fun j => ?_⟩
    have hcons : s.closeLoop ((name, id) :: connections) = (s.onSocketClose id).closeLoop connections := rfl
    simp only [hcons, hcalls j, List.map_cons, List.mem_cons]
    by_cases hj : j = id
    · -- it is not found again
      subst hj
      rw [if_neg fun hagain => hdistinct.1 hagain.1, hclosed]
      exact if_congr ⟨fun hopen => ⟨.inl rfl, hopen⟩, And.right⟩ rfl rfl
    · rw [(hothers j hj).1, (hothers j hj).2]
      exact if_congr (and_congr_left' (or_iff_right hj).symm) rfl rfl

/-- The entries of the map, and that no connection is found in two of them. -/
theorem Whole.entries (h : Whole s) :
    (∀ connection ∈ s.connnections_.toList, s.getConnnection connection.1 = some connection.2) ∧
      (s.connnections_.toList.map Prod.snd).Nodup := by
  have hmap : ∀ connection ∈ s.connnections_.toList, s.getConnnection connection.1 = some connection.2 :=
    fun connection hmem => Std.ExtTreeMap.mem_toList_iff_getElem?_eq_some.mp hmem
  refine ⟨hmap, ?_⟩
  have hkeys := Std.ExtTreeMap.nodup_keys (t := s.connnections_)
  rw [← Std.ExtTreeMap.map_fst_toList_eq_keys] at hkeys
  refine List.Nodup.map_on ?_ hkeys.of_map
  rintro ⟨name, id⟩ hmem ⟨name', id'⟩ hmem' (rfl : id = id')
  -- the connection has one name
  obtain ⟨p, hp, rfl⟩ := h.found name id (hmap _ hmem)
  obtain ⟨q, hq, rfl⟩ := h.found name' id (hmap _ hmem')
  rw [hp, Option.some.injEq] at hq
  rw [hq]

/-- **Closing the server does not disturb its own loop.** In every state that a server can get into, no
round of the loop erases an entry of the map or runs a close callback; and `uv_close` is called in it once for
each connection of the map that is in use, and for no other. -/
theorem close_undisturbed {events : List Event}
    (hrun : Run (fun s e s' => s.stepClosing e = some s') new events s) :
    (∀ before after, s.connnections_.toList = before ++ after → Undisturbed s (s.closeLoop before)) ∧
      s.closeAll = s.closeLoop s.connnections_.toList ∧
      (∀ name id, s.getConnnection name = some id → s.stateOf id = some .inUse →
        s.closeAll.closesOf id = (s.closesOf id).map (· + 1)) ∧
      ∀ id, (∀ name, s.getConnnection name ≠ some id) ∨ s.stateOf id ≠ some .inUse →
        s.closeAll.closesOf id = s.closesOf id := by
  have h : Whole s := hrun.invariant .new fun _ _ _ h hstep => h.step hstep
  obtain ⟨hmap, hdistinct⟩ := h.entries
  have hcalls := (h.closeLoop hmap hdistinct).2
  have hmem (id : ℕ) : id ∈ s.connnections_.toList.map Prod.snd ↔ ∃ name, s.getConnnection name = some id := by
    rw [List.mem_map]
    constructor
    · rintro ⟨⟨name, id⟩, hmem, rfl⟩
      exact ⟨name, hmap _ hmem⟩
    · rintro ⟨name, hid⟩
      exact ⟨(name, id), Std.ExtTreeMap.mem_toList_iff_getElem?_eq_some.mpr hid, rfl⟩
  refine ⟨fun before after heq => ?_, rfl, fun name id hid hopen => ?_, fun id hnot => ?_⟩
  · rw [heq] at hmap hdistinct
    rw [List.map_append] at hdistinct
    exact (h.closeLoop (fun connection hmem => hmap connection (List.mem_append_left _ hmem))
      hdistinct.of_append_left).1
  · exact (hcalls id).trans (if_pos ⟨(hmem id).mpr ⟨name, hid⟩, hopen⟩)
  · refine (hcalls id).trans (if_neg ?_)
    rw [hmem]
    rintro ⟨⟨name, hid⟩, hopen⟩
    rcases hnot with hnot | hnot
    · exact hnot name hid
    · exact hnot hopen

/-- Two peers connect, and the connection of the first is closed: `uv_close` has been called for it, and is now
called for the second. -/
theorem close_undisturbed_sample : ∃ s : TcpServer, s.connnections_.toList.length = 2 ∧
    s.closesOf 0 = some 1 ∧ s.closeAll.closesOf 0 = some 1 ∧
    s.closesOf 1 = some 0 ∧ s.closeAll.closesOf 1 = some 1 := by
  obtain ⟨s, hs⟩ := Option.isSome_iff_exists.mp
    (show ([Event.onAccept [97], .onAccept [98], .closePeer 0 false].foldlM stepClosing new).isSome from by
      decide +kernel)
  have hstates : ([Event.onAccept [97], .onAccept [98], .closePeer 0 false].foldlM stepClosing new).map (fun s =>
      (s.stateOf 0, s.stateOf 1, s.getConnnection [98])) = some (some .closing, some .inUse, some 1) := by
    decide +kernel
  have hcounts : ([Event.onAccept [97], .onAccept [98], .closePeer 0 false].foldlM stepClosing new).map (fun s =>
      (s.connnections_.toList.length, s.closesOf 0, s.closesOf 1)) = some (2, some 1, some 0) := by decide +kernel
  rw [hs, Option.map_some, Option.some.injEq, Prod.mk.injEq, Prod.mk.injEq] at hstates hcounts
  obtain ⟨hclosing, hopen, hid⟩ := hstates
  obtain ⟨hlength, hfirst, hsecond⟩ := hcounts
  obtain ⟨-, -, hcalled, hnot⟩ := close_undisturbed (Run.of_foldlM hs)
  refine ⟨s, hlength, hfirst, ?_, hsecond, ?_⟩
  · exact (hnot 0 (.inr (by rw [hclosing]; decide))).trans hfirst
  · rw [hcalled [98] 1 hid hopen, hsecond, Option.map_some]

end UvCpp.TcpServer
