import UvCpp.Tcp.Registry

/-!
# Close notifications

The user's close callback is called by the close callback that `closeConnection` leaves with a
connection. That looks the connection up by its name, and erases it when the user's callback has
returned. So the lookup finds it once, and it finds no other connection as long as the name is not
used again before libuv is done.

It may be run too early, though: when `closeConnection` is called while libuv is closing the handle,
it is run at once, the connection is erased and destroyed, and when libuv is done it calls back for a
connection that is gone (`not_notified_once`). If that does not happen, and no peer comes while there
is still an entry with its name, no step faults, and there is one notification for each connection
(`notified_once`).
-/

namespace UvCpp.TcpServer

open UvCpp.Cpp UvCpp.Systems

variable {s s' s'' : TcpServer} {id : ℕ} {p p' : Peer} {name : Bytes}

/-- The connections the user's close callback is called with in a step. -/
def called (s s' : TcpServer) : List ℕ :=
  (s'.returning.take (s'.returning.length - s.returning.length)).filterMap s'.getConnnection

/-- The connection whose close callback is run in a step, if one is run. -/
def subject (s : TcpServer) : Event → Option ℕ
  | .closed id => some id
  | .closeConnection name => s.getConnnection name
  | .onMesageReceive id _ _ | .shutdown id | .expire id | .respond id _ | .written id => do
    let p ← s.peers[id]?
    s.getConnnection p.conn.name_
  | .onAccept _ | .closePeer _ _ | .close | .returned => none

/-- A name is not used again before libuv is done with the earlier connection, and the user's close
callback does not call `closeConnection`. -/
def Considerate (s : TcpServer) : Event → Bool
  | .onAccept name => s.peers.all fun p => p.conn.name_ ≠ name ∨ p.handle.state = .closed
  | .closeConnection _ => s.returning = []
  | .respond id rst => s.returning = [] ∨ ∀ p ∈ s.peers[id]?, (p.conn.write p.handle rst).2 = none
  | _ => true

/-- A step of a server and of the list of the notifications: for each the connection whose close
callback was run, and the one the user's close callback was called with. -/
def noticeStep (x : TcpServer × List (Option ℕ × ℕ)) (e : Event) :
    Option (TcpServer × List (Option ℕ × ℕ)) :=
  (x.1.stepReused e).map fun s' => (s', x.2 ++ (called x.1 s').map fun id => (x.1.subject e, id))

/-! ### What a step asks for, and whom it calls -/

/-- libuv is closing the handle of a connection, and its close callback is that of
`closeConnection`. -/
def Asked (p : Peer) : Prop :=
  p.handle.state = .closing ∧ p.conn.closeCompleteCallback_ = some .closeConnection

/-- A step that leaves the map as it is, and runs no close callback but one of `subject`. -/
structure Closes (s s' : TcpServer) (subject : Option ℕ) : Prop where
  /-- `closeConnection` leaves its callback with connections of the map. -/
  asks : ∀ (id : ℕ) (p' : Peer), s'.peers[id]? = some p' → Asked p' →
    (∃ p, s.peers[id]? = some p ∧ Asked p) ∨ s.getConnnection p'.conn.name_ = some id
  /-- The user's close callback is called with the connection whose close callback is run. -/
  calls : s'.returning = s.returning ∨ ∃ id name, subject = some id ∧
    s'.returning = name :: s.returning ∧ s.getConnnection name = some id

theorem Closes.refl (s : TcpServer) (x : Option ℕ) : Closes s s x :=
  ⟨fun _ p hp hasked => .inl ⟨p, hp, hasked⟩, .inl rfl⟩

/-- One connection changes, and it is not closed. -/
theorem Closes.setPeer (hp : s.peers[id]? = some p) (hasked : Asked p' → Asked p) (x : Option ℕ) :
    Closes s (s.setPeer id p') x := by
  refine ⟨fun j q hq hq' => ?_, .inl rfl⟩
  rw [getElem?_setPeer hp] at hq
  split at hq
  · next heq =>
    subst heq
    cases hq
    exact .inl ⟨p, hp, hasked hq'⟩
  · exact .inl ⟨q, hq, hq'⟩

theorem Closes.trans {x : Option ℕ} (h : Closes s s' x)
    (hlookup : ∀ name, s'.getConnnection name = s.getConnnection name)
    (hreturning : s'.returning = s.returning) (h' : Closes s' s'' x) (he : Evolves s' s'') :
    Closes s s'' x := by
  constructor
  · intro j q hq hasked
    rcases h'.asks j q hq hasked with ⟨q', hq', hasked'⟩ | hmine
    · rcases h.asks j q' hq' hasked' with hold | hmine
      · exact .inl hold
      · obtain ⟨q'', hq'', hname⟩ := he.peer j q hq
        rw [hq', Option.some.injEq] at hq''
        subst hq''
        exact .inr (hname.name ▸ hmine)
    · rw [hlookup] at hmine
      exact .inr hmine
  · rcases h'.calls with hsame | ⟨j, name, hx, hpush, hj⟩
    · exact .inl (hsame.trans hreturning)
    · rw [hlookup] at hj
      exact .inr ⟨j, name, hx, by rw [hpush, hreturning], hj⟩

/-- A close callback of a connection that is found under its name, or is not found. -/
theorem closes_runCallback (callback : ServerCallback)
    (hmine : callback = .closeConnection → ∀ j, s.getConnnection name = some j → j = id) :
    Closes s (s.runCallback id name callback) (some id) := by
  cases callback with
  | user => exact ⟨fun _ p hp hasked => .inl ⟨p, hp, hasked⟩, .inl rfl⟩
  | closeConnection =>
    rw [runCallback]
    split
    · exact .refl s _
    · next j hj =>
      refine ⟨fun _ p hp hasked => .inl ⟨p, hp, hasked⟩, .inr ⟨id, name, rfl, rfl, ?_⟩⟩
      rw [hj, hmine rfl j hj]

/-- The user calls `close` of a connection. -/
theorem closes_closePeer_user {callback : Option ServerCallback} (huser : callback ≠ some .closeConnection)
    (x : Option ℕ) : Closes s (s.closePeer id callback) x := by
  rw [closePeer]
  split
  · exact .refl s x
  · next p hp =>
    obtain ⟨conn, handle, now, heq, -, -, hcallback, hcases⟩ := p.conn.close_cases p.handle callback
    have hset : Closes s (s.setPeer id ⟨conn, handle⟩) x :=
      .setPeer hp (fun hasked => absurd (hcallback.symm.trans hasked.2) huser) x
    rw [heq]
    cases now with
    | none => exact hset
    | some callback' =>
      cases callback' with
      | user => exact ⟨hset.asks, hset.calls⟩
      | closeConnection =>
        rcases hcases with ⟨-, -, hnow⟩ | ⟨-, -, hnow⟩
        · cases hnow
        · exact absurd hnow.symm huser

/-- **A call to `closeConnection`.** -/
theorem closes_closeConnection (h : Kept s) (name : Bytes) :
    Closes s (s.closeConnection name) (s.getConnnection name) := by
  rw [closeConnection]
  split
  · exact .refl s _
  · next id hid =>
    rw [hid, closePeer]
    split
    · exact .refl s _
    · next p hp =>
      obtain ⟨q, hq, rfl⟩ := h.found name id hid
      rw [hp, Option.some.injEq] at hq
      subst hq
      obtain ⟨conn, handle, now, heq, hname, -, -, -⟩ :=
        p.conn.close_cases p.handle (some .closeConnection)
      have hset : Closes s (s.setPeer id ⟨conn, handle⟩) (some id) := by
        refine ⟨fun j q hq hasked => ?_, .inl rfl⟩
        rw [getElem?_setPeer hp] at hq
        split at hq
        · next hj =>
          subst hj
          cases hq
          exact .inr (by rw [hname, hid])
        · exact .inl ⟨q, hq, hasked⟩
      rw [heq]
      cases now with
      | none => exact hset
      | some callback =>
        refine hset.trans (fun _ => rfl) rfl (closes_runCallback callback fun _ j hj => ?_)
          (evolves_runCallback _ _ _ _)
        have hj : s.getConnnection conn.name_ = some j := hj
        rw [hname, hid, Option.some.injEq] at hj
        exact hj.symm

theorem closes_onSocketClose (h : Kept s) (hp : s.peers[id]? = some p) :
    Closes s (s.onSocketClose id) (s.getConnnection p.conn.name_) := by
  rw [onSocketClose, hp]
  dsimp only
  split
  · exact closes_closeConnection h _
  · exact .refl s _

/-- The loop of `close` calls nobody: a connection that is in the map and watched is in use. -/
theorem closes_closeAll (h : Kept s) : Closes s s.closeAll none := by
  have hmem : ∀ connection ∈ s.connnections_.toList, s.getConnnection connection.1 = some connection.2 :=
    fun connection hc => Std.ExtTreeMap.mem_toList_iff_getElem?_eq_some.mp hc
  rw [closeAll]
  generalize s.connnections_.toList = connections at hmem
  induction connections generalizing s with
  | nil => exact .refl s none
  | cons connection connections ih =>
    have hfound := hmem connection List.mem_cons_self
    obtain ⟨p, hp, hname⟩ := h.found _ _ hfound
    have he := evolves_onSocketClose s connection.2
    have hrest : Closes (s.onSocketClose connection.2)
        (connections.foldl (fun s connection => s.onSocketClose connection.2) (s.onSocketClose connection.2))
        none := by
      refine ih (h.evolves he) fun c hc => ?_
      rw [he.lookup]
      exact hmem c (List.mem_cons_of_mem _ hc)
    have hfirst : Closes s (s.onSocketClose connection.2) none := by
      have hcloses := closes_onSocketClose h hp
      refine ⟨hcloses.asks, .inl ?_⟩
      by_cases hcallback : p.conn.onConnectCloseCallback_ = true
      · obtain ⟨p', -, -, heq⟩ :=
          onSocketClose_of_watched hp hcallback (h.watched _ p hp hcallback) (by rw [hname, hfound])
        rw [heq]
        rfl
      · rw [onSocketClose_of_not_watched hp hcallback]
    refine hfirst.trans he.lookup ?_ hrest (evolves_foldl _ _)
    rcases hfirst.calls with hsame | ⟨_, _, hnone, -⟩
    · exact hsame
    · cases hnone

/-- While libuv is closing a connection, its name is not that of another one in the map. -/
def Own (s : TcpServer) : Prop :=
  ∀ (id : ℕ) (p : Peer), s.peers[id]? = some p → Asked p →
    ∀ j, s.getConnnection p.conn.name_ = some j → j = id

/-- libuv has closed a handle. -/
theorem closes_CloseComplete (hown : Own s) (hp : s.peers[id]? = some p)
    (hclosing : p.handle.state = .closing) :
    Closes s ((s.setPeer id { p with handle.state := .closed }).CloseComplete id p.conn) (some id) := by
  have hset : Closes s (s.setPeer id { p with handle.state := .closed }) (some id) :=
    .setPeer hp (fun hasked => by cases hasked.1) _
  rw [CloseComplete]
  split
  · exact hset
  · next callback hcallback =>
    refine hset.trans (fun _ => rfl) rfl (closes_runCallback callback ?_) (evolves_runCallback _ _ _ _)
    rintro rfl j hj
    exact hown id p hp ⟨hclosing, hcallback⟩ j hj

/-- One connection changes, and then its close is asked for by its name. -/
theorem closes_setPeer_closeConnection (h : Kept s) (hp : s.peers[id]? = some p)
    (hpp' : PeerEvolves p p') (hasked : Asked p' → Asked p) :
    Closes s ((s.setPeer id p').closeConnection p.conn.name_) (s.getConnnection p.conn.name_) :=
  (Closes.setPeer hp hasked _).trans (fun _ => rfl) rfl
    (closes_closeConnection (h.evolves (.setPeer hp hpp')) p.conn.name_) (evolves_closeConnection _ _)

theorem closes_setPeer_onSocketClose (h : Kept s) (hp : s.peers[id]? = some p)
    (hpp' : PeerEvolves p p') (hasked : Asked p' → Asked p) :
    Closes s ((s.setPeer id p').onSocketClose id) (s.getConnnection p.conn.name_) := by
  have hp' : (s.setPeer id p').peers[id]? = some p' := by rw [getElem?_setPeer hp, if_pos rfl]
  have hcloses := closes_onSocketClose (h.evolves (.setPeer hp hpp')) hp'
  rw [hpp'.name] at hcloses
  exact (Closes.setPeer hp hasked _).trans (fun _ => rfl) rfl hcloses (evolves_onSocketClose _ _)

theorem closes_onMesageReceive (h : Kept s) (hp : s.peers[id]? = some p) (nread rst : ℤ) :
    Closes s (s.onMesageReceive id p nread rst) (s.getConnnection p.conn.name_) := by
  obtain ⟨status, handle, hstate, hcases⟩ := s.onMesageReceive_cases id p nread rst
  have hasked : Asked ⟨p.conn.setConnectStatus status, handle⟩ → Asked p :=
    fun hasked => ⟨hstate.symm.trans hasked.1, hasked.2⟩
  rcases hcases with heq | heq | heq
  · rw [heq]
    exact .refl s _
  · rw [heq]
    exact .setPeer hp hasked _
  · rw [heq]
    exact closes_setPeer_onSocketClose h hp (.of_eq rfl rfl hstate) hasked

/-- A write asks for a close only if it fails at once. -/
theorem closes_respond (h : Kept s) (hp : s.peers[id]? = some p) (rst : ℤ) :
    Closes s (s.respond id p rst) (s.getConnnection p.conn.name_) ∧
      ((p.conn.write p.handle rst).2 = none → (s.respond id p rst).returning = s.returning) := by
  have hasked : Asked ⟨p.conn, (p.conn.write p.handle rst).1⟩ → Asked p :=
    fun hasked => ⟨(p.conn.write_fst p.handle rst).symm.trans hasked.1, hasked.2⟩
  rw [TcpServer.respond]
  dsimp only
  split
  · exact ⟨.setPeer hp hasked _, fun _ => rfl⟩
  · next hnow =>
    refine ⟨?_, fun hnone => ?_⟩
    · exact closes_setPeer_closeConnection h hp (.of_eq rfl rfl (p.conn.write_fst p.handle rst)) hasked
    · rw [hnone] at hnow
      cases hnow

/-- **A step that leaves the map as it is** runs no close callback but that of its subject; and while
the user's close callback is running, none at all. -/
theorem closes_step (h : Kept s) (hown : Own s) {e : Event} (haccept : ∀ name, e ≠ .onAccept name)
    (hreturned : e ≠ .returned) (hok : s.Considerate e) (hmoves : s.Moves e s') :
    Closes s s' (s.subject e) ∧ (s.returning = [] ∨ s'.returning = s.returning) := by
  cases hmoves with
  | onAccept hidle => exact absurd rfl (haccept _)
  | returned hreturning => exact absurd rfl hreturned
  | @onMesageReceive id p nread rst hp hidle hopen hreading =>
    refine ⟨?_, .inl hidle⟩
    have hsubject : s.subject (.onMesageReceive id nread rst) = s.getConnnection p.conn.name_ := by
      simp [subject, hp]
    rw [hsubject]
    exact closes_onMesageReceive h hp nread rst
  | @shutdown id p hp hidle hopen hpos =>
    refine ⟨?_, .inl hidle⟩
    have hsubject : s.subject (.shutdown id) = s.getConnnection p.conn.name_ := by simp [subject, hp]
    rw [hsubject]
    exact closes_setPeer_onSocketClose h hp (.of_eq rfl rfl rfl) fun hasked => hasked
  | expire id hidle =>
    refine ⟨?_, .inl hidle⟩
    cases hp : s.peers[id]? with
    | none =>
      rw [onSocketClose, hp]
      exact .refl s _
    | some p =>
      have hsubject : s.subject (.expire id) = s.getConnnection p.conn.name_ := by simp [subject, hp]
      rw [hsubject]
      exact closes_onSocketClose h hp
  | expire_gone id hidle => exact ⟨.refl s _, .inl hidle⟩
  | @respond id p rst hp =>
    have hsubject : s.subject (.respond id rst) = s.getConnnection p.conn.name_ := by simp [subject, hp]
    have hidle : s.returning = [] ∨ (p.conn.write p.handle rst).2 = none := by
      simpa [Considerate, hp] using hok
    rw [hsubject]
    obtain ⟨hcloses, hquiet⟩ := closes_respond h hp rst
    exact ⟨hcloses, hidle.imp_right hquiet⟩
  | @written id p hp hidle hopen hpos =>
    refine ⟨?_, .inl hidle⟩
    have hsubject : s.subject (.written id) = s.getConnnection p.conn.name_ := by simp [subject, hp]
    rw [hsubject]
    exact closes_setPeer_closeConnection h hp (.of_eq rfl rfl rfl) fun hasked => hasked
  | closeConnection name =>
    exact ⟨closes_closeConnection h name, .inl (by simpa [Considerate] using hok)⟩
  | closePeer id callback =>
    have hcloses : Closes s (s.closePeer id (if callback then some .user else none)) none := by
      apply closes_closePeer_user
      cases callback <;> simp
    refine ⟨hcloses, .inr ?_⟩
    rcases hcloses.calls with hsame | ⟨_, _, hnone, -⟩
    · exact hsame
    · cases hnone
  | close hidle => exact ⟨closes_closeAll h, .inl hidle⟩
  | closed hp hidle hclosing _ _ => exact ⟨closes_CloseComplete hown hp hclosing, .inl hidle⟩

/-! ### Once for each connection -/

/-- What holds of a server and its notifications. -/
structure Noticed (s : TcpServer) (notices : List (Option ℕ × ℕ)) : Prop extends Kept s where
  /-- What is being closed is alone with its name. -/
  own : Own s
  /-- There is no more than one notification of a connection. -/
  once : (notices.map Prod.snd).Nodup
  /-- It is of the connection whose close callback was run. -/
  right : ∀ x ∈ notices, x.1 = some x.2
  /-- The connection is not in the map, or it is about to be erased. -/
  gone : ∀ x ∈ notices, ∀ name, s.getConnnection name = some x.2 → name ∈ s.returning
  /-- It has been accepted. -/
  old : ∀ x ∈ notices, x.2 < s.peers.length

variable {notices : List (Option ℕ × ℕ)}

theorem called_of_eq (h : s'.returning = s.returning) : called s s' = [] := by
  simp [called, h]

theorem called_of_cons (h : s'.returning = name :: s.returning) (hid : s'.getConnnection name = some id) :
    called s s' = [id] := by
  simp [called, h, hid]

theorem Noticed.onAccept (h : Noticed s notices) (hok : s.Considerate (.onAccept name)) :
    Noticed (s.onAccept name) notices := by
  have hlookup : ∀ name' j, (s.onAccept name).getConnnection name' = some j →
      s.getConnnection name' = some j ∨ name = name' ∧ j = s.peers.length := by
    intro name' j hj
    rw [getConnnection_onAccept] at hj
    split at hj
    · next hnew =>
      cases hj
      exact .inr ⟨hnew.1, rfl⟩
    · exact .inl hj
  refine ⟨h.toKept.onAccept name, ?_, h.once, h.right, ?_, ?_⟩
  · intro id p hp hasked j hj
    rcases getElem?_onAccept s name hp with hold | ⟨-, hopen, -⟩
    · rcases hlookup _ _ hj with hj | ⟨rfl, -⟩
      · exact h.own id p hold hasked j hj
      · have hclosed : p.handle.state = .closed := by
          simpa [Considerate] using List.all_eq_true.mp hok p (List.mem_of_getElem? hold)
        rw [hasked.1] at hclosed
        cases hclosed
    · rw [hasked.1] at hopen
      cases hopen
  · intro x hx name' hname'
    rcases hlookup _ _ hname' with hold | ⟨-, hnew⟩
    · exact h.gone x hx name' hold
    · have hlt := h.old x hx
      omega
  · intro x hx
    have hlt := h.old x hx
    have hlength : (s.onAccept name).peers.length = s.peers.length + 1 := List.length_append
    omega

theorem Noticed.removeConnnection (h : Noticed s notices) {returning : List Bytes}
    (hreturning : s.returning = name :: returning) :
    Noticed ({ s with returning }.removeConnnection name) notices := by
  refine ⟨h.toKept.removeConnnection returning name, ?_, h.once, h.right, ?_, h.old⟩
  · intro id p hp hasked j hj
    rw [getConnnection_removeConnnection] at hj
    split at hj
    · cases hj
    · exact h.own id p hp hasked j hj
  · intro x hx name' hname'
    rw [getConnnection_removeConnnection] at hname'
    split at hname'
    · cases hname'
    · next hne =>
      have hmem := h.gone x hx name' hname'
      rw [hreturning] at hmem
      exact (List.mem_cons.mp hmem).resolve_left (Ne.symm hne)

theorem Own.closes (h : Own s) (he : Evolves s s') {x : Option ℕ} (hcloses : Closes s s' x) : Own s' := by
  intro id p' hp' hasked j hj
  obtain ⟨p, hp, hpp'⟩ := he.peer id p' hp'
  rw [he.lookup] at hj
  rcases hcloses.asks id p' hp' hasked with ⟨q, hq, hasked'⟩ | hmine
  · rw [hp, Option.some.injEq] at hq
    subst hq
    rw [hpp'.name] at hj
    exact h id p hp hasked' j hj
  · rw [hmine, Option.some.injEq] at hj
    exact hj.symm

/-- The user is not called. -/
theorem Noticed.quiet (h : Noticed s notices) (he : Evolves s s') (hown : Own s')
    (hsame : s'.returning = s.returning) : Noticed s' notices := by
  refine ⟨h.toKept.evolves he, hown, h.once, h.right, fun x hx name hname => ?_, fun x hx => ?_⟩
  · rw [hsame]
    rw [he.lookup] at hname
    exact h.gone x hx name hname
  · rw [he.length]
    exact h.old x hx

/-- Nobody has been called with what is in the map. -/
theorem Noticed.not_noticed (h : Noticed s notices) (hidle : s.returning = []) {x : Option ℕ × ℕ}
    (hx : x ∈ notices) (name : Bytes) : s.getConnnection name ≠ some x.2 := by
  intro hname
  have hmem := h.gone x hx name hname
  rw [hidle] at hmem
  cases hmem

/-- The user is called with a connection of the map. -/
theorem Noticed.notify (h : Noticed s notices) (he : Evolves s s') (hown : Own s')
    (hidle : s.returning = []) (hpush : s'.returning = name :: s.returning)
    (hid : s.getConnnection name = some id) : Noticed s' (notices ++ [(some id, id)]) := by
  refine ⟨h.toKept.evolves he, hown, ?_, ?_, ?_, ?_⟩
  · rw [List.map_append, List.nodup_append]
    refine ⟨h.once, List.nodup_singleton _, fun a ha b hb heq => ?_⟩
    obtain ⟨x, hx, rfl⟩ := List.mem_map.mp ha
    rw [List.map_singleton, List.mem_singleton] at hb
    exact h.not_noticed hidle hx name (by rw [hid, heq, hb])
  · intro x hx
    rcases List.mem_append.mp hx with hx | hx
    · exact h.right x hx
    · rw [List.mem_singleton.mp hx]
  · intro x hx name' hname'
    rw [he.lookup] at hname'
    rcases List.mem_append.mp hx with hx | hx
    · exact absurd hname' (h.not_noticed hidle hx name')
    · rw [List.mem_singleton.mp hx] at hname'
      obtain ⟨p, hp, rfl⟩ := h.found name id hid
      obtain ⟨q, hq, rfl⟩ := h.found name' id hname'
      rw [hp, Option.some.injEq] at hq
      rw [hpush, hq]
      exact List.mem_cons_self
  · intro x hx
    rw [he.length]
    rcases List.mem_append.mp hx with hx | hx
    · exact h.old x hx
    · rw [List.mem_singleton.mp hx]
      exact h.toKept.lt hid

/-- A step that leaves the map as it is. -/
theorem Noticed.closes (h : Noticed s notices) (he : Evolves s s') {x : Option ℕ} (hcloses : Closes s s' x)
    (hidle : s.returning = [] ∨ s'.returning = s.returning) :
    Noticed s' (notices ++ (called s s').map fun id => (x, id)) := by
  have hown := h.own.closes he hcloses
  have hquiet (hsame : s'.returning = s.returning) :
      Noticed s' (notices ++ (called s s').map fun id => (x, id)) := by
    rw [called_of_eq hsame, List.map_nil, List.append_nil]
    exact h.quiet he hown hsame
  rcases hcloses.calls with hsame | ⟨id, name, rfl, hpush, hid⟩
  · exact hquiet hsame
  · rcases hidle with hidle | hsame
    · rw [called_of_cons hpush (by rw [he.lookup, hid]), List.map_singleton]
      exact h.notify he hown hidle hpush hid
    · exact hquiet hsame

/-- **The step lemma.** -/
theorem Noticed.step {x x' : TcpServer × List (Option ℕ × ℕ)} (h : Noticed x.1 x.2) {e : Event}
    (hok : x.1.Considerate e) (hstep : noticeStep x e = some x') : Noticed x'.1 x'.2 := by
  rw [noticeStep, Option.map_eq_some_iff] at hstep
  obtain ⟨s', hstep, rfl⟩ := hstep
  rcases h.toKept.step_cases hstep with ⟨name, rfl, -, rfl⟩ | ⟨name, returning, rfl, hreturning, rfl⟩ |
    ⟨haccept, hreturned, hstep, he⟩
  · have hnone : called x.1 (x.1.onAccept name) = [] := called_of_eq rfl
    rw [hnone, List.map_nil, List.append_nil]
    exact h.onAccept hok
  · have hnone : called x.1 ({ x.1 with returning }.removeConnnection name) = [] := by
      have hlength : ({ x.1 with returning }.removeConnnection name).returning.length - x.1.returning.length = 0 := by
        simp [TcpServer.removeConnnection, hreturning]
      rw [called, hlength]
      rfl
    rw [hnone, List.map_nil, List.append_nil]
    exact h.removeConnnection hreturning
  · obtain ⟨hcloses, hidle⟩ := closes_step h.toKept h.own haccept hreturned hok hstep
    exact h.closes he hcloses hidle

theorem Noticed.new : Noticed TcpServer.new [] :=
  ⟨.new, fun id p hp => (by cases hp), List.nodup_nil, fun x hx => (by cases hx), fun x hx => (by cases hx),
    fun x hx => by cases hx⟩

/-- A server with its notices. -/
def Followed (x : TcpServer × List (Option ℕ × ℕ)) : Prop := Noticed x.1 x.2

/-- What is left of a run with notices is a run of the server. -/
theorem stepReused_of_noticeStep {x x' : TcpServer × List (Option ℕ × ℕ)} {e : Event}
    (h : noticeStep x e = some x') : x.1.stepReused e = some x'.1 := by
  obtain ⟨s', hs', rfl⟩ := Option.map_eq_some_iff.mp h
  exact hs'

/-- **One close notification for each connection**, and of that connection, and when the user's close
callback has returned, the connection is not in the map; in every run whose steps meet the condition. And
no step faults. -/
theorem notified_once {events : List Event}
    (hrun : Run (fun x e x' => x.1.Considerate e = true ∧ x.1.Met e ∧ noticeStep x e = some x') (new, []) events
      (s, notices)) :
    ((notices.map Prod.snd).Nodup ∧ (∀ x ∈ notices, x.1 = some x.2) ∧
      (s.returning = [] → ∀ x ∈ notices, ∀ name, s.getConnnection name ≠ some x.2)) ∧
      ∀ e x, s.outcomeReused e = some x → Exec.Returns x := by
  have h : Followed (s, notices) :=
    hrun.invariant Noticed.new fun x _ _ (h : Noticed x.1 x.2) hstep => h.step hstep.1 hstep.2.2
  have hinv : s.Inv :=
    @Run.invariant _ _ _ _ _ _ (fun x => x.1.Inv) hrun Inv.new fun _ _ _ hinv hstep =>
      hstep.2.1.inv hinv (stepReused_of_noticeStep hstep.2.2)
  refine ⟨⟨h.once, h.right, fun hidle x hx name hname => ?_⟩, fun e x => hinv.safe_reused⟩
  have hmem := h.gone x hx name hname
  rw [hidle] at hmem
  cases hmem

/-- A connection is closed, and then the peer comes back and goes away. -/
def twiceEvents : List Event :=
  [.onAccept [97], .closeConnection [97], .closed 0, .returned, .closeConnection [97], .onAccept [97],
    .onMesageReceive 1 UV_EOF 0, .shutdown 1, .closed 1, .returned]

/-- A step that meets the condition. -/
def metStep (x : TcpServer × List (Option ℕ × ℕ)) (e : Event) : Option (TcpServer × List (Option ℕ × ℕ)) :=
  if x.1.Considerate e = true ∧ x.1.Met e then noticeStep x e else none

theorem notified_once_sample : ∃ s : TcpServer, ∃ notices, notices = [(some 0, 0), (some 1, 1)] ∧
    (notices.map Prod.snd).Nodup ∧ ∀ x ∈ notices, ∀ name, s.getConnnection name ≠ some x.2 := by
  obtain ⟨⟨s, notices⟩, hs⟩ := Option.isSome_iff_exists.mp
    (show (twiceEvents.foldlM metStep (new, [])).isSome from by decide +kernel)
  have hfacts : (twiceEvents.foldlM metStep (new, [])).map (fun x => (x.2, x.1.returning)) =
      some ([(some 0, 0), (some 1, 1)], []) := by decide +kernel
  rw [hs, Option.map_some, Option.some.injEq, Prod.mk.injEq] at hfacts
  have hrun : Run (fun x e x' => x.1.Considerate e = true ∧ x.1.Met e ∧ noticeStep x e = some x') (new, [])
      twiceEvents (s, notices) := by
    refine (Run.of_foldlM hs).mono fun x e x' hstep => ?_
    rw [metStep, Option.ite_none_right_eq_some] at hstep
    exact ⟨hstep.1.1, hstep.1.2, hstep.2⟩
  obtain ⟨⟨honce, -, hgone⟩, -⟩ := notified_once hrun
  exact ⟨s, notices, hfacts.1, honce, hgone hfacts.2⟩

/-- A connection is closed twice before libuv is done. -/
def earlyEvents : List Event := [.onAccept [97], .closeConnection [97], .closeConnection [97], .returned]

/-- A step that the user may take. -/
def considerateStep (x : TcpServer × List (Option ℕ × ℕ)) (e : Event) :
    Option (TcpServer × List (Option ℕ × ℕ)) :=
  if x.1.Considerate e then noticeStep x e else none

/-- **A connection that is closed twice is destroyed before libuv calls back for it.** -/
theorem not_notified_once : ∃ s : TcpServer, ∃ notices,
    Run (fun x e x' => x.1.Considerate e = true ∧ noticeStep x e = some x') (new, []) earlyEvents (s, notices) ∧
      s.stateOf 0 = some .closing ∧ s.outcomeReused (.closed 0) = some (.error .undefined) ∧
      ¬ ∀ e x, s.outcomeReused e = some x → Exec.Returns x := by
  obtain ⟨⟨s, notices⟩, hs⟩ := Option.isSome_iff_exists.mp
    (show (earlyEvents.foldlM considerateStep (new, [])).isSome from by decide +kernel)
  have hfacts : (earlyEvents.foldlM considerateStep (new, [])).map (fun x => (x.1.stateOf 0,
      Exec.faultOf (x.1.outcomeReused (.closed 0)))) = some (some .closing, some .undefined) := by decide +kernel
  rw [hs, Option.map_some, Option.some.injEq, Prod.mk.injEq, Exec.faultOf_eq_some_iff] at hfacts
  obtain ⟨hclosing, hfault⟩ := hfacts
  refine ⟨s, notices, (Run.of_foldlM hs).mono fun x e x' hstep => ?_, hclosing, hfault, fun hsafe => ?_⟩
  · simpa [considerateStep] using hstep
  · obtain ⟨s', hs'⟩ := hsafe _ _ hfault
    cases hs'

end UvCpp.TcpServer
