import UvCpp.Loop.TimerWheel
import UvCpp.Tcp.Registry

/-!
# The heartbeat of a server

A server with a timeout keeps a wrapper for each connection in a timer wheel, and puts it in again
with every message. The wrapper knows the connection by a weak pointer; when the wheel drops its
last reference to the wrapper, the connection is told that its socket has closed.

So a connection is closed at the tick that completes the timeout since its latest message, and at
no other (`closed_at_timeout`).
-/

namespace UvCpp

open UvCpp.Cpp UvCpp.Systems

namespace TcpServer

variable {s s' : TcpServer} {id : ℕ} {p p' : Peer}

/-- The wheel drops its last references to wrappers; `conn` is the connection of a wrapper. -/
def dropWrappers {α : Type} (s : TcpServer) (conn : α → ℕ) (dropped : List α) : TcpServer :=
  dropped.foldl (fun s v => s.dropWrapper (conn v)) s

theorem evolves_dropWrapper (s : TcpServer) (id : ℕ) : Evolves s (s.dropWrapper id) := by
  rcases s.dropWrapper_cases id with heq | heq
  · rw [heq]
    exact evolves_onSocketClose s id
  · rw [heq]
    exact .refl s

/-- A wrapper's end closes its connection, if that is watched and in the map, and changes nothing
else. -/
theorem Kept.dropWrapper_cases (h : Kept s) (j : ℕ) : s.dropWrapper j = s ∨ ∃ q q' : Peer,
    s.peers[j]? = some q ∧ q.conn.onConnectCloseCallback_ = true ∧ q'.handle.state = .closing ∧
      s.dropWrapper j = s.setPeer j q' := by
  rw [dropWrapper]
  split
  · next q hq =>
    split
    · next hmine =>
      by_cases hcallback : q.conn.onConnectCloseCallback_ = true
      · obtain ⟨q', hclosing, -, heq⟩ :=
          onSocketClose_of_watched hq hcallback (h.watched j q hq hcallback) hmine
        exact .inr ⟨q, q', hq, hcallback, hclosing, heq⟩
      · exact .inl (onSocketClose_of_not_watched hq hcallback)
    · exact .inl rfl
  · exact .inl rfl

theorem Kept.getElem?_dropWrapper (h : Kept s) (hp : s.peers[id]? = some p) {j : ℕ}
    (hother : j ≠ id ∨ p.handle.state ≠ .inUse) : (s.dropWrapper j).peers[id]? = some p := by
  rcases h.dropWrapper_cases j with heq | ⟨q, q', hq, hcallback, -, heq⟩
  · rw [heq, hp]
  · rw [heq, getElem?_setPeer hq]
    split
    · next hj =>
      subst hj
      rw [hp, Option.some.injEq] at hq
      subst hq
      exact absurd (h.watched j p hp hcallback) (hother.resolve_left (fun hne => hne rfl))
    · exact hp

/-- A connection that is not in use, or none of whose wrappers ends, stays as it is. -/
theorem Kept.getElem?_dropWrappers {α : Type} (h : Kept s) (hp : s.peers[id]? = some p) {conn : α → ℕ}
    {dropped : List α} (hother : (∀ v ∈ dropped, conn v ≠ id) ∨ p.handle.state ≠ .inUse) :
    (s.dropWrappers conn dropped).peers[id]? = some p := by
  induction dropped generalizing s with
  | nil => exact hp
  | cons v dropped ih =>
    apply ih (h.evolves (evolves_dropWrapper s (conn v)))
    · exact h.getElem?_dropWrapper hp (hother.imp_left fun hne => hne v List.mem_cons_self)
    · exact hother.imp_left fun hne u hu => hne u (List.mem_cons_of_mem v hu)

/-- A watched connection of the map is closed exactly when one of its wrappers ends. -/
theorem Kept.stateOf_dropWrappers_iff {α : Type} (h : Kept s) (hp : s.peers[id]? = some p)
    (hcallback : p.conn.onConnectCloseCallback_ = true) (hmine : s.getConnnection p.conn.name_ = some id)
    (conn : α → ℕ) (dropped : List α) :
    (s.dropWrappers conn dropped).stateOf id = some .closing ↔ ∃ v ∈ dropped, conn v = id := by
  have hopen := h.watched id p hp hcallback
  constructor
  · intro hclosing
    by_contra hnone
    have hsame : (s.dropWrappers conn dropped).peers[id]? = some p :=
      h.getElem?_dropWrappers hp (.inl fun v hv heq => hnone ⟨v, hv, heq⟩)
    rw [stateOf_eq hsame, hopen] at hclosing
    cases hclosing
  · rintro ⟨v, hv, heq⟩
    induction dropped generalizing s with
    | nil => cases hv
    | cons u dropped ih =>
      have he := evolves_dropWrapper s (conn u)
      rw [dropWrappers, List.foldl_cons]
      by_cases hu : conn u = id
      · obtain ⟨p', hclosing, hclose⟩ := onSocketClose_of_watched hp hcallback hopen hmine
        have hnow : s.dropWrapper (conn u) = s.setPeer id p' := by
          simp [dropWrapper, hu, hp, hmine, hclose]
        have hp' : (s.dropWrapper (conn u)).peers[id]? = some p' := by
          rw [hnow, getElem?_setPeer hp, if_pos rfl]
        have hlater : ((s.dropWrapper (conn u)).dropWrappers conn dropped).peers[id]? = some p' :=
          (h.evolves he).getElem?_dropWrappers hp' (.inr (by simp [hclosing]))
        exact (stateOf_eq hlater).trans (congrArg some hclosing)
      · have hrest : v ∈ dropped := by
          rcases List.mem_cons.mp hv with rfl | hv
          · exact absurd heq hu
          · exact hv
        exact ih (h.evolves he) (h.getElem?_dropWrapper hp (.inl hu)) (by rw [he.lookup, hmine]) hrest

end TcpServer

namespace TimerWheel

variable {α : Type} [LinearOrder α]

/-- **The window of the timer wheel.** A started wheel holds what has been inserted within the
timeout; and a tick closes a connection with a wrapper if it is the one that completes the timeout
since the latest insert of the wrapper. -/
theorem closed_at_timeout {timeout : UInt32} (hpos : timeout ≠ 0) (beats : List (Beat α)) : ∃ w deads,
    runAll step (started timeout) (beats.map Beat.call) = .ok (w, deads) ∧
      (∀ v, w.Holds v ↔ ∃ k, age v beats = some k ∧ k < timeout.toNat) ∧
      ∃ w' dropped, w.wheelCallback = .ok (w', dropped) ∧
        (∀ v, v ∈ dropped ↔ age v beats = some (timeout.toNat - 1)) ∧
        ∀ (conn : α → ℕ), Function.Injective conn → ∀ (events : List TcpServer.Event) (s : TcpServer),
          Run (fun s e s' => s.stepReused e = some s') .new events s →
          ∀ v p, s.peers[conn v]? = some p → p.conn.onConnectCloseCallback_ = true →
            s.getConnnection p.conn.name_ = some (conn v) →
            ((s.dropWrappers conn dropped).stateOf (conn v) = some .closing ↔
              age v beats = some (timeout.toNat - 1)) := by
  obtain ⟨w, deads, hrun, h⟩ := turning_of_run hpos beats
  obtain ⟨w', dropped, htick, -, hdropped⟩ := h.dropped_iff
  refine ⟨w, deads, hrun, h.holds_iff, w', dropped, htick, hdropped, ?_⟩
  intro conn hconn events s hserver v p hp hcallback hmine
  have hkept : s.Kept := hserver.invariant .new fun _ _ _ h hstep => h.step hstep
  rw [hkept.stateOf_dropWrappers_iff hp hcallback hmine, ← hdropped]
  constructor
  · rintro ⟨u, hu, heq⟩
    rwa [← hconn heq]
  · intro hv
    exact ⟨v, hv, rfl⟩

/-- Two seconds, and the second tick since the wrapper of the first connection was inserted. -/
theorem closed_at_timeout_sample : ∃ (w w' : TimerWheel ℕ) (dropped : List ℕ), w.Holds 0 ∧
    w.wheelCallback = .ok (w', dropped) ∧
      ((TcpServer.new.onAccept [97]).dropWrappers (fun id => id) dropped).stateOf 0 = some .closing := by
  obtain ⟨w, -, -, hholds, w', dropped, htick, -, hclosed⟩ :=
    closed_at_timeout (show (2 : UInt32) ≠ 0 by decide) [.insert (some 0), .tick]
  refine ⟨w, w', dropped, (hholds 0).mpr ⟨1, rfl, by decide⟩, htick, ?_⟩
  have hrun : Run (fun s e s' => TcpServer.stepReused s e = some s') TcpServer.new [.onAccept [97]]
      (TcpServer.new.onAccept [97]) :=
    (Run.nil TcpServer.new).snoc (a := TcpServer.Event.onAccept [97]) rfl
  exact (hclosed (fun id => id) (fun _ _ h => h) _ _ hrun 0 _ rfl rfl (by decide +kernel)).mpr rfl

end TimerWheel

end UvCpp
