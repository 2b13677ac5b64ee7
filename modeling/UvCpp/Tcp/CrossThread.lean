import UvCpp.Loop.EventLoop
import UvCpp.Tcp.TcpConnection
import UvCpp.Packet.Stream
import UvCpp.Systems.Ring

/-!
# Packets from other threads

Any thread may write to a connection with `writeInLoop`: on the thread of the loop, and when the loop has
stopped, the write is done at once; otherwise it is queued until the loop comes to it. The peer reads
packets from what arrives. `CrossThread` is the loop with its threads, the connection, what is under way,
and the peer. When the loop has stopped, only the thread that ran it writes.

The peer reads the packets that have been written, from the first one on, each whole and once; those that
were queued have been written in the order in which they were queued. While the connection stands, none
is missing when everything has arrived (`crosses`).
-/

namespace UvCpp

open UvCpp.Cpp UvCpp.Buffer UvCpp.Systems

/-- `UV_EBADF`. -/
def UV_EBADF : ℤ := -9

/-- `uv_write`: a handle that is in use takes what is written. -/
def UvTcp.uv_write (h : UvTcp) : ℤ := if h.state = .inUse then 0 else UV_EBADF

/-- What the function holds that `writeInLoop` hands to the loop: the bytes of a packet, and whether there
is a callback. -/
structure PacketWrite (c : Packet.Settings) where
  /-- The packet. -/
  packet : Packet
  /-- It can be read back. -/
  good : Packet.Good c packet
  /-- Whether there is a callback. -/
  callback : Bool
  deriving DecidableEq

/-- A loop, one of its connections with close callbacks in `κ`, and the peer. -/
structure CrossThread (c : Packet.Settings) (τ κ β : Type) where
  /-- The loop of the connection. -/
  loop_ : EventLoop τ (PacketWrite c)
  /-- The connection and its handle; `none` when it has been destroyed. -/
  connection : Option (TcpConnection κ × UvTcp)
  /-- What libuv has accepted and has not arrived. What a broken connection loses never arrives. -/
  toPeer : Bytes
  /-- The packet buffer of the peer. -/
  peer : β
  /-- The packets the peer has read. -/
  received : List Packet

namespace CrossThread

variable {c : Packet.Settings} {τ κ β : Type}

/-- A connection that has just been made. -/
def new (name : Bytes) (peer : β) : CrossThread c τ κ β :=
  ⟨.new, some (.new name, UvTcp.init.uv_read_start), [], peer, []⟩

/-- `TcpConnection::write`. -/
def write (s : CrossThread c τ κ β) (conn : TcpConnection κ) (h : UvTcp) (w : PacketWrite c) :
    CrossThread c τ κ β :=
  match conn.write h h.uv_write with
  | (h, none) => { s with connection := some (conn, h), toPeer := s.toPeer ++ w.packet.Buffer }
  | (h, some _) => { s with connection := some (conn, h) }

/-- The function that `writeInLoop` hands to the loop, when it runs. When the connection has been destroyed
it calls the callback. -/
def runPosted (s : CrossThread c τ κ β) (w : PacketWrite c) : Exec (CrossThread c τ κ β) :=
  match s.connection with
  | some (conn, h) => .ok (s.write conn h w)
  | none => if w.callback then .ok s else .error .thrown

/-- Something becomes of the connection. -/
def change (s : CrossThread c τ κ β) (f : TcpConnection κ → UvTcp → TcpConnection κ × UvTcp) :
    CrossThread c τ κ β :=
  { s with connection := s.connection.map fun x => f x.1 x.2 }

/-- `onMesageReceive`, as far as the connection and its handle go. -/
def onMesageReceive (nread : ℤ) (conn : TcpConnection κ) (h : UvTcp) : TcpConnection κ × UvTcp :=
  match conn.onMesageReceive nread with
  | (conn, .shutdown) => (conn, { h.uv_read_stop with shutdowns := h.shutdowns + 1 })
  | (conn, .socketClose) => (conn, h.uv_read_stop)
  | (conn, _) => (conn, h)

/-- `TcpConnection::close`. -/
def close (callback : Option κ) (conn : TcpConnection κ) (h : UvTcp) : TcpConnection κ × UvTcp :=
  ((conn.close h callback).1, (conn.close h callback).2.1)

/-- What happens. -/
inductive Event (c : Packet.Settings) (τ κ : Type) where
  /-- A step of the loop; its calls of `runInThisLoop` are those of `writeInLoop`. -/
  | loop (e : EventLoop.Event τ (PacketWrite c))
  /-- `write` is called on the thread of the loop. -/
  | write (t : τ) (w : PacketWrite c)
  /-- libuv calls back for a write. -/
  | written
  /-- libuv has read, or has failed to. -/
  | read (nread : ℤ)
  /-- libuv calls back for a shutdown. -/
  | shutdown
  /-- `close` is called. -/
  | close (callback : Option κ)
  /-- libuv has closed the handle. -/
  | closed
  /-- The last pointer to the connection is gone. -/
  | destroy
  /-- The next `n` bytes arrive. -/
  | arrive (n : ℕ)
  deriving DecidableEq

/-- The packet an event writes, or tries to write. -/
def Event.tried : Event c τ κ → Option Packet
  | .loop e => e.executed.map (·.packet)
  | .write _ w => some w.packet
  | _ => none

/-- The step of the loop an event is. -/
def Event.ofLoop : Event c τ κ → Option (EventLoop.Event τ (PacketWrite c))
  | .loop e => some e
  | _ => none

/-- The packet an event queues. -/
def Event.queued (e : Event c τ κ) : Option Packet :=
  (e.ofLoop.bind EventLoop.Event.ofAsync).bind fun a => a.pushed.map (·.packet)

/-- The packet an event takes from the queue. -/
def Event.dequeued (e : Event c τ κ) : Option Packet :=
  (e.ofLoop.bind EventLoop.Event.ofAsync).bind fun a => a.executed.map (·.packet)

/-- The peer is connected, and the handle is in use. -/
def Stands (s : CrossThread c τ κ β) : Prop :=
  ∃ conn h, s.connection = some (conn, h) ∧ conn.connected_ = true ∧ h.state = .inUse

section

variable [DecidableEq τ] [PacketBuffer β]

/-- The loop has taken a step; what it runs is a function of `writeInLoop`. -/
def loopStep (s : CrossThread c τ κ β) (e : EventLoop.Event τ (PacketWrite c)) (loop_ : EventLoop τ (PacketWrite c)) :
    Exec (CrossThread c τ κ β) :=
  match e.executed with
  | some w => runPosted { s with loop_ } w
  | none => .ok { s with loop_ }

/-- A step. -/
def step (s : CrossThread c τ κ β) : Event c τ κ → Exec (CrossThread c τ κ β)
  | .loop e =>
    match s.loop_.outcome e with
    | none => .error .undefined
    | some x => x >>= s.loopStep e
  | .write _ w =>
    match s.connection with
    | some (conn, h) => .ok (s.write conn h w)
    | none => .error .undefined
  | .written => .ok (s.change fun conn h => (conn, { h with writes := h.writes - 1 }))
  | .read nread => .ok (s.change (onMesageReceive nread))
  | .shutdown => .ok (s.change fun conn h => (conn, { h with shutdowns := h.shutdowns - 1 }))
  | .close callback => .ok (s.change (CrossThread.close callback))
  | .closed => .ok (s.change fun conn h => (conn, { h with state := .closed }))
  | .destroy =>
    -- libuv goes on with a handle that is not closed
    if s.connection.all fun x => x.2.state = .closed then .ok { s with connection := none }
    else .error .undefined
  | .arrive n => do
    let (peer, packets) ← Packet.receive c s.peer (s.toPeer.take n)
    .ok { s with peer, toPeer := s.toPeer.drop n, received := s.received ++ packets }

variable [LawfulPacketBuffer β]

open LawfulPacketBuffer

/-- What can happen: the loop can take the step, a connection that is used has not been destroyed, and the
peer has room for what arrives. libuv reads what is in use, and ends every shutdown and write before it
closes a handle. A write that is done at once is done on the thread that runs the loop, or has run it. -/
def Allows (s : CrossThread c τ κ β) : Event c τ κ → Prop
  | .loop (.runInThisLoop t w now) => (s.loop_.outcome (.runInThisLoop t w now)).isSome ∧ s.connection.isSome
  | .loop (.isStoped t w now) => (s.loop_.outcome (.isStoped t w now)).isSome ∧
      (now = true → s.loop_.loopThreadId_ = some t)
  | .loop e => (s.loop_.outcome e).isSome
  | .write t _ => s.loop_.isRunInLoopThread t ∧ s.loop_.Free t ∧ s.connection.isSome
  | .written => s.connection.any fun x => x.2.state ≠ .closed ∧ 0 < x.2.writes
  | .read _ => s.connection.any fun x => x.2.state = .inUse ∧ x.2.reading
  | .shutdown => s.connection.any fun x => x.2.state ≠ .closed ∧ 0 < x.2.shutdowns
  | .close _ | .destroy => s.connection.isSome
  | .closed => s.connection.any fun x => x.2.state = .closing ∧ x.2.shutdowns = 0 ∧ x.2.writes = 0
  | .arrive n => 0 < n ∧ n ≤ s.toPeer.length ∧ Fits β ((contents s.peer).length + n)

instance (s : CrossThread c τ κ β) (e : Event c τ κ) : Decidable (s.Allows e) :=
  match e with
  | .loop (.runInThisLoop _ _ _) | .loop (.isStoped _ _ _) => inferInstanceAs (Decidable (_ ∧ _))
  | .loop (.run t mode) => inferInstanceAs (Decidable ((s.loop_.outcome (.run t mode)).isSome = true))
  | .loop (.start t) => inferInstanceAs (Decidable ((s.loop_.outcome (.start t)).isSome = true))
  | .loop (.ended t) => inferInstanceAs (Decidable ((s.loop_.outcome (.ended t)).isSome = true))
  | .loop (.stop t) => inferInstanceAs (Decidable ((s.loop_.outcome (.stop t)).isSome = true))
  | .loop (.async a) => inferInstanceAs (Decidable ((s.loop_.outcome (.async a)).isSome = true))
  | .write _ _ | .arrive _ => inferInstanceAs (Decidable (_ ∧ _ ∧ _))
  | .written | .read _ | .shutdown | .close _ | .destroy | .closed => inferInstanceAs (Decidable (_ = true))

/-- What goes wrong: a thread uses the async handle of the loop too early or too late; the connection has been
destroyed, and the loop comes to a write without a callback; or the connection is destroyed and its handle is
not closed. -/
def Faulty (s : CrossThread c τ κ β) : Event c τ κ → Prop
  | .loop e => (∃ a, e.ofAsync = some a ∧ s.loop_.async_.Astray a) ∨
      s.connection = none ∧ ∃ w, e.executed = some w ∧ w.callback = false
  | .destroy => ∃ conn h, s.connection = some (conn, h) ∧ h.state ≠ .closed
  | _ => False

/-- What becomes of the packets. -/
structure Crosses (events : List (Event c τ κ)) (s : CrossThread c τ κ β) : Prop where
  /-- What can happen next faults in three cases, and no others. -/
  safe : ∀ e, s.Allows e → (Exec.Returns (s.step e) ↔ ¬ s.Faulty e)
  /-- The peer reads what has been written, in order. -/
  received : s.received <+: events.filterMap Event.tried
  /-- While the connection stands, nothing is lost. -/
  complete : s.Stands → s.toPeer = [] → s.received = events.filterMap Event.tried
  /-- What is queued is written in the order in which it was queued, or waits. -/
  queued : events.filterMap Event.queued =
    events.filterMap Event.dequeued ++ s.loop_.async_.waiting.map (·.packet)

end

/-! ### The connection -/

variable {s : CrossThread c τ κ β} {tried : List Packet}

/-- A write to a connection that stands is accepted, and no other is. -/
theorem write_cases (conn : TcpConnection κ) (h : UvTcp) :
    (conn.connected_ = true ∧ h.state = .inUse) ∧
        conn.write h h.uv_write = ({ h with writes := h.writes + 1 }, none) ∨
      ¬ (conn.connected_ = true ∧ h.state = .inUse) ∧ ∃ status, conn.write h h.uv_write = (h, some status) := by
  rw [TcpConnection.write]
  by_cases hconnected : conn.connected_ = true
  · rw [if_pos hconnected]
    by_cases hopen : h.state = .inUse
    · rw [UvTcp.uv_write, if_pos hopen, if_pos rfl]
      exact .inl ⟨⟨hconnected, hopen⟩, rfl⟩
    · rw [UvTcp.uv_write, if_neg hopen, if_neg (by decide)]
      exact .inr ⟨fun h => hopen h.2, _, rfl⟩
  · rw [if_neg hconnected]
    exact .inr ⟨fun h => hconnected h.1, _, rfl⟩

/-- What becomes of a connection does not set it up again. -/
structure Weakens (f : TcpConnection κ → UvTcp → TcpConnection κ × UvTcp) : Prop where
  /-- It is not connected again. -/
  connected : ∀ conn h, (f conn h).1.connected_ = true → conn.connected_ = true
  /-- The handle is not in use again. -/
  inUse : ∀ conn h, (f conn h).2.state = .inUse → h.state = .inUse

/-- What libuv counts of a handle, and what it has closed. -/
theorem weakens_handle {f : UvTcp → UvTcp} (hf : ∀ h, (f h).state = .inUse → h.state = .inUse) :
    Weakens (fun (conn : TcpConnection κ) h => (conn, f h)) :=
  ⟨fun _ _ hconnected => hconnected, fun _ h hopen => hf h hopen⟩

theorem weakens_onMesageReceive (nread : ℤ) : Weakens (onMesageReceive (κ := κ) nread) := by
  have hkept (conn : TcpConnection κ) (h : UvTcp) :
      (onMesageReceive nread conn h).1 = (conn.onMesageReceive nread).1 ∧
        (onMesageReceive nread conn h).2.state = h.state := by
    rw [onMesageReceive]
    split <;> next heq => exact ⟨by rw [heq], rfl⟩
  refine ⟨fun conn h hconnected => ?_, fun conn h hopen => (hkept conn h).2 ▸ hopen⟩
  rw [(hkept conn h).1, TcpConnection.onMesageReceive] at hconnected
  split at hconnected
  · exact hconnected
  · split at hconnected
    · cases hconnected
    · exact hconnected

theorem weakens_close (callback : Option κ) : Weakens (CrossThread.close callback) := by
  refine ⟨fun conn h hconnected => ?_, fun conn h hopen => ?_⟩
  · have hkept : (conn.close h callback).1.connected_ = conn.connected_ := by
      rw [TcpConnection.close]
      split <;> split <;> rfl
    exact hkept ▸ hconnected
  · obtain ⟨_, _, _, heq, -, -, -, ⟨huse, -, -⟩ | ⟨-, hstate, -⟩⟩ := conn.close_cases h callback
    · exact huse
    · rw [close, heq] at hopen
      exact hstate ▸ hopen

theorem Stands.of_change {f : TcpConnection κ → UvTcp → TcpConnection κ × UvTcp} (hf : Weakens f)
    (h : (s.change f).Stands) : s.Stands := by
  obtain ⟨conn, handle, hconnection, hconnected, hopen⟩ := h
  obtain ⟨⟨conn', handle'⟩, hsome, heq⟩ := Option.map_eq_some_iff.mp hconnection
  obtain ⟨rfl, rfl⟩ := Prod.mk.inj heq
  exact ⟨conn', handle', hsome, hf.connected _ _ hconnected, hf.inUse _ _ hopen⟩

/-! ### The invariant -/

section

variable [PacketBuffer β] [LawfulPacketBuffer β]

open LawfulPacketBuffer

/-- The packets that have been accepted are with the peer, or on their way to it: those written, and all of
them as long as the connection stands. -/
structure Inv (tried : List Packet) (s : CrossThread c τ κ β) : Prop where
  /-- The buffer of the peer is in order. -/
  peer : Valid s.peer
  /-- What is on its way. -/
  accepted : ∃ rest, Approaching Packet.Buffer (contents s.peer) s.toPeer rest ∧ s.received ++ rest <+: tried ∧
    (s.Stands → s.received ++ rest = tried)
  /-- The packets can be read back. -/
  good : ∀ p ∈ tried, Packet.Good c p

theorem Inv.new (name : Bytes) {peer : β} (hvalid : Valid peer) (hnil : contents peer = []) :
    Inv [] (new name peer : CrossThread c τ κ β) := by
  refine ⟨hvalid, ⟨[], ⟨?_, by simp⟩, List.prefix_rfl, fun _ => rfl⟩, by simp⟩
  exact (List.append_nil _).trans hnil

/-- A step that does nothing to the peer and to what is on its way. -/
theorem Inv.of_eq {s' : CrossThread c τ κ β} (h : Inv tried s) (hpeer : s'.peer = s.peer)
    (htoPeer : s'.toPeer = s.toPeer) (hreceived : s'.received = s.received) (hstands : s'.Stands → s.Stands) :
    Inv tried s' := by
  obtain ⟨hvalid, ⟨rest, happ, hwithin, hall⟩, hgood⟩ := h
  refine ⟨hpeer ▸ hvalid, ⟨rest, ?_, ?_, fun hs => ?_⟩, hgood⟩
  · rwa [hpeer, htoPeer]
  · rwa [hreceived]
  · rw [hreceived]
    exact hall (hstands hs)

theorem Inv.change (h : Inv tried s) {f : TcpConnection κ → UvTcp → TcpConnection κ × UvTcp} (hf : Weakens f) :
    Inv tried (s.change f) :=
  h.of_eq rfl rfl rfl (Stands.of_change hf)

/-- The packets that have been tried, with one more. -/
theorem Inv.good_concat (h : Inv tried s) (w : PacketWrite c) : ∀ p ∈ tried ++ [w.packet], Packet.Good c p := by
  intro p hp
  rcases List.mem_append.mp hp with hp | hp
  · exact h.good p hp
  · exact List.mem_singleton.mp hp ▸ w.good

/-- A write to a connection that does not stand. -/
theorem Inv.refused (h : Inv tried s) (hstands : ¬ s.Stands) (w : PacketWrite c) :
    Inv (tried ++ [w.packet]) s := by
  obtain ⟨rest, happ, hwithin, -⟩ := h.accepted
  exact ⟨h.peer, ⟨rest, happ, hwithin.trans (List.prefix_append _ _), fun hs => absurd hs hstands⟩, h.good_concat w⟩

/-- **A write**: the packet is on its way behind the others, or nothing will be any more. -/
theorem Inv.write (h : Inv tried s) {conn : TcpConnection κ} {handle : UvTcp}
    (hconnection : s.connection = some (conn, handle)) (w : PacketWrite c) :
    Inv (tried ++ [w.packet]) (s.write conn handle w) := by
  obtain ⟨hopen, hwrite⟩ | ⟨hclosed, status, hwrite⟩ := write_cases conn handle
  · obtain ⟨rest, happ, -, hall⟩ := h.accepted
    have hall := hall ⟨conn, handle, hconnection, hopen⟩
    rw [CrossThread.write, hwrite]
    refine ⟨h.peer, ⟨rest ++ [w.packet], ?_, ?_, fun _ => ?_⟩, h.good_concat w⟩
    · have hnew : ∀ p ∈ [w.packet], p.Buffer ≠ [] := fun p hp => List.mem_singleton.mp hp ▸ w.good.buffer_ne_nil
      have happ := happ.append hnew
      rwa [List.map_singleton, List.flatten_singleton] at happ
    · rw [← List.append_assoc, hall]
    · rw [← List.append_assoc, hall]
  · have hstands : ¬ s.Stands := by
      rintro ⟨conn', handle', hsome, hopen⟩
      obtain ⟨rfl, rfl⟩ := Prod.mk.inj (Option.some.inj (hconnection.symm.trans hsome))
      exact hclosed hopen
    have hsame : s.write conn handle w = s := by
      rw [CrossThread.write, hwrite]
      dsimp only
      rw [← hconnection]
    rw [hsame]
    exact h.refused hstands w

/-- **A chunk arrives**: the peer reads the packets that are whole. -/
theorem Inv.receive (h : Inv tried s) {n : ℕ} (hle : n ≤ s.toPeer.length)
    (hfit : Fits β ((contents s.peer).length + n)) :
    ∃ peer packets, Packet.receive c s.peer (s.toPeer.take n) = .ok (peer, packets) ∧
      Inv tried { s with peer, toPeer := s.toPeer.drop n, received := s.received ++ packets } := by
  obtain ⟨rest, happ, hwithin, hall⟩ := h.accepted
  have htext := happ.text
  rw [← List.take_append_drop n s.toPeer, ← List.append_assoc] at htext
  obtain ⟨packets, rest', r, rfl, hbefore, hafter, hshort⟩ := exists_split htext
  have htaken : Fits β ((contents s.peer).length + (s.toPeer.take n).length) := by
    rwa [List.length_take, Nat.min_eq_left hle]
  obtain ⟨b, happend, -, -⟩ := append_of_fits h.peer htaken
  have hgood : ∀ p ∈ packets ++ rest', Packet.Good c p :=
    fun p hp => h.good p (hwithin.subset (List.mem_append_right _ hp))
  obtain ⟨peer, hreceive, hpeer, rfl⟩ := Packet.receive_eq h.peer ⟨b, happend⟩ hgood hbefore
    (partial_of_split hafter hshort)
  refine ⟨peer, packets, hreceive, hpeer, ⟨rest', ⟨hafter, hshort⟩, ?_, fun hs => ?_⟩, h.good⟩
  · rwa [List.append_assoc]
  · rw [List.append_assoc]
    exact hall hs

/-- The function that a thread has handed to the loop runs. -/
theorem Inv.runPosted (h : Inv tried s) (w : PacketWrite c) (hpresent : s.connection = none → w.callback = true) :
    ∃ s', s.runPosted w = .ok s' ∧ Inv (tried ++ [w.packet]) s' := by
  cases hconnection : s.connection with
  | some x => exact ⟨_, by rw [CrossThread.runPosted, hconnection], h.write hconnection w⟩
  | none =>
    have hstands : ¬ s.Stands := by
      rintro ⟨conn, handle, hsome, -⟩
      rw [hconnection] at hsome
      cases hsome
    refine ⟨s, ?_, h.refused hstands w⟩
    rw [CrossThread.runPosted, hconnection]
    exact if_pos (hpresent hconnection)

end

/-! ### Steps -/

@[simp] theorem loop_write (s : CrossThread c τ κ β) (conn : TcpConnection κ) (h : UvTcp) (w : PacketWrite c) :
    (s.write conn h w).loop_ = s.loop_ := by
  rw [write]
  split <;> rfl

theorem loop_runPosted {s' : CrossThread c τ κ β} {w : PacketWrite c} (h : s.runPosted w = .ok s') :
    s'.loop_ = s.loop_ := by
  rw [runPosted] at h
  split at h
  · cases h
    exact loop_write _ _ _ _
  · split at h
    · cases h
      rfl
    · cases h

section

variable [DecidableEq τ] [PacketBuffer β]

/-- A step of the loop, if it can happen. -/
theorem step_loop {e : EventLoop.Event τ (PacketWrite c)} {x : Exec (EventLoop τ (PacketWrite c))}
    (hx : s.loop_.outcome e = some x) : s.step (.loop e : Event c τ κ) = x >>= s.loopStep e := by
  rw [step, hx]

/-- What a step does to the loop. -/
theorem loop_of_step {s' : CrossThread c τ κ β} {e : Event c τ κ} (h : s.step e = .ok s') :
    match e.ofLoop with
    | some a => s.loop_.step a = some s'.loop_
    | none => s'.loop_ = s.loop_ := by
  cases e with
  | loop e =>
    change s.loop_.step e = some s'.loop_
    rw [EventLoop.step_eq_some_iff]
    cases hx : s.loop_.outcome e with
    | none =>
      rw [step, hx] at h
      cases h
    | some x =>
      rw [step_loop hx] at h
      obtain ⟨l, rfl, h⟩ := Exec.bind_eq_ok_iff.mp h
      unfold loopStep at h
      split at h
      · rw [loop_runPosted h]
      · cases h
        rfl
  | write t w =>
    rw [step] at h
    split at h
    · cases h
      exact loop_write _ _ _ _
    · cases h
  | destroy =>
    rw [step] at h
    split at h
    · cases h
      rfl
    · cases h
  | arrive n =>
    obtain ⟨x, -, hx⟩ := Exec.bind_eq_ok_iff.mp h
    cases hx
    rfl
  | _ =>
    cases h
    rfl

variable [LawfulPacketBuffer β]

open LawfulPacketBuffer

/-- What can happen is a step of the loop, if it is one. -/
theorem Allows.outcome {e : EventLoop.Event τ (PacketWrite c)} (h : s.Allows (.loop e : Event c τ κ)) :
    ∃ x, s.loop_.outcome e = some x := by
  apply Option.isSome_iff_exists.mp
  cases e with
  | runInThisLoop t w now => exact h.1
  | isStoped t w now => exact h.1
  | _ => exact h

/-- The loop faults only where it uses the handle too early or too late. -/
def LoopFaults (s : CrossThread c τ κ β) : Prop := ∀ a x, s.loop_.outcome a = some x →
  (Exec.Returns x ↔ ∀ b, a.ofAsync = some b → ¬ s.loop_.async_.Astray b)

/-- **The step lemma.** -/
theorem Inv.step (h : Inv tried s) (hloop : s.LoopFaults) {e : Event c τ κ} (hallows : s.Allows e)
    (hgood : ¬ s.Faulty e) : ∃ s', s.step e = .ok s' ∧ Inv (tried ++ e.tried.toList) s' := by
  cases e with
  | loop e =>
    obtain ⟨x, hx⟩ := hallows.outcome
    obtain ⟨l, rfl⟩ := (hloop e x hx).mpr fun a ha hastray => hgood (.inl ⟨a, ha, hastray⟩)
    have hinv : Inv tried { s with loop_ := l } := h.of_eq rfl rfl rfl id
    rw [step_loop hx, Exec.ok_bind, loopStep]
    cases hexecuted : e.executed with
    | none =>
      refine ⟨_, rfl, ?_⟩
      rw [Event.tried, hexecuted]
      exact (List.append_nil tried).symm ▸ hinv
    | some w =>
      obtain ⟨s', hs', hinv⟩ := hinv.runPosted w fun hnone => by
        by_contra hcallback
        exact hgood (.inr ⟨hnone, w, hexecuted, Bool.not_eq_true _ ▸ hcallback⟩)
      refine ⟨s', hs', ?_⟩
      rw [Event.tried, hexecuted]
      exact hinv
  | write t w =>
    obtain ⟨⟨conn, handle⟩, hconnection⟩ := Option.isSome_iff_exists.mp hallows.2.2
    exact ⟨_, by rw [CrossThread.step, hconnection], h.write hconnection w⟩
  | arrive n =>
    obtain ⟨-, hle, hfit⟩ := hallows
    obtain ⟨peer, packets, hreceive, hinv⟩ := h.receive hle hfit
    refine ⟨_, by rw [CrossThread.step, hreceive]; rfl, ?_⟩
    exact (List.append_nil tried).symm ▸ hinv
  | written => exact ⟨_, rfl, (List.append_nil tried).symm ▸ h.change (weakens_handle fun _ hopen => hopen)⟩
  | read nread => exact ⟨_, rfl, (List.append_nil tried).symm ▸ h.change (weakens_onMesageReceive nread)⟩
  | shutdown => exact ⟨_, rfl, (List.append_nil tried).symm ▸ h.change (weakens_handle fun _ hopen => hopen)⟩
  | close callback => exact ⟨_, rfl, (List.append_nil tried).symm ▸ h.change (weakens_close callback)⟩
  | closed =>
    refine ⟨_, rfl, (List.append_nil tried).symm ▸ h.change (weakens_handle fun _ hopen => ?_)⟩
    cases hopen
  | destroy =>
    obtain ⟨⟨conn, handle⟩, hconnection⟩ := Option.isSome_iff_exists.mp hallows
    have hclosed : handle.state = .closed := by
      by_contra hopen
      exact hgood ⟨conn, handle, hconnection, hopen⟩
    refine ⟨_, by rw [CrossThread.step, hconnection]; exact if_pos (by simp [hclosed]), ?_⟩
    refine (List.append_nil tried).symm ▸ h.of_eq rfl rfl rfl ?_
    rintro ⟨_, _, hsome, -⟩
    cases hsome

/-- A step that faults. -/
theorem not_returns_of_faulty (hloop : s.LoopFaults) {e : Event c τ κ} (hallows : s.Allows e)
    (hfaulty : s.Faulty e) : ¬ Exec.Returns (s.step e) := by
  cases e with
  | loop e =>
    obtain ⟨x, hx⟩ := hallows.outcome
    rw [step_loop hx]
    rintro ⟨s', hs'⟩
    obtain ⟨l, rfl, hs'⟩ := Exec.bind_eq_ok_iff.mp hs'
    rcases hfaulty with ⟨a, ha, hastray⟩ | ⟨hnone, w, hexecuted, hcallback⟩
    · exact (hloop e _ hx).mp ⟨l, rfl⟩ a ha hastray
    · unfold loopStep at hs'
      simp [hexecuted, runPosted, hnone, hcallback] at hs'
  | destroy =>
    obtain ⟨conn, handle, hconnection, hopen⟩ := hfaulty
    rintro ⟨s', hs'⟩
    simp [step, hconnection, hopen] at hs'
  | _ => exact hfaulty.elim

/-- When a step that can happen does not fault. -/
theorem returns_iff (h : Inv tried s) (hloop : s.LoopFaults) {e : Event c τ κ} (hallows : s.Allows e) :
    Exec.Returns (s.step e) ↔ ¬ s.Faulty e := by
  refine ⟨fun hreturns hfaulty => not_returns_of_faulty hloop hallows hfaulty hreturns, fun hgood => ?_⟩
  obtain ⟨s', hs', -⟩ := h.step hloop hallows hgood
  exact ⟨s', hs'⟩

/-- The loop of a connection is a loop. -/
theorem loop_of_run {s₀ : CrossThread c τ κ β} {events : List (Event c τ κ)}
    (hrun : Run (Steps step Allows) s₀ events s) :
    Run (fun l a l' => EventLoop.step l a = some l') s₀.loop_ (events.filterMap Event.ofLoop) s.loop_ := by
  refine hrun.simulates loop_ Event.ofLoop ?_ ?_
  · intro s e s' a hstep ha
    have hloop := loop_of_step hstep.2
    rwa [ha] at hloop
  · intro s e s' hstep ha
    have hloop := loop_of_step hstep.2
    rw [ha] at hloop
    exact hloop.symm

/-- When a step of the loop faults. -/
theorem loopFaults_of_run {name : Bytes} {peer : β} {events : List (Event c τ κ)}
    (hrun : Run (Steps step Allows) (new name peer) events s) : s.LoopFaults :=
  fun _ _ hx => EventLoop.returns_iff (loop_of_run hrun) hx

theorem inv_of_run {name : Bytes} {peer : β} (hvalid : Valid peer) (hnil : contents peer = [])
    {events : List (Event c τ κ)} (hrun : Run (Steps step Allows) (new name peer) events s) :
    Inv (events.filterMap Event.tried) s := by
  induction hrun with
  | nil => exact .new name hvalid hnil
  | @snoc s s' events e hrun hstep ih =>
    have hloop := loopFaults_of_run hrun
    obtain ⟨t, ht, hinv⟩ := ih.step hloop hstep.1 ((returns_iff ih hloop hstep.1).mp ⟨s', hstep.2⟩)
    obtain rfl : t = s' := Except.ok.inj (ht.symm.trans hstep.2)
    rw [List.filterMap_append]
    cases htried : e.tried with
    | none => simpa [htried] using hinv
    | some p => simpa [htried] using hinv

/-- What has been queued has been taken from the queue, or waits. -/
theorem queued_eq {name : Bytes} {peer : β} {events : List (Event c τ κ)}
    (hrun : Run (Steps step Allows) (new name peer) events s) :
    events.filterMap Event.queued =
      events.filterMap Event.dequeued ++ s.loop_.async_.waiting.map (·.packet) := by
  have hpushed := AsyncSystem.pushed_eq (EventLoop.async_of_run (loop_of_run hrun))
  have hpackets := congrArg (List.map (·.packet)) hpushed
  rw [List.map_append, List.map_filterMap, List.map_filterMap] at hpackets
  simp only [List.filterMap_filterMap] at hpackets
  exact hpackets

/-- **What several threads write to a connection reaches the peer in whole packets and in order**, in every
run. -/
theorem crosses {name : Bytes} {peer : β} (hvalid : Valid peer) (hnil : contents peer = [])
    {events : List (Event c τ κ)} (hrun : Run (Steps step Allows) (new name peer) events s) :
    Crosses events s := by
  have h := inv_of_run hvalid hnil hrun
  obtain ⟨rest, happ, hwithin, hall⟩ := h.accepted
  refine ⟨fun e => returns_iff h (loopFaults_of_run hrun), ?_, fun hstands hnil => ?_, queued_eq hrun⟩
  · exact (List.prefix_append _ rest).trans hwithin
  · have hrest : rest = [] := by
      by_contra hne
      exact happ.rest_ne_nil hne hnil
    rw [← hall hstands, hrest, List.append_nil]

/-- A packet, without a callback. -/
def sampleWrite : PacketWrite Packet.Settings.initial :=
  ⟨⟨Packet.packed Packet.Settings.initial [104, 105], 2⟩, ⟨[104, 105], by decide, rfl⟩, false⟩

/-- The loop runs in one thread, another one writes a packet, and it arrives in two parts. -/
def sampleEvents : List (Event Packet.Settings.initial ℕ ℕ) :=
  [.loop (.run 0 .default), .loop (.async (.init 0)), .loop (.async (.asyncInit 0)), .loop (.async (.initSend 0)),
    .loop (.start 0), .loop (.runInThisLoop 1 (some sampleWrite) false), .loop (.isStoped 1 sampleWrite false),
    .loop (.async (.push 1 sampleWrite)), .loop (.async (.test 1)), .loop (.async (.send 1)),
    .loop (.async (.wake 0 2)), .loop (.async (.swap 0)), .loop (.async (.call 0 sampleWrite)),
    .loop (.async (.ret 0)), .arrive 4, .written, .arrive 2]

/-- A step, if it can happen and does not fault. -/
def next (s : CrossThread c τ κ β) (e : Event c τ κ) : Option (CrossThread c τ κ β) :=
  if s.Allows e then (s.step e).toOption else none

theorem run_of_foldlM {s₀ : CrossThread c τ κ β} {events : List (Event c τ κ)}
    (h : events.foldlM next s₀ = some s) : Run (Steps step Allows) s₀ events s := by
  refine (Run.of_foldlM h).mono fun s e s' hstep => ?_
  rw [next, Option.ite_none_right_eq_some] at hstep
  obtain ⟨hallows, hstep⟩ := hstep
  refine ⟨hallows, ?_⟩
  cases hs : s.step e with
  | ok t =>
    rw [hs] at hstep
    cases hstep
    rfl
  | error fault =>
    rw [hs] at hstep
    cases hstep

theorem crosses_sample : ∃ s : CrossThread Packet.Settings.initial ℕ ℕ ListBuffer,
    Crosses sampleEvents s ∧ s.received = [sampleWrite.packet] := by
  obtain ⟨s, hs⟩ := Option.isSome_iff_exists.mp (show (sampleEvents.foldlM next
    (new (bytes "127.0.0.1:10002") .new : CrossThread _ ℕ ℕ ListBuffer)).isSome from by decide +kernel)
  have hcrosses := crosses trivial rfl (run_of_foldlM hs)
  refine ⟨s, hcrosses, hcrosses.complete ?_ ?_⟩
  · cases hs
    exact ⟨_, _, rfl, rfl, rfl⟩
  · cases hs
    rfl

end

end CrossThread

end UvCpp
