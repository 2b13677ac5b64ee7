import UvCpp.Loop.Timer
import UvCpp.Tcp.Heartbeat

/-!
# How long a connection may be silent

A server that listens with a timeout starts the timer of its wheel, which expires every second or
later: the loop may be late. A connection puts its wrapper into the wheel when it is accepted and
when it is heard of; the wrapper it has put in before may be gone by then, and then it puts in
nothing (`getWrapper`).

`Heartbeats` is the server with its wheel, its timer and the clock. A connection that is silent for
less than the timeout but one second is not closed; one that is silent for the timeout, and as much
longer as the loop is late at each tick, is (`silent_for_timeout`). No step faults in a run in which no
close is asked for while libuv is closing the handle, and names do not come back too early (`Met`).
-/

namespace UvCpp

open UvCpp.Cpp UvCpp.Systems

variable {α : Type}

/-- A server that has been told to listen, with a timeout. -/
structure Heartbeats (α : Type) where
  /-- The clock of the loop. -/
  now : ℕ
  /-- The server. -/
  server : TcpServer
  /-- `timerWheel_`. -/
  timerWheel_ : TimerWheel α
  /-- `timer_` of the wheel. -/
  timer_ : Timer Unit
  /-- What has happened to the wheel. -/
  beats : List (TimerWheel.Beat α)
  /-- When each connection was accepted or heard of last. -/
  heard : List ℕ

namespace Heartbeats

variable [LinearOrder α]

/-- What happens. -/
inductive Event where
  /-- Time passes. -/
  | advance (ms : ℕ)
  /-- The timer of the wheel expires. -/
  | expire
  /-- Something happens to the server. -/
  | server (e : TcpServer.Event)

/-- `setTimeout`, and `bindAndListen`: the wheel is started, and its timer. -/
def bindAndListen (now : ℕ) (timeout : UInt32) : Exec (Heartbeats α) := do
  let timer : Timer Unit := .new 1000 1000 true
  let timer ← if timeout ≠ 0 then timer.start now else .ok timer
  .ok ⟨now, .new, .started timeout, timer, [], []⟩

/-- A call to the wheel, and what the wheel drops. -/
def beat (s : Heartbeats α) (b : TimerWheel.Beat α) : Exec (Heartbeats α × List α) := do
  let (timerWheel_, dropped) ← s.timerWheel_.step b.call
  .ok ({ s with timerWheel_, beats := s.beats ++ [b] }, dropped)

/-- `getTimeout`: the timeout as an `int`. -/
def getTimeout (w : TimerWheel α) : ℤ := toInt32 w.timeoutSec_.toNat

/-- `getWrapper` of a connection: a weak pointer leads to its wrapper as long as the wheel holds that. -/
def getWrapper (s : Heartbeats α) (wrapper : ℕ → α) (id : ℕ) : Option α :=
  if s.timerWheel_.Holds (wrapper id) then some (wrapper id) else none

/-- `onAccept`: the part with the wheel. -/
def onAccept (s : Heartbeats α) (wrapper : ℕ → α) (id : ℕ) : Exec (Heartbeats α) :=
  if 0 < getTimeout s.timerWheel_ then do
    let (s, _) ← s.beat (.insert (some (wrapper id)))
    .ok { s with heard := s.heard ++ [s.now] }
  else .ok { s with heard := s.heard ++ [s.now] }

/-- `onMessage`: the part with the wheel. -/
def onMessage (s : Heartbeats α) (wrapper : ℕ → α) (id : ℕ) : Exec (Heartbeats α) :=
  if 0 < getTimeout s.timerWheel_ then do
    let (s, _) ← s.beat (.insert (s.getWrapper wrapper id))
    .ok { s with heard := s.heard.set id s.now }
  else .ok { s with heard := s.heard.set id s.now }

/-- A read of a connection brings something for `onMessage`. -/
def Brings (s : TcpServer) : TcpServer.Event → Option ℕ
  | .onMesageReceive id nread _ => do
    let p ← s.peers[id]?
    if (p.conn.onMesageReceive nread).2 = .message then some id else none
  | _ => none

/-- Something happens to the server, which it leaves as `server`: the part with the wheel. -/
def turn (s : Heartbeats α) (wrapper : ℕ → α) (server : TcpServer) : TcpServer.Event → Exec (Heartbeats α)
  | .onAccept _ => { s with server }.onAccept wrapper s.server.peers.length
  | e =>
    match Brings s.server e with
    | some id => { s with server }.onMessage wrapper id
    | none => .ok { s with server }

/-- A step. `wrapper` says where the wrapper of a connection lies, and `conn` whose wrapper it is. -/
def step (wrapper : ℕ → α) (conn : α → ℕ) (s : Heartbeats α) : Event → Exec (Heartbeats α)
  | .advance ms => .ok { s with now := s.now + ms }
  | .expire =>
    if (s.timer_.process s.now).2 then do
      let (s, dropped) ← { s with timer_ := (s.timer_.process s.now).1 }.beat .tick
      .ok { s with server := s.server.dropWrappers conn dropped }
    else .ok { s with timer_ := (s.timer_.process s.now).1 }
  | .server e => do
    let server ← (s.server.outcomeReused e).getD (.error .undefined)
    s.turn wrapper server e

/-- What can happen: the loop is late by `late` milliseconds at most when the timer expires. That the
heartbeat of a connection expires is a matter of the wheel. -/
def Allows (late : ℕ) (s : Heartbeats α) : Event → Prop
  | .advance ms => ∀ h due, s.timer_.handle_ = some h → h.due = some due → s.now + ms ≤ due + late
  | .expire => s.timer_.Due s.now
  | .server (.expire _) => False
  | .server e => (s.server.outcomeReused e).isSome

/-- What happens to the server meets its conditions. -/
def Met (s : Heartbeats α) : Event → Prop
  | .server e => s.server.Met e
  | _ => True

end Heartbeats

/-! ### The server -/

namespace TcpServer

variable {s s' : TcpServer} {id : ℕ}

/-- A connection that is watched, and in the map of the server. -/
def Live (s : TcpServer) (id : ℕ) : Prop :=
  ∃ p : Peer, s.peers[id]? = some p ∧ p.conn.onConnectCloseCallback_ = true ∧
    s.getConnnection p.conn.name_ = some id

theorem Live.lt (h : s.Live id) : id < s.peers.length := by
  obtain ⟨p, hp, -⟩ := h
  exact (List.getElem?_eq_some_iff.mp hp).1

/-- What is live has been so before, in a step that leaves the map as it is. -/
theorem Evolves.live (he : Evolves s s') (h : s'.Live id) : s.Live id := by
  obtain ⟨p', hp', hcallback, hmine⟩ := h
  obtain ⟨p, hp, hpp'⟩ := he.peer id p' hp'
  refine ⟨p, hp, (hpp'.callback hcallback).1, ?_⟩
  rwa [← hpp'.name, ← he.lookup]

/-- What is live has been so before, or has been accepted just now. -/
theorem live_of_onAccept {name : Bytes} (h : (s.onAccept name).Live id) : s.Live id ∨ id = s.peers.length := by
  obtain ⟨p, hp, hcallback, hmine⟩ := h
  rcases getElem?_onAccept s name hp with hold | ⟨hnew, -⟩
  · refine .inl ⟨p, hold, hcallback, ?_⟩
    rw [getConnnection_onAccept] at hmine
    split at hmine
    · obtain ⟨hlt, -⟩ := List.getElem?_eq_some_iff.mp hold
      cases hmine
      exact absurd hlt (Nat.lt_irrefl _)
    · exact hmine
  · exact .inr hnew

/-- What is live has been so before, in a step that accepts nothing. -/
theorem Kept.live_of_ne (hkept : Kept s) {e : Event} (hstep : s.stepReused e = some s')
    (hne : ∀ name, e ≠ .onAccept name) : s'.peers.length = s.peers.length ∧ ∀ id, s'.Live id → s.Live id := by
  rcases hkept.step_cases hstep with ⟨name, rfl, -⟩ | ⟨name, returning, -, -, rfl⟩ | ⟨-, -, -, he⟩
  · exact absurd rfl (hne name)
  · refine ⟨rfl, fun id ⟨p, hp, hcallback, hmine⟩ => ⟨p, hp, hcallback, ?_⟩⟩
    rw [getConnnection_removeConnnection] at hmine
    split at hmine
    · cases hmine
    · exact hmine
  · exact ⟨he.length, fun id => he.live⟩

/-- The wrappers that the wheel drops close connections, and change nothing else. -/
theorem evolves_dropWrappers {α : Type} (s : TcpServer) (conn : α → ℕ) (dropped : List α) :
    Evolves s (s.dropWrappers conn dropped) :=
  List.foldlRecOn _ _ (.refl s) fun _ h v _ => h.trans (evolves_dropWrapper _ (conn v))

theorem Inv.dropWrappers {α : Type} (h : s.Inv) (conn : α → ℕ) (dropped : List α) :
    (s.dropWrappers conn dropped).Inv :=
  List.foldlRecOn _ _ h fun _ h v _ => h.dropWrapper (conn v)

end TcpServer

/-! ### The wheel -/

namespace TimerWheel

variable [LinearOrder α] {beats : List (Beat α)}

theorem age_insert_self (v : α) (beats : List (Beat α)) : age v (beats ++ [.insert (some v)]) = some 0 := by
  rw [age, ages_concat]
  dsimp only
  rw [if_pos rfl]
  rfl

theorem age_insert_of_ne {v : α} {u : Option α} (hne : u ≠ some v) : age v (beats ++ [.insert u]) = age v beats := by
  rw [age, ages_concat]
  cases u with
  | none => rfl
  | some u =>
    dsimp only
    rw [if_neg fun heq => hne (congrArg some heq)]
    rfl

theorem age_tick (v : α) (beats : List (Beat α)) : age v (beats ++ [.tick]) = (age v beats).map (· + 1) := by
  rw [age, age, ages_concat, List.head?_map]

end TimerWheel

/-! ### What holds in every run -/

namespace Heartbeats

variable [LinearOrder α]

/-- A connection heard of at the time `t` is not due yet, when there were `k` ticks since, the last one
at the time `tick`. -/
structure Waits (timeout : UInt32) (late tick now t k : ℕ) : Prop where
  /-- It is not in the future. -/
  past : t ≤ now
  /-- The timeout is not complete. -/
  short : k < timeout.toNat
  /-- There is a second from a tick to the next. -/
  least : k ≠ 0 → t + k * 1000 ≤ tick + 1000
  /-- And not much more. -/
  most : tick ≤ t + k * (1000 + late)

theorem Waits.lower {timeout : UInt32} {late tick now t k : ℕ} (h : Waits timeout late tick now t k)
    (hdue : tick + 1000 ≤ now) : t + k * 1000 ≤ now := by
  by_cases hzero : k = 0
  · have hpast := h.past
    omega
  · have hleast := h.least hzero
    omega

/-- One more tick. -/
theorem Waits.tick {timeout : UInt32} {late tick now t k : ℕ} (h : Waits timeout late tick now t k)
    (hdue : tick + 1000 ≤ now) (hprompt : now ≤ tick + 1000 + late) (hshort : k + 1 < timeout.toNat) :
    Waits timeout late now now t (k + 1) := by
  refine ⟨h.past, hshort, fun _ => ?_, ?_⟩
  · rw [Nat.succ_mul, ← Nat.add_assoc]
    exact Nat.add_le_add_right (h.lower hdue) 1000
  calc now ≤ tick + (1000 + late) := by omega
    _ ≤ t + k * (1000 + late) + (1000 + late) := Nat.add_le_add_right h.most _
    _ = t + (k + 1) * (1000 + late) := by rw [Nat.succ_mul, Nat.add_assoc]

/-- What holds of a server with a timeout; `tick` is the time of the last tick. -/
structure Paced (timeout : UInt32) (late : ℕ) (wrapper : ℕ → α) (tick : ℕ) (s : Heartbeats α) : Prop where
  /-- The wheel turns. -/
  wheel : TimerWheel.Turning timeout s.beats s.timerWheel_
  /-- The server is in order. -/
  server : s.server.Kept
  /-- The timer calls the wheel. -/
  callback : s.timer_.callback_ = true
  /-- It expires a second after the last tick. -/
  timer : s.timer_.handle_ = some ⟨.inUse, some (tick + 1000), 1000⟩
  /-- The last tick is past. -/
  past : tick ≤ s.now
  /-- The next one is not late. -/
  prompt : s.now ≤ tick + 1000 + late
  /-- Every connection has been heard of. -/
  length : s.heard.length = s.server.peers.length
  /-- What is put into the wheel are wrappers of connections. -/
  wrapped : ∀ v k, TimerWheel.age v s.beats = some k → ∃ id, v = wrapper id
  /-- None that is live is due. -/
  live : ∀ id t, s.server.Live id → s.heard[id]? = some t →
    ∃ k, TimerWheel.age (wrapper id) s.beats = some k ∧ Waits timeout late tick s.now t k

variable {timeout : UInt32} {late tick : ℕ} {wrapper : ℕ → α} {conn : α → ℕ} {s s' : Heartbeats α}

/-- A beat of the wheel. -/
theorem Paced.beat (h : Paced timeout late wrapper tick s) (b : TimerWheel.Beat α) : ∃ w dropped,
    s.beat b = .ok ({ s with timerWheel_ := w, beats := s.beats ++ [b] }, dropped) ∧
      TimerWheel.Turning timeout (s.beats ++ [b]) w := by
  obtain ⟨w, dropped, hstep, hw⟩ := h.wheel.step b
  refine ⟨w, dropped, ?_, hw⟩
  rw [Heartbeats.beat, hstep]
  rfl

/-- Time passes. -/
theorem Paced.advance {ms : ℕ} (h : Paced timeout late wrapper tick s) (hallows : s.Allows late (.advance ms)) :
    Paced timeout late wrapper tick { s with now := s.now + ms } := by
  have hprompt := hallows _ _ h.timer rfl
  refine ⟨h.wheel, h.server, h.callback, h.timer, Nat.le_add_right_of_le h.past, hprompt, h.length,
    h.wrapped, fun id t hlive ht => ?_⟩
  obtain ⟨k, hage, hwaits⟩ := h.live id t hlive ht
  exact ⟨k, hage, Nat.le_add_right_of_le hwaits.past, hwaits.short, hwaits.least, hwaits.most⟩

/-- The timer expires: what is dropped are the wrappers of the connections that have been silent for the
timeout, and they are closed. -/
theorem Paced.expire (h : Paced timeout late wrapper tick s) (hallows : s.Allows late .expire)
    (hwrapper : ∀ id, conn (wrapper id) = id) : ∃ s', s.step wrapper conn .expire = .ok s' ∧
      Paced timeout late wrapper s.now s' ∧ ∀ id t, s.server.Live id → s.heard[id]? = some t →
        s'.server.stateOf id = some .closing → t + (timeout.toNat - 1) * 1000 ≤ s.now := by
  have hdue : tick + 1000 ≤ s.now := by
    obtain ⟨u, due, hu, hdue, hle⟩ := hallows
    rw [h.timer, Option.some.injEq] at hu
    subst hu
    cases hdue
    exact hle
  obtain ⟨w, dropped, htick, hw, hdropped⟩ := h.wheel.dropped_iff
  have he := s.server.evolves_dropWrappers conn dropped
  have hclosed {id : ℕ} (hlive : s.server.Live id) :
      (s.server.dropWrappers conn dropped).stateOf id = some .closing ↔
        TimerWheel.age (wrapper id) s.beats = some (timeout.toNat - 1) := by
    obtain ⟨p, hp, hcallback, hmine⟩ := hlive
    rw [h.server.stateOf_dropWrappers_iff hp hcallback hmine, ← hdropped]
    constructor
    · rintro ⟨v, hv, heq⟩
      obtain ⟨j, rfl⟩ := h.wrapped v _ ((hdropped v).mp hv)
      rw [hwrapper] at heq
      rwa [← heq]
    · exact fun hv => ⟨wrapper id, hv, hwrapper id⟩
  have hpos : timeout.toNat ≠ 0 := fun hzero => h.wheel.pos (UInt32.toNat_inj.mp hzero)
  refine ⟨{ s with
    server := s.server.dropWrappers conn dropped
    timerWheel_ := w
    timer_ := (s.timer_.process s.now).1
    beats := s.beats ++ [.tick] }, ?_, ?_, ?_⟩
  · rw [step, if_pos (show (s.timer_.process s.now).2 = true from h.callback), Heartbeats.beat]
    dsimp only
    rw [show s.timerWheel_.step TimerWheel.Beat.tick.call = .ok (w, dropped) from htick]
    rfl
  · refine ⟨hw, h.server.evolves he, h.callback, ?_, Nat.le_refl _, by dsimp only; omega,
      h.length.trans he.length.symm,
      fun v k hage => ?_, fun id t hlive' ht => ?_⟩
    · rw [Timer.process, h.timer, Option.map_some, UvTimer.expire, if_neg (by simp)]
    · rw [TimerWheel.age_tick, Option.map_eq_some_iff] at hage
      obtain ⟨k, hage, -⟩ := hage
      exact h.wrapped v k hage
    · have hlive : s.server.Live id := he.live hlive'
      obtain ⟨k, hage, hwaits⟩ := h.live id t hlive ht
      refine ⟨k + 1, by rw [TimerWheel.age_tick, hage]; rfl, hwaits.tick hdue h.prompt ?_⟩
      -- a connection whose timeout is complete is being closed, and so is not live
      by_contra hlast
      have hshort := hwaits.short
      obtain ⟨p, hp, hcallback, -⟩ := hlive'
      have hopen := (h.server.evolves he).watched id p hp hcallback
      have hstate := (hclosed hlive).mpr (by rw [hage]; congr 1; omega)
      rw [TcpServer.stateOf_eq hp, hopen] at hstate
      cases hstate
  · intro id t hlive ht hstate
    obtain ⟨k, hage, hwaits⟩ := h.live id t hlive ht
    rw [(hclosed hlive).mp hstate, Option.some.injEq] at hage
    rw [hage]
    exact hwaits.lower hdue

/-- Something is put into the wheel, for a connection that has been heard of just now. -/
theorem Paced.insert (h : Paced timeout late wrapper tick s)
    {server : TcpServer} {u : Option α} {heard : List ℕ} (hkept : server.Kept)
    (hlength : heard.length = server.peers.length) (hu : ∀ v, u = some v → ∃ id, v = wrapper id)
    (hlive : ∀ id t, server.Live id → heard[id]? = some t →
      u = some (wrapper id) ∧ t = s.now ∨ u ≠ some (wrapper id) ∧ s.server.Live id ∧ s.heard[id]? = some t) :
    ∃ w dropped, { s with server }.beat (.insert u) =
        .ok ({ s with server, timerWheel_ := w, beats := s.beats ++ [.insert u] }, dropped) ∧
      Paced timeout late wrapper tick
        { s with server, timerWheel_ := w, beats := s.beats ++ [.insert u], heard } := by
  obtain ⟨w, dropped, hstep, hw⟩ := h.wheel.step (.insert u)
  refine ⟨w, dropped, ?_, hw, hkept, h.callback, h.timer, h.past, h.prompt, hlength, fun v k hage => ?_,
    fun id t hid ht => ?_⟩
  · rw [Heartbeats.beat, hstep]
    rfl
  · by_cases heq : u = some v
    · exact hu v heq
    · rw [TimerWheel.age_insert_of_ne heq] at hage
      exact h.wrapped v k hage
  · rcases hlive id t hid ht with ⟨rfl, rfl⟩ | ⟨hne, hold, ht⟩
    · have hpos : 0 < timeout.toNat := UInt32.pos_iff_ne_zero.mpr h.wheel.pos
      have hpast := h.past
      refine ⟨0, TimerWheel.age_insert_self _ _, Nat.le_refl _, hpos, fun hne => absurd rfl hne, by omega⟩
    · obtain ⟨k, hage, hwaits⟩ := h.live id t hold ht
      exact ⟨k, by rw [TimerWheel.age_insert_of_ne hne, hage], hwaits⟩

theorem Paced.getTimeout_pos (h : Paced timeout late wrapper tick s) (hint : timeout.toNat < 2 ^ 31) :
    0 < getTimeout s.timerWheel_ := by
  rw [getTimeout, h.wheel.set, toInt32_of_lt hint]
  exact Int.natCast_pos.mpr (UInt32.pos_iff_ne_zero.mpr h.wheel.pos)

/-- A connection is accepted. -/
theorem Paced.onAccept (h : Paced timeout late wrapper tick s) (hint : timeout.toNat < 2 ^ 31)
    (hwrapper : ∀ id, conn (wrapper id) = id) (name : Bytes) : ∃ s',
    { s with server := s.server.onAccept name }.onAccept wrapper s.server.peers.length = .ok s' ∧
      Paced timeout late wrapper tick s' := by
  have hlength : (s.heard ++ [s.now]).length = (s.server.onAccept name).peers.length := by
    have hpeers : (s.server.onAccept name).peers.length = s.server.peers.length + 1 := List.length_append
    rw [List.length_append, h.length, hpeers, List.length_singleton]
  obtain ⟨w, dropped, hbeat, hpaced⟩ := h.insert (u := some (wrapper s.server.peers.length))
    (h.server.onAccept name) hlength (fun v hv => ⟨_, (Option.some.inj hv).symm⟩) fun id t hlive ht => by
    rcases TcpServer.live_of_onAccept hlive with hold | rfl
    · have hlt : id < s.heard.length := h.length ▸ hold.lt
      rw [List.getElem?_append_left hlt] at ht
      refine .inr ⟨fun heq => ?_, hold, ht⟩
      have hid : s.server.peers.length = id := by
        rw [← hwrapper s.server.peers.length, Option.some.inj heq, hwrapper]
      exact absurd hold.lt (by rw [hid]; exact Nat.lt_irrefl _)
    · rw [← h.length, List.getElem?_concat_length] at ht
      exact .inl ⟨rfl, (Option.some.inj ht).symm⟩
  refine ⟨_, ?_, hpaced⟩
  rw [Heartbeats.onAccept, if_pos (h.getTimeout_pos hint), hbeat]
  rfl

/-- A connection is heard of. -/
theorem Paced.onMessage (h : Paced timeout late wrapper tick s) (hint : timeout.toNat < 2 ^ 31)
    (hwrapper : ∀ id, conn (wrapper id) = id) {server : TcpServer} (hkept : server.Kept)
    (hpeers : server.peers.length = s.server.peers.length) (hold : ∀ id, server.Live id → s.server.Live id) (j : ℕ) :
    ∃ s', { s with server }.onMessage wrapper j = .ok s' ∧ Paced timeout late wrapper tick s' := by
  have hlength : (s.heard.set j s.now).length = server.peers.length := by
    rw [List.length_set, h.length, hpeers]
  have hheld {id : ℕ} (hlive : s.server.Live id) : s.timerWheel_.Holds (wrapper id) := by
    have hlt : id < s.heard.length := h.length ▸ hlive.lt
    obtain ⟨k, hage, hwaits⟩ := h.live id _ hlive (List.getElem?_eq_getElem hlt)
    exact (h.wheel.holds_iff _).mpr ⟨k, hage, hwaits.short⟩
  obtain ⟨w, dropped, hbeat, hpaced⟩ := h.insert (u := s.getWrapper wrapper j) hkept hlength
    (fun v hv => by
      rw [getWrapper, Option.ite_none_right_eq_some] at hv
      exact ⟨j, (Option.some.inj hv.2).symm⟩) fun id t hlive ht => by
    have hlive' := hold id hlive
    by_cases heq : j = id
    · subst heq
      refine .inl ⟨by rw [getWrapper, if_pos (hheld hlive')], ?_⟩
      rw [List.getElem?_set_self (h.length ▸ hlive'.lt)] at ht
      exact (Option.some.inj ht).symm
    · rw [List.getElem?_set_ne heq] at ht
      refine .inr ⟨fun hw => heq ?_, hlive', ht⟩
      rw [getWrapper, Option.ite_none_right_eq_some, Option.some.injEq] at hw
      rw [← hwrapper j, hw.2, hwrapper]
  refine ⟨_, ?_, hpaced⟩
  have hsame : { s with server }.getWrapper wrapper j = s.getWrapper wrapper j := rfl
  rw [Heartbeats.onMessage, if_pos (h.getTimeout_pos hint), hsame, hbeat]
  rfl

/-- Something happens to the server. -/
theorem Paced.server_step {e : TcpServer.Event} (h : Paced timeout late wrapper tick s) (hinv : s.server.Inv)
    (hint : timeout.toNat < 2 ^ 31) (hwrapper : ∀ id, conn (wrapper id) = id)
    (hallows : s.Allows late (.server e)) :
    ∃ s', s.step wrapper conn (.server e) = .ok s' ∧ Paced timeout late wrapper tick s' := by
  obtain ⟨x, hx⟩ : ∃ x, s.server.outcomeReused e = some x := by
    refine Option.isSome_iff_exists.mp ?_
    cases e with
    | expire id => exact hallows.elim
    | _ => exact hallows
  obtain ⟨server, rfl⟩ := hinv.safe_reused hx
  have hstep := TcpServer.stepReused_eq_some_iff.mpr hx
  have hturn : s.step wrapper conn (.server e) = s.turn wrapper server e := by
    rw [Heartbeats.step, hx]
    rfl
  rw [hturn]
  by_cases haccept : ∃ name, e = .onAccept name
  · obtain ⟨name, rfl⟩ := haccept
    obtain ⟨-, rfl⟩ := TcpServer.stepReused_onAccept_iff.mp hstep
    exact h.onAccept hint hwrapper name
  · have hne (name : Bytes) : e ≠ .onAccept name := fun heq => haccept ⟨name, heq⟩
    have hkept := h.server.step hstep
    obtain ⟨hpeers, hold⟩ := h.server.live_of_ne hstep hne
    rw [turn]
    · cases Brings s.server e with
      | some id => exact h.onMessage hint hwrapper hkept hpeers hold id
      | none =>
        refine ⟨_, rfl, h.wheel, hkept, h.callback, h.timer, h.past, h.prompt, h.length.trans hpeers.symm, h.wrapped,
        fun id t hlive ht => h.live id t (hold id hlive) ht⟩
    · exact hne

/-- **A step**, whatever it is. -/
theorem Paced.step {e : Event} (h : Paced timeout late wrapper tick s) (hinv : s.server.Inv)
    (hint : timeout.toNat < 2 ^ 31) (hwrapper : ∀ id, conn (wrapper id) = id) (hallows : s.Allows late e) :
    ∃ s', s.step wrapper conn e = .ok s' ∧ ∃ tick', Paced timeout late wrapper tick' s' := by
  cases e with
  | advance ms => exact ⟨_, rfl, tick, h.advance hallows⟩
  | expire =>
    obtain ⟨s', hs', hpaced, -⟩ := h.expire hallows hwrapper
    exact ⟨s', hs', _, hpaced⟩
  | server e =>
    obtain ⟨s', hs', hpaced⟩ := h.server_step hinv hint hwrapper hallows
    exact ⟨s', hs', tick, hpaced⟩

theorem server_of_beat {b : TimerWheel.Beat α} {r : Heartbeats α × List α} (h : s.beat b = .ok r) :
    r.1.server = s.server := by
  obtain ⟨t, -, ht⟩ := Exec.bind_eq_ok_iff.mp h
  cases ht
  rfl

theorem server_of_onAccept {id : ℕ} (h : s.onAccept wrapper id = .ok s') : s'.server = s.server := by
  rw [Heartbeats.onAccept] at h
  split at h
  · obtain ⟨r, hbeat, hr⟩ := Exec.bind_eq_ok_iff.mp h
    cases hr
    exact server_of_beat hbeat
  · cases h
    rfl

theorem server_of_onMessage {id : ℕ} (h : s.onMessage wrapper id = .ok s') : s'.server = s.server := by
  rw [Heartbeats.onMessage] at h
  split at h
  · obtain ⟨r, hbeat, hr⟩ := Exec.bind_eq_ok_iff.mp h
    cases hr
    exact server_of_beat hbeat
  · cases h
    rfl

theorem server_of_turn {server : TcpServer} {e : TcpServer.Event} (h : s.turn wrapper server e = .ok s') :
    s'.server = server := by
  rw [turn.eq_def] at h
  split at h
  · exact server_of_onAccept h
  · split at h
    · exact server_of_onMessage h
    · cases h
      rfl

/-- The server after something has happened to it. -/
theorem stepReused_of_step {e : TcpServer.Event} (h : s.step wrapper conn (.server e) = .ok s') :
    s.server.stepReused e = some s'.server := by
  rw [Heartbeats.step] at h
  obtain ⟨server, hserver, hturn⟩ := Exec.bind_eq_ok_iff.mp h
  rw [TcpServer.stepReused_eq_some_iff, server_of_turn hturn]
  cases hx : s.server.outcomeReused e with
  | none =>
    rw [hx] at hserver
    cases hserver
  | some x =>
    rw [hx] at hserver
    exact congrArg some hserver

/-- The server stays one whose steps do not fault. -/
theorem inv_of_step {e : Event} (hinv : s.server.Inv) (hmet : s.Met e) (h : s.step wrapper conn e = .ok s') :
    s'.server.Inv := by
  cases e with
  | advance ms =>
    cases h
    exact hinv
  | expire =>
    rw [Heartbeats.step] at h
    split at h
    · obtain ⟨r, hbeat, hr⟩ := Exec.bind_eq_ok_iff.mp h
      cases hr
      have hserver := server_of_beat hbeat
      dsimp only at hserver ⊢
      rw [hserver]
      exact hinv.dropWrappers conn r.2
    · cases h
      exact hinv
  | server e => exact TcpServer.Met.inv hmet hinv (stepReused_of_step h)

omit [LinearOrder α] in
/-- The server is told to listen. -/
theorem eq_of_bindAndListen {now : ℕ} (hpos : timeout ≠ 0) (hstart : bindAndListen now timeout = .ok s) :
    s = ⟨now, .new, .started timeout, ⟨true, some ⟨.inUse, some (now + 1000), 1000⟩, 1000, 1000, true, none⟩,
      [], []⟩ := by
  rw [Heartbeats.bindAndListen, if_pos hpos] at hstart
  exact (Except.ok.inj hstart).symm

theorem Paced.bindAndListen {now : ℕ} (hpos : timeout ≠ 0) (hstart : bindAndListen now timeout = .ok s) :
    Paced timeout late wrapper now s := by
  obtain rfl := eq_of_bindAndListen hpos hstart
  refine ⟨.started hpos, .new, rfl, rfl, Nat.le_refl _, by dsimp only; omega, rfl, fun v k hage => ?_,
    fun id t ⟨p, hp, _⟩ => ?_⟩
  · cases hage
  · cases hp

/-- **How long a connection may be silent**, in any run of a server with a timeout whose loop is late by
`late` milliseconds at most, and whose steps meet the conditions. A connection that is watched, and in the
map, has been heard of within the timeout and as much more as the loop was late; one that the heartbeat
closes has been silent for the timeout less a second; and nothing faults. -/
theorem silent_for_timeout {now : ℕ} {s₀ : Heartbeats α} {events : List Event} (hpos : timeout ≠ 0)
    (hint : timeout.toNat < 2 ^ 31) (hwrapper : ∀ id, conn (wrapper id) = id)
    (hstart : bindAndListen now timeout = .ok s₀)
    (hrun : Run (fun s e s' => s.Met e ∧ Steps (step wrapper conn) (Allows late) s e s') s₀ events s) :
    (∀ id t, s.server.Live id → s.heard[id]? = some t → s.now ≤ t + timeout.toNat * (1000 + late)) ∧
      (∀ id t s', s.server.Live id → s.heard[id]? = some t → s.Allows late .expire →
        s.step wrapper conn .expire = .ok s' → s'.server.stateOf id = some .closing →
          t + (timeout.toNat - 1) * 1000 ≤ s.now) ∧
      ∀ e, s.Allows late e → Exec.Returns (s.step wrapper conn e) := by
  have hnew : s₀.server.Inv := by
    rw [eq_of_bindAndListen hpos hstart]
    exact .new
  obtain ⟨⟨tick, hpaced⟩, hinv⟩ := @Run.invariant _ _ _ _ _ _
    (fun s => (∃ tick, Paced timeout late wrapper tick s) ∧ s.server.Inv) hrun
    ⟨⟨now, .bindAndListen hpos hstart⟩, hnew⟩ fun s e s' ⟨⟨tick, h⟩, hinv⟩ ⟨hmet, hallows, hstep⟩ => by
      obtain ⟨s'', hs'', hpaced⟩ := h.step hinv hint hwrapper hallows
      obtain rfl : s'' = s' := Except.ok.inj (hs''.symm.trans hstep)
      exact ⟨hpaced, inv_of_step hinv hmet hstep⟩
  refine ⟨fun id t hlive ht => ?_, fun id t s' hlive ht hallows hstep hclosing => ?_, fun e he => ?_⟩
  · obtain ⟨k, -, hwaits⟩ := hpaced.live id t hlive ht
    calc s.now ≤ tick + (1000 + late) := by
          have hprompt := hpaced.prompt
          omega
      _ ≤ t + k * (1000 + late) + (1000 + late) := Nat.add_le_add_right hwaits.most _
      _ = t + (k + 1) * (1000 + late) := by rw [Nat.succ_mul, Nat.add_assoc]
      _ ≤ t + timeout.toNat * (1000 + late) :=
        Nat.add_le_add_left (Nat.mul_le_mul_right _ hwaits.short) t
  · obtain ⟨s'', hs'', -, hlower⟩ := hpaced.expire hallows hwrapper
    obtain rfl : s'' = s' := Except.ok.inj (hs''.symm.trans hstep)
    exact hlower id t hlive ht hclosing
  · obtain ⟨s', hs', -⟩ := hpaced.step hinv hint hwrapper he
    exact ⟨s', hs'⟩

/-- A server with a timeout of two seconds. -/
def sample : Heartbeats ℕ :=
  ⟨0, .new, .started 2, ⟨true, some ⟨.inUse, some 1000, 1000⟩, 1000, 1000, true, none⟩, [], []⟩

theorem silent_for_timeout_sample : ∃ s,
    Run (fun s e s' => s.Met e ∧ Steps (step (fun id => id) (fun id => id)) (Allows 0) s e s') sample
      [.server (.onAccept [97]), .advance 1000] s ∧
    s.server.Live 0 ∧ s.now ≤ 0 + (2 : UInt32).toNat * (1000 + 0) ∧
    Exec.Returns (s.step (fun id => id) (fun id => id) .expire) := by
  have hstart : bindAndListen 0 2 = .ok sample := rfl
  have hrun : Run (fun s e s' => s.Met e ∧ Steps (step (fun id => id) (fun id => id)) (Allows 0) s e s')
    sample [] sample := .nil _
  have haccept : sample.step (fun id => id) (fun id => id) (.server (.onAccept [97])) =
      .ok ⟨0, TcpServer.new.onAccept [97], (TimerWheel.started 2).inserted 0, sample.timer_,
        [.insert (some 0)], [0]⟩ := by
    have hpos : 0 < getTimeout (TimerWheel.started 2 : TimerWheel ℕ) := by
      rw [getTimeout, toInt32_of_lt (by decide)]
      decide
    have hx : sample.server.outcomeReused (.onAccept [97]) = some (.ok (TcpServer.new.onAccept [97])) := rfl
    rw [step, hx, Option.getD_some, Exec.ok_bind, turn, Heartbeats.onAccept]
    exact (if_pos hpos).trans rfl
  have hmet : sample.Met (.server (.onAccept [97])) := by
    change TcpServer.Met TcpServer.new (.onAccept [97])
    decide +kernel
  have hrun := hrun.snoc (a := Event.server (.onAccept [97])) ⟨hmet, rfl, haccept⟩
  have hrun := hrun.snoc (a := Event.advance 1000)
    ⟨trivial, fun h due hh hdue => by cases hh; cases hdue; decide, rfl⟩
  obtain ⟨hlive, -, hsafe⟩ :=
    silent_for_timeout (show (2 : UInt32) ≠ 0 by decide) (by decide) (fun _ => rfl) hstart hrun
  have h : (TcpServer.new.onAccept [97]).Live 0 := ⟨_, rfl, rfl, by decide +kernel⟩
  exact ⟨_, hrun, h, hlive 0 0 h rfl, hsafe .expire ⟨_, _, rfl, rfl, by decide⟩⟩

end Heartbeats

end UvCpp
