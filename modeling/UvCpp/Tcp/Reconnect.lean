import UvCpp.Loop.Timer
import UvCpp.Tcp.ClientHandles

/-!
# Clients that connect again

The clients of the examples connect again when their connection has ended, or has not come about: a
timer is started, and when it expires it connects and closes itself (`reConnect`). They differ in the
time they wait.

At any time there is one handle that libuv is not done with, or one timer that is to expire, and not
both (`reconnects`). So a client never gives up, never tries twice at the same time, and loses no
handle; its timers are deleted once, when libuv is done with them.
-/

namespace UvCpp

open UvCpp.Cpp UvCpp.Systems

/-- A timer of a client, with `delete` as its close callback. -/
structure Retry where
  /-- The timer. -/
  timer : Timer Unit
  /-- Whether it has been deleted. -/
  deleted : Bool
  deriving DecidableEq

namespace Retry

/-- A timer that is to expire. -/
def Armed (t : Retry) (due : ℕ) : Prop :=
  t.deleted = false ∧ t.timer.callback_ = true ∧ ∃ h, t.timer.handle_ = some h ∧ h.state = .inUse ∧ h.due = some due

/-- A timer that has expired: it is being closed, or it has been closed and deleted. -/
def Spent (t : Retry) : Prop :=
  t.deleted = false ∧ t.timer.closeComplete_ = some () ∧
      (∃ h, t.timer.handle_ = some h ∧ h.state = .closing ∧ h.due = none) ∨
    t.deleted = true ∧ t.timer.handle_ = none

theorem Spent.not_due {t : Retry} {now : ℕ} (h : t.Spent) : ¬ t.timer.Due now := by
  rintro ⟨u, due, hu, hdue, -⟩
  rcases h with ⟨-, -, u', hu', -, hnone⟩ | ⟨-, hgone⟩
  · rw [hu', Option.some.injEq] at hu
    subst hu
    rw [hnone] at hdue
    cases hdue
  · rw [hgone] at hu
    cases hu

theorem Armed.not_closing {t : Retry} {due : ℕ} (h : t.Armed due) : ¬ t.timer.Closing := by
  rintro ⟨u, hu, hclosing⟩
  obtain ⟨-, -, u', hu', hopen, -⟩ := h
  rw [hu', Option.some.injEq] at hu
  subst hu
  rw [hopen] at hclosing
  cases hclosing

/-- Whether libuv is to expire a timer. -/
def active (t : Retry) : Bool := t.timer.handle_.any UvTimer.uv_is_active

theorem Spent.active_eq {t : Retry} (h : t.Spent) : t.active = false := by
  rcases h with ⟨-, -, u, hu, -, hnone⟩ | ⟨-, hgone⟩
  · simp [active, hu, UvTimer.uv_is_active, hnone]
  · simp [active, hgone]

theorem Armed.active_eq {t : Retry} {due : ℕ} (h : t.Armed due) : t.active = true := by
  obtain ⟨-, -, u, hu, -, hdue⟩ := h
  simp [active, hu, UvTimer.uv_is_active, hdue]

end Retry

/-- A client that connects again, and its loop. -/
structure Reconnecting where
  /-- The clock of the loop. -/
  now : ℕ
  /-- The client. -/
  client : TcpClient
  /-- Every timer there has been. -/
  timers : List Retry
  /-- When `connect` was called. -/
  attempts : List ℕ

namespace Reconnecting

/-- The time that `RpcClient` waits, in milliseconds. -/
def RpcClient.delay : ℕ := 50

/-- The time that the clients of `all_example` and `clients_cross_thread` wait. -/
def Client.delay : ℕ := 500

/-- The time that the client of `pingpang` waits. -/
def PingPang.Client.delay : ℕ := 1000

/-- What happens. -/
inductive Event where
  /-- Time passes. -/
  | advance (ms : ℕ)
  /-- Something happens to the client. -/
  | client (e : TcpClient.Event)
  /-- A timer expires; `rst` is what `uv_tcp_connect` returns. -/
  | expire (j : ℕ) (rst : ℤ)
  /-- libuv has closed a timer. -/
  | closed (j : ℕ)
  deriving DecidableEq

variable (delay : ℕ)

/-- `connectToServer`: the first `connect`. -/
def connectToServer (now : ℕ) (rst : ℤ) : Reconnecting := ⟨now, TcpClient.new.connect rst, [], [now]⟩

/-- `reConnect`. -/
def reConnect (r : Reconnecting) : Exec Reconnecting := do
  let timer ← (Timer.new delay 0 true).start r.now
  .ok { r with timers := r.timers ++ [⟨timer, false⟩] }

/-- `onConnect`. What it writes when the connection stands is an event of its own. -/
def onConnect (r : Reconnecting) (status : ConnectStatus) : Exec Reconnecting :=
  if status ≠ .OnConnectSuccess then r.reConnect delay else .ok r

/-- The close callback of a timer: `delete timer`. -/
def deleteTimer (t : Retry) : Exec Retry :=
  if t.deleted then .error .undefined else .ok { t with deleted := true }

/-- A close callback of a timer runs, if there is one. -/
def runCallback (t : Retry) : Option Unit → Exec Retry
  | none => .ok t
  | some () => deleteTimer t

/-- The callback of a timer: it connects, and closes the timer. -/
def onTimeOut (r : Reconnecting) (j : ℕ) (t : Retry) (rst : ℤ) : Exec Reconnecting := do
  let (timer, now) ← t.timer.close (some ())
  let t ← runCallback { t with timer } now
  .ok { r with client := r.client.connect rst, timers := r.timers.set j t, attempts := r.attempts ++ [r.now] }

/-- A step. What has been deleted must not be used. -/
def step (r : Reconnecting) : Event → Exec Reconnecting
  | .advance ms => .ok { r with now := r.now + ms }
  | .client e =>
    match r.client.step e with
    | none => .error .undefined
    | some client => (client.told.drop r.client.told.length).foldlM (onConnect delay) { r with client }
  | .expire j rst =>
    match r.timers[j]? with
    | none => .error .undefined
    | some t =>
      if t.deleted then .error .undefined
      else if (t.timer.process r.now).2 then r.onTimeOut j { t with timer := (t.timer.process r.now).1 } rst
      else .ok { r with timers := r.timers.set j { t with timer := (t.timer.process r.now).1 } }
  | .closed j =>
    match r.timers[j]? with
    | none => .error .undefined
    | some t =>
      if t.deleted then .error .undefined
      else do
        let t ← runCallback { t with timer := t.timer.closed.1 } t.timer.closed.2
        .ok { r with timers := r.timers.set j t }

/-- What can happen: what can happen to the client, which the program neither connects nor closes in
another place; and what libuv does to its timers. -/
def Allows (r : Reconnecting) : Event → Prop
  | .advance _ => True
  | .client (.connect _) => False
  | .client (.close _) => False
  | .client e => (r.client.step e).isSome
  | .expire j _ => ∃ t, r.timers[j]? = some t ∧ t.timer.Due r.now
  | .closed j => ∃ t, r.timers[j]? = some t ∧ t.timer.Closing

/-! ### One thing at a time -/

/-- libuv accepts what it is asked to do: to connect a handle, to shut it down. -/
def Accepted : Event → Prop
  | .client (.onMesageReceive _ _ rst) => rst = 0
  | .expire _ rst => rst = 0
  | _ => True

/-- What the one handle of a client, at place `k`, is there for; `ok` is whether libuv has accepted
everything. -/
inductive Role (ok : Prop) (c : TcpClient) (k : ℕ) (socket : Socket) : Prop where
  /-- It is being connected. -/
  | connecting : socket.handle.state = .inUse → socket.connecting = true → socket.data = none →
      socket.ending = none → socket.failed = false → Role ok c k socket
  /-- It is being closed, because it could not be connected. -/
  | failing : socket.handle.state = .closing → socket.connecting = false → socket.data = none →
      socket.ending = none → socket.failed = true → Role ok c k socket
  /-- It is the client's connection. -/
  | standing {id : ℕ} {link : Link} : socket.handle.state = .inUse → socket.connecting = false →
      socket.data = some id → socket.failed = false → (∀ j ∈ socket.ending, j = id) →
      (socket.handle.reading = true → socket.ending = none) →
      (ok → socket.handle.reading = true ∨ socket.ending ≠ none) → c.connection_ = some id →
      c.links[id]? = some link → link.handle_ = k → link.conn.onConnectCloseCallback_ = true → Role ok c k socket
  /-- It is being closed, because its connection has ended. -/
  | closing {id : ℕ} {link : Link} : socket.handle.state = .closing → socket.connecting = false →
      socket.data = some id → socket.failed = false → socket.ending = none → c.connection_ = some id →
      c.links[id]? = some link → link.handle_ = k → link.conn.closeCompleteCallback_ = some .onClose →
      Role ok c k socket
  /-- It could not even begin to be connected. -/
  | refused : ¬ ok → socket.handle.state = .inUse → socket.connecting = false → socket.data = none →
      socket.ending = none → socket.failed = false → Role ok c k socket

/-- libuv is done with a handle. -/
def Over (socket : Socket) : Prop := socket.handle.state = .closed

/-- How far a client has come: it waits for a timer, or has a handle. -/
inductive Stage (ok : Prop) (r : Reconnecting) : Prop where
  /-- A timer is to expire. -/
  | waiting {spent : List Retry} {t : Retry} {due last : ℕ} : r.timers = spent ++ [t] → (∀ t ∈ spent, t.Spent) →
      t.Armed due → r.attempts.getLast? = some last → last + delay ≤ due →
      (∀ socket ∈ r.client.sockets, Over socket) → Stage ok r
  /-- There is a handle, the latest. -/
  | busy {past : List Socket} {socket : Socket} : r.client.sockets = past ++ [socket] →
      (∀ socket ∈ past, Over socket) → r.client.socket_ = some past.length →
      Role ok r.client past.length socket → (∀ t ∈ r.timers, t.Spent) → Stage ok r

/-- What holds of a client that connects again. -/
structure Inv (ok : Prop) (r : Reconnecting) : Prop where
  /-- It waits, or has a handle. -/
  stage : Stage delay ok r
  /-- It never tries twice within the time it waits. -/
  chain : r.attempts.IsChain fun a b => a + delay ≤ b
  /-- The latest attempt is past. -/
  past : ∃ a, r.attempts.getLast? = some a ∧ a ≤ r.now
  /-- Nothing of the client has been released before it was closed. -/
  sound : r.client.Inv

variable {delay} {ok ok' : Prop} {c c' : TcpClient} {past : List Socket} {socket s : Socket} {k : ℕ}

/-! ### The client -/

/-- The handle that is not closed is the latest. -/
theorem eq_last (hover : ∀ o ∈ past, Over o) (hk : (past ++ [socket])[k]? = some s)
    (hopen : s.handle.state ≠ .closed) : k = past.length ∧ s = socket := by
  rw [List.getElem?_append] at hk
  split at hk
  · exact absurd (hover s (List.mem_of_getElem? hk)) hopen
  · next hge =>
    obtain ⟨hlt, hs⟩ := List.getElem?_eq_some_iff.mp hk
    rw [List.length_singleton] at hlt
    refine ⟨by omega, ?_⟩
    rw [← hs, List.getElem_singleton]

@[simp] theorem set_last {α : Type} (as : List α) (a b : α) : (as ++ [a]).set as.length b = as ++ [b] := by
  simp

/-- What a handle is there for is a matter of the client's connection. -/
theorem Role.of_eq (h : Role ok c k socket) (hok : ok' → ok) (hconnection : c'.connection_ = c.connection_)
    (hlinks : c'.links = c.links) : Role ok' c' k socket := by
  cases h with
  | connecting h1 h2 h3 h4 h5 => exact .connecting h1 h2 h3 h4 h5
  | failing h1 h2 h3 h4 h5 => exact .failing h1 h2 h3 h4 h5
  | standing h1 h2 h3 h4 h5 h6 h7 h8 h9 h10 h11 =>
    exact .standing h1 h2 h3 h4 h5 h6 (fun h => h7 (hok h)) (hconnection.trans h8) (hlinks ▸ h9) h10 h11
  | closing h1 h2 h3 h4 h5 h6 h7 h8 h9 =>
    exact .closing h1 h2 h3 h4 h5 (hconnection.trans h6) (hlinks ▸ h7) h8 h9
  | refused h1 h2 h3 h4 h5 h6 => exact .refused (fun h => h1 (hok h)) h2 h3 h4 h5 h6

/-- The number of writes does not matter. -/
theorem Role.writes (h : Role ok c k socket) (n : ℕ) : Role ok c k { socket with handle.writes := n } := by
  cases h with
  | connecting h1 h2 h3 h4 h5 => exact .connecting h1 h2 h3 h4 h5
  | failing h1 h2 h3 h4 h5 => exact .failing h1 h2 h3 h4 h5
  | standing h1 h2 h3 h4 h5 h6 h7 h8 h9 h10 h11 => exact .standing h1 h2 h3 h4 h5 h6 h7 h8 h9 h10 h11
  | closing h1 h2 h3 h4 h5 h6 h7 h8 h9 => exact .closing h1 h2 h3 h4 h5 h6 h7 h8 h9
  | refused h1 h2 h3 h4 h5 h6 => exact .refused h1 h2 h3 h4 h5 h6

/-- A write changes the number of writes of a handle, if anything. -/
theorem write_cases (c : TcpClient) (rst : ℤ) : c.write rst = c ∨ ∃ k s n, c.sockets[k]? = some s ∧
    c.write rst = c.setSocket k { s with handle.writes := n } := by
  rw [TcpClient.write]
  split
  · exact .inl rfl
  · split
    · exact .inl rfl
    · next link _ =>
      split
      · exact .inl rfl
      · next s hs =>
        refine .inr ⟨link.handle_, s, (link.conn.write s.handle rst).1.writes, hs, ?_⟩
        rw [TcpConnection.write]
        split
        · split <;> rfl
        · rfl

/-- The connection ends or fails, and its handle is closed. -/
theorem onSocketClose_eq {id : ℕ} {link : Link} (hsockets : c.sockets = past ++ [socket])
    (hopen : socket.handle.state = .inUse) (hconnection : c.connection_ = some id)
    (hlink : c.links[id]? = some link) (hhandle : link.handle_ = past.length)
    (hwatched : link.conn.onConnectCloseCallback_ = true) : ∃ conn handle,
      c.onSocketClose id = (c.setConn id { link with conn }).setSocket past.length { socket with handle } ∧
        handle.state = .closing ∧ conn.closeCompleteCallback_ = some .onClose := by
  obtain ⟨conn, handle, now, heq, -, -, hkept, hcases⟩ := link.conn.close_cases socket.handle (some .onClose)
  have hget : c.sockets[link.handle_]? = some socket := by
    rw [hhandle, hsockets, List.getElem?_concat_length]
  obtain ⟨-, hclosing, hnow⟩ | ⟨hnot, -, -⟩ := hcases
  · refine ⟨conn, handle, ?_, hclosing, hkept⟩
    rw [TcpClient.onSocketClose, hlink]
    dsimp only
    rw [TcpConnection.onSocketClose, if_pos hwatched, TcpClient.onConnectClose, hconnection]
    dsimp only
    rw [TcpClient.closeConn, hlink]
    dsimp only
    rw [hget]
    dsimp only
    rw [heq, hnow, hhandle]
  · exact absurd hopen hnot

/-- What a step leaves of a client that has a handle. -/
inductive Outcome (ok : Prop) (c : TcpClient) (n : ℕ) (c' : TcpClient) : Prop where
  /-- The handle is there for something still. -/
  | busy {past : List Socket} {socket : Socket} : c'.sockets = past ++ [socket] → past.length = n →
      (∀ s ∈ past, Over s) → c'.socket_ = c.socket_ → Role ok c' n socket →
      (c'.told = c.told ∨ c'.told = c.told ++ [.OnConnectSuccess]) → Outcome ok c n c'
  /-- libuv is done with it, and the client is told that it has no connection. -/
  | ended {status : ConnectStatus} : (∀ s ∈ c'.sockets, Over s) → status ≠ .OnConnectSuccess →
      c'.told = c.told ++ [status] → Outcome ok c n c'

/-- A step that changes the handle, and not what it is there for. -/
theorem Outcome.of_role (hsockets : c.sockets = past ++ [socket]) (hover : ∀ o ∈ past, Over o) {socket' : Socket}
    (hset : c'.sockets = (c.sockets).set past.length socket') (hsocket : c'.socket_ = c.socket_)
    (htold : c'.told = c.told ∨ c'.told = c.told ++ [.OnConnectSuccess])
    (hrole : Role ok c' past.length socket') : Outcome ok c past.length c' := by
  rw [hsockets, set_last] at hset
  exact .busy hset rfl hover hsocket hrole htold

/-- The number of writes of a handle changes. -/
theorem Outcome.writes (hsockets : c.sockets = past ++ [socket]) (hover : ∀ o ∈ past, Over o)
    (hrole : Role ok c past.length socket) (hok : ok' → ok) (hk : c.sockets[k]? = some s) (n : ℕ) :
    Outcome ok' c past.length (c.setSocket k { s with handle.writes := n }) := by
  rw [hsockets, List.getElem?_append] at hk
  split at hk
  · next hlt =>
    have hset : (c.setSocket k { s with handle.writes := n }).sockets =
        past.set k { s with handle.writes := n } ++ [socket] := by
      rw [TcpClient.setSocket, hsockets, List.set_append_left _ _ hlt]
    refine .busy hset List.length_set (fun o ho => ?_) rfl (hrole.of_eq hok rfl rfl) (.inl rfl)
    obtain hold | rfl := List.mem_or_eq_of_mem_set ho
    · exact hover o hold
    · exact hover s (List.mem_of_getElem? hk)
  · next hge =>
    obtain ⟨hlt, hs⟩ := List.getElem?_eq_some_iff.mp hk
    rw [List.length_singleton] at hlt
    have heq : k = past.length := by omega
    rw [List.getElem_singleton] at hs
    subst heq hs
    exact .of_role hsockets hover rfl rfl (.inl rfl) ((hrole.writes n).of_eq hok rfl rfl)

/-- Connecting succeeds or fails. -/
theorem Outcome.onConnect (hsockets : c.sockets = past ++ [socket]) (hover : ∀ o ∈ past, Over o)
    (hlatest : c.socket_ = some past.length) (hopen : socket.handle.state = .inUse)
    (hending : socket.ending = none) (hfailed : socket.failed = false) (successed : Bool) (name : Bytes) :
    Outcome ok' c past.length
      ((c.setSocket past.length { socket with connecting := false }).onConnect successed name) := by
  have hget : (c.setSocket past.length { socket with connecting := false }).sockets[past.length]? =
      some { socket with connecting := false } := by
    rw [TcpClient.setSocket, hsockets, set_last, List.getElem?_concat_length]
  rw [TcpClient.onConnect, show (c.setSocket past.length { socket with connecting := false }).socket_ =
    some past.length from hlatest]
  dsimp only
  rw [hget]
  dsimp only
  cases successed with
  | true =>
    rw [if_pos rfl]
    refine .of_role hsockets hover (List.set_set ..) hlatest.symm (.inr rfl) ?_
    refine .standing hopen rfl rfl hfailed ?_ (fun _ => hending) (fun _ => .inl rfl) rfl
      List.getElem?_concat_length rfl rfl
    intro j hj
    have hj : j ∈ socket.ending := hj
    rw [hending] at hj
    cases hj
  | false =>
    rw [if_neg Bool.false_ne_true]
    have hstate : (if socket.handle.uv_is_active then socket.handle.uv_read_stop else socket.handle).state =
        .inUse := by
      split <;> exact hopen
    rw [if_pos (by simp [UvTcp.uv_is_closing, hstate])]
    refine .of_role hsockets hover (List.set_set ..) rfl (.inl rfl) ?_
    exact .failing rfl rfl rfl hending rfl

/-- The connection ends or fails. -/
theorem Outcome.onSocketClose {id : ℕ} {link : Link} (hsockets : c.sockets = past ++ [socket])
    (hover : ∀ o ∈ past, Over o) (hopen : socket.handle.state = .inUse) (hconnecting : socket.connecting = false)
    (hdata : socket.data = some id) (hfailed : socket.failed = false) (hending : socket.ending = none)
    (hconnection : c.connection_ = some id) (hlink : c.links[id]? = some link)
    (hhandle : link.handle_ = past.length) (hwatched : link.conn.onConnectCloseCallback_ = true) :
    Outcome ok' c past.length (c.onSocketClose id) := by
  obtain ⟨conn, handle, heq, hclosing, hkept⟩ :=
    onSocketClose_eq hsockets hopen hconnection hlink hhandle hwatched
  rw [heq]
  refine .of_role hsockets hover rfl rfl (.inl rfl) ?_
  have hlink' : (c.setConn id { link with conn }).links[id]? = some { link with conn } :=
    (TcpClient.getElem?_setConn hlink _ id).trans (if_pos rfl)
  exact .closing hclosing hconnecting hdata hfailed hending hconnection hlink' hhandle hkept

/-- libuv has closed the handle. -/
theorem Outcome.onClosed (hsockets : c.sockets = past ++ [socket]) (hover : ∀ o ∈ past, Over o)
    (hrole : Role ok c past.length socket) (hclosing : socket.handle.state = .closing) :
    Outcome ok' c past.length
      ((c.setSocket past.length { socket with handle.state := .closed }).onClosed socket) := by
  have hall : ∀ s ∈ (c.setSocket past.length { socket with handle.state := .closed }).sockets, Over s := by
    intro s hs
    rw [TcpClient.setSocket, hsockets, set_last] at hs
    obtain hs | hs := List.mem_append.mp hs
    · exact hover s hs
    · rw [List.mem_singleton.mp hs]
      rfl
  cases hrole with
  | connecting hopen => simp [hopen] at hclosing
  | failing _ _ _ _ hfailed =>
    rw [TcpClient.onClosed, if_pos hfailed]
    exact .ended hall (by decide) rfl
  | standing hopen => simp [hopen] at hclosing
  | @closing id link _ _ hdata hfailed _ _ hlink _ hkept =>
    have htold : ((c.setSocket past.length { socket with handle.state := .closed }).onClosed socket) =
        (c.setSocket past.length { socket with handle.state := .closed }).runCallback id .onClose := by
      simp [TcpClient.onClosed, TcpClient.setSocket, TcpConnection.CloseComplete, hfailed, hdata, hlink, hkept]
    rw [htold]
    exact .ended hall (by decide) rfl
  | refused _ hopen => simp [hopen] at hclosing

theorem Outcome.of_eq {b : TcpClient} {n : ℕ} (h : Outcome ok b n c') (htold : b.told = c.told)
    (hsocket : b.socket_ = c.socket_) : Outcome ok c n c' := by
  cases h with
  | busy h1 h2 h3 h4 h5 h6 => exact .busy h1 h2 h3 (h4.trans hsocket) h5 (htold ▸ h6)
  | ended h1 h2 h3 => exact .ended h1 h2 (htold ▸ h3)

/-- The connection reads. -/
theorem Outcome.onMesageReceive {id : ℕ} {link : Link} (hsockets : c.sockets = past ++ [socket])
    (hover : ∀ o ∈ past, Over o) (hrole : Role ok c past.length socket) (hok : ok' → ok)
    (hopen : socket.handle.state = .inUse) (hreading : socket.handle.reading = true)
    (hdata : socket.data = some id) (hlink : c.links[id]? = some link) {nread rst : ℤ} (hrst : ok' → rst = 0) :
    Outcome ok' c past.length (c.onMesageReceive past.length socket id link nread rst) := by
  have hsame : Outcome ok' c past.length c :=
    .busy hsockets rfl hover rfl (hrole.of_eq hok rfl rfl) (.inl rfl)
  cases hrole with
  | connecting _ _ hnone => simp [hnone] at hdata
  | failing hclosing => simp [hopen] at hclosing
  | closing hclosing => simp [hopen] at hclosing
  | refused _ _ _ hnone => simp [hnone] at hdata
  | @standing j link' _ hconnecting hj hfailed _ hidle _ hconnection hlink' hhandle hwatched =>
    rw [hdata, Option.some.injEq] at hj
    subst hj
    rw [hlink, Option.some.injEq] at hlink'
    subst hlink'
    have hending : socket.ending = none := hidle hreading
    obtain ⟨status, hconn⟩ := link.conn.onMesageReceive_fst nread
    rw [TcpClient.onMesageReceive]
    dsimp only
    rw [hconn]
    have hsockets' (socket' : Socket) :
        ((c.setConn id { link with conn := link.conn.setConnectStatus status }).setSocket
        past.length socket').sockets = past ++ [socket'] := by
      rw [TcpClient.setSocket, show (c.setConn id { link with conn := link.conn.setConnectStatus status }).sockets =
        past ++ [socket] from hsockets, set_last]
    have hlink' : (c.setConn id { link with conn := link.conn.setConnectStatus status }).links[id]? =
        some { link with conn := link.conn.setConnectStatus status } :=
      (TcpClient.getElem?_setConn hlink _ id).trans (if_pos rfl)
    split
    · exact hsame
    · exact hsame
    · refine Outcome.of_eq (.onSocketClose (hsockets' _) hover hopen hconnecting hdata hfailed hending hconnection
        hlink' hhandle hwatched) rfl rfl
    · refine .busy (hsockets' _) rfl hover rfl ?_ (.inl rfl)
      refine .standing hopen hconnecting hdata hfailed ?_ (fun h => by cases h) (fun h => .inr ?_) hconnection hlink'
        hhandle hwatched
      · intro j hj
        dsimp only at hj
        split at hj
        · cases hj
          rfl
        · cases hj
      · simp [hrst h]

/-- **A step of the client**, whatever it is, but for `connect` and `close`. -/
theorem outcome_of_moves {e : TcpClient.Event} (hsockets : c.sockets = past ++ [socket])
    (hover : ∀ o ∈ past, Over o) (hlatest : c.socket_ = some past.length) (hrole : Role ok c past.length socket)
    (hok : ok' → ok) (haccepted : ok' → Accepted (.client e)) (hconnect : ∀ rst, e ≠ .connect rst)
    (hclose : ∀ callback, e ≠ .close callback) (h : c.Moves e c') : Outcome ok' c past.length c' := by
  have hlast {k : ℕ} {s : Socket} (hk : c.sockets[k]? = some s) (hopen : s.handle.state ≠ .closed) :
      k = past.length ∧ s = socket := eq_last hover (hsockets ▸ hk) hopen
  cases h with
  | connect rst => exact absurd rfl (hconnect rst)
  | close callback => exact absurd rfl (hclose callback)
  | @onConnect k s successed name hk hopen hconnecting _ =>
    obtain ⟨rfl, rfl⟩ := hlast hk hopen
    cases hrole with
    | connecting hopen _ _ hending hfailed => exact .onConnect hsockets hover hlatest hopen hending hfailed _ _
    | failing _ hnot => simp [hnot] at hconnecting
    | standing _ hnot => simp [hnot] at hconnecting
    | closing _ hnot => simp [hnot] at hconnecting
    | refused _ _ hnot => simp [hnot] at hconnecting
  | onMesageReceive nread rst hk hdata hid hopen hreading =>
    obtain ⟨rfl, rfl⟩ := hlast hk (by simp [hopen])
    exact .onMesageReceive hsockets hover hrole hok hopen hreading hdata hid haccepted
  | @shutdown k id s hk hending hopen =>
    obtain ⟨rfl, rfl⟩ := hlast hk hopen
    cases hrole with
    | connecting _ _ _ hnone => simp [hnone] at hending
    | failing _ _ _ hnone => simp [hnone] at hending
    | closing _ _ _ _ hnone => simp [hnone] at hending
    | refused _ _ _ _ hnone => simp [hnone] at hending
    | standing hopen hconnecting hdata hfailed hsame _ _ hconnection hlink hhandle hwatched =>
      obtain rfl := hsame id hending
      have hsockets' : (c.setSocket past.length { s with ending := none }).sockets =
          past ++ [{ s with ending := none }] := by
        rw [TcpClient.setSocket, hsockets, set_last]
      exact Outcome.of_eq (.onSocketClose hsockets' hover hopen hconnecting hdata hfailed rfl hconnection hlink
        hhandle hwatched) rfl rfl
  | write rst =>
    obtain heq | ⟨k, s, n, hk, heq⟩ := write_cases c rst
    · rw [heq]
      exact .busy hsockets rfl hover rfl (hrole.of_eq hok rfl rfl) (.inl rfl)
    · rw [heq]
      exact .writes hsockets hover hrole hok hk n
  | written hk _ _ => exact .writes hsockets hover hrole hok hk _
  | closed hk hclosing _ _ _ =>
    obtain ⟨rfl, rfl⟩ := hlast hk (by simp [hclosing])
    exact .onClosed hsockets hover hrole hclosing

/-- A client that waits does nothing but write to a connection that it has lost. -/
theorem over_of_moves {e : TcpClient.Event} (hover : ∀ o ∈ c.sockets, Over o) (hconnect : ∀ rst, e ≠ .connect rst)
    (hclose : ∀ callback, e ≠ .close callback) (h : c.Moves e c') :
    (∀ o ∈ c'.sockets, Over o) ∧ c'.told = c.told := by
  have hnot {k : ℕ} {s : Socket} (hk : c.sockets[k]? = some s) (hopen : s.handle.state ≠ .closed) : False :=
    hopen (hover s (List.mem_of_getElem? hk))
  cases h with
  | connect rst => exact absurd rfl (hconnect rst)
  | close callback => exact absurd rfl (hclose callback)
  | onConnect _ hk hopen _ _ => exact (hnot hk hopen).elim
  | onMesageReceive _ _ hk _ _ hopen _ => exact (hnot hk (by simp [hopen])).elim
  | shutdown hk _ hopen => exact (hnot hk hopen).elim
  | written hk hopen _ => exact (hnot hk hopen).elim
  | closed hk hclosing _ _ _ => exact (hnot hk (by simp [hclosing])).elim
  | write rst =>
    obtain heq | ⟨k, s, n, hk, heq⟩ := write_cases c rst
    · rw [heq]
      exact ⟨hover, rfl⟩
    · rw [heq]
      refine ⟨fun o ho => ?_, rfl⟩
      obtain hold | rfl := List.mem_or_eq_of_mem_set ho
      · exact hover o hold
      · exact hover s (List.mem_of_getElem? hk)

/-! ### The timers -/

variable {r r' : Reconnecting} {t : Retry} {j : ℕ} {due : ℕ}

/-- `reConnect` makes a timer that is to expire. -/
theorem reConnect_eq (delay : ℕ) (r : Reconnecting) : ∃ t : Retry, t.Armed (r.now + delay) ∧
    r.reConnect delay = .ok { r with timers := r.timers ++ [t] } :=
  ⟨_, ⟨rfl, rfl, _, rfl, rfl, rfl⟩, rfl⟩

/-- The timer expires: it connects, and is being closed. -/
theorem step_expire (delay : ℕ) (ht : r.timers[j]? = some t) (harmed : t.Armed due) (rst : ℤ) :
    ∃ t' : Retry, t'.Spent ∧
    r.step delay (.expire j rst) = .ok { r with
      client := r.client.connect rst, timers := r.timers.set j t', attempts := r.attempts ++ [r.now] } := by
  obtain ⟨hdeleted, hcallback, u, hu, hopen, -⟩ := harmed
  have hprocess : (t.timer.process r.now).1.handle_ = some (u.expire r.now) := by
    rw [Timer.process, hu]
    rfl
  have hstate : (u.expire r.now).state = .inUse := by
    rw [UvTimer.expire]
    split <;> exact hopen
  obtain ⟨u', now, heq, -, hnone, -, hcases⟩ := (t.timer.process r.now).1.close_cases hprocess (some ())
  obtain ⟨-, hclosing, rfl⟩ | ⟨hnot, -, -⟩ := hcases
  · refine ⟨⟨{ (t.timer.process r.now).1 with closeComplete_ := some (), handle_ := some u' }, t.deleted⟩,
      .inl ⟨hdeleted, rfl, u', rfl, hclosing, hnone⟩, ?_⟩
    rw [step, ht]
    dsimp only
    rw [if_neg (by simp [hdeleted]), if_pos (show (t.timer.process r.now).2 = true from hcallback), onTimeOut, heq]
    rfl
  · exact absurd hstate hnot

/-- libuv has closed a timer: it is deleted. -/
theorem step_closed (delay : ℕ) (ht : r.timers[j]? = some t) (hspent : t.Spent) (hclosing : t.timer.Closing) :
    ∃ t' : Retry, t'.Spent ∧ r.step delay (.closed j) = .ok { r with timers := r.timers.set j t' } := by
  obtain ⟨u, hu, -⟩ := hclosing
  rcases hspent with ⟨hdeleted, hkept, -⟩ | ⟨-, hgone⟩
  · refine ⟨⟨{ t.timer with handle_ := none }, true⟩, .inr ⟨rfl, rfl⟩, ?_⟩
    rw [step, ht]
    dsimp only
    rw [if_neg (by simp [hdeleted]), Timer.closed, Timer.closeComplete, hkept]
    simp only [runCallback, deleteTimer, hdeleted, Bool.false_eq_true, if_false, Exec.ok_bind]
  · rw [hgone] at hu
    cases hu

/-! ### Every step -/

/-- A timer that has been closed is deleted, and nothing else changes. -/
theorem Stage.closed (h : Stage delay ok r) (hok : ok' → ok) (ht : r.timers[j]? = some t)
    (hclosing : t.timer.Closing) : ∃ r', r.step delay (.closed j) = .ok r' ∧ Stage delay ok' r' ∧
      r'.client = r.client ∧ r'.attempts = r.attempts ∧ r'.now = r.now := by
  cases h with
  | @waiting spent armed due last htimers hspent harmed hlast hdue hover =>
    rw [htimers, List.getElem?_append] at ht
    split at ht
    · next hlt =>
      have ht' : r.timers[j]? = some t := by
        rw [htimers, List.getElem?_append_left hlt, ht]
      obtain ⟨t', hspent', hstep⟩ := step_closed delay ht' (hspent t (List.mem_of_getElem? ht)) hclosing
      have hset : r.timers.set j t' = spent.set j t' ++ [armed] := by
        rw [htimers, List.set_append_left _ _ hlt]
      refine ⟨_, hstep, .waiting hset (fun o ho => ?_) harmed hlast hdue hover, rfl, rfl, rfl⟩
      obtain hold | rfl := List.mem_or_eq_of_mem_set ho
      · exact hspent o hold
      · exact hspent'
    · obtain ⟨hlt, heq⟩ := List.getElem?_eq_some_iff.mp ht
      rw [List.getElem_singleton] at heq
      subst heq
      exact absurd hclosing harmed.not_closing
  | busy hsockets hover hlatest hrole hspent =>
    obtain ⟨t', hspent', hstep⟩ := step_closed delay ht (hspent t (List.mem_of_getElem? ht)) hclosing
    refine ⟨_, hstep, .busy hsockets hover hlatest (hrole.of_eq hok rfl rfl) fun o ho => ?_, rfl, rfl, rfl⟩
    obtain hold | rfl := List.mem_or_eq_of_mem_set ho
    · exact hspent o hold
    · exact hspent'

/-- What is being read or shut down is the client's connection. -/
theorem Role.idle (h : Role ok c past.length socket) (hsockets : c.sockets = past ++ [socket])
    (hopen : socket.handle.state = .inUse ∨ socket.ending ≠ none)
    (hbusy : socket.data ≠ none ∨ socket.ending ≠ none) :
    c.Idle := by
  cases h with
  | connecting _ _ hdata hending => simp [hdata, hending] at hbusy
  | failing _ _ hdata hending => simp [hdata, hending] at hbusy
  | refused _ _ _ hdata hending => simp [hdata, hending] at hbusy
  | closing hclosing _ _ _ hending => simp [hclosing, hending] at hopen
  | @standing id link hopen _ _ _ _ _ _ hconnection hlink hhandle _ =>
    intro j hj
    rw [hconnection, Option.some.injEq] at hj
    subst hj
    have hget : c.sockets[link.handle_]? = some socket := by
      rw [hhandle, hsockets, List.getElem?_concat_length]
    rw [TcpClient.stateOf_eq hlink hget, hopen]
    decide

/-- A client that connects again never closes a connection twice. -/
theorem Stage.orderly {e : TcpClient.Event} (h : Stage delay ok r) (hmoves : r.client.Moves e c')
    (hclose : ∀ callback, e ≠ .close callback) : r.client.Orderly e := by
  have hidle {k : ℕ} {s : Socket} (hk : r.client.sockets[k]? = some s) (hnot : s.handle.state ≠ .closed)
      (hopen : s.handle.state = .inUse ∨ s.ending ≠ none) (hbusy : s.data ≠ none ∨ s.ending ≠ none) :
      r.client.Idle := by
    cases h with
    | waiting _ _ _ _ _ hover => exact absurd (hover s (List.mem_of_getElem? hk)) hnot
    | busy hsockets hover _ hrole _ =>
      obtain ⟨-, rfl⟩ := eq_last hover (hsockets ▸ hk) hnot
      exact hrole.idle hsockets hopen hbusy
  cases hmoves with
  | close callback => exact absurd rfl (hclose callback)
  | onMesageReceive nread rst hk hdata _ hopen _ =>
    exact fun _ _ _ _ _ _ _ => hidle hk (by simp [hopen]) (.inl hopen) (.inl (by simp [hdata]))
  | shutdown hk hending hopen =>
    exact fun _ _ _ _ _ => hidle hk hopen (.inr (by simp [hending])) (.inr (by simp [hending]))
  | _ => trivial

/-- Something happens to the client. -/
theorem Inv.client {e : TcpClient.Event} (h : Inv delay ok r) (hallows : r.Allows (.client e)) (hok : ok' → ok)
    (haccepted : ok' → Accepted (.client e)) : ∃ r', r.step delay (.client e) = .ok r' ∧ Inv delay ok' r' := by
  obtain ⟨hstage, hchain, ⟨last, hlast, hpast⟩, hsound⟩ := h
  have hconnect (rst : ℤ) : e ≠ .connect rst := by
    rintro rfl
    exact hallows
  have hclose (callback : Bool) : e ≠ .close callback := by
    rintro rfl
    exact hallows
  obtain ⟨client, hstep⟩ : ∃ client, r.client.step e = some client := by
    refine Option.isSome_iff_exists.mp ?_
    cases e with
    | connect rst => exact absurd rfl (hconnect rst)
    | close callback => exact absurd rfl (hclose callback)
    | _ => exact hallows
  have hmoves := TcpClient.moves_of_step hstep
  have hsound' : client.Inv := hsound.step (hstage.orderly hmoves hclose) hstep
  have hfold (told : List ConnectStatus) (htold : client.told = r.client.told ++ told) :
      r.step delay (.client e) = told.foldlM (onConnect delay) { r with client } := by
    rw [step, hstep]
    dsimp only
    rw [htold, List.drop_left]
  cases hstage with
  | waiting htimers hspent harmed hlast' hdue hover =>
    obtain ⟨hover', htold⟩ := over_of_moves hover hconnect hclose hmoves
    refine ⟨{ r with client }, ?_, .waiting htimers hspent harmed hlast' hdue hover', hchain, ⟨last, hlast, hpast⟩,
      hsound'⟩
    rw [hfold [] (by rw [htold, List.append_nil])]
    rfl
  | busy hsockets hover hlatest hrole hspent =>
    cases outcome_of_moves hsockets hover hlatest hrole hok haccepted hconnect hclose hmoves with
    | busy hsockets' hlength hover' hlatest' hrole' htold =>
      refine ⟨{ r with client }, ?_, ?_, hchain, ⟨last, hlast, hpast⟩, hsound'⟩
      · rcases htold with htold | htold
        · rw [hfold [] (by rw [htold, List.append_nil])]
          rfl
        · rw [hfold _ htold]
          rfl
      · exact .busy hsockets' hover' (hlatest'.trans (hlatest.trans (congrArg some hlength.symm)))
          (hlength ▸ hrole') hspent
    | @ended status hover' hstatus htold =>
      obtain ⟨t, harmed, heq⟩ := reConnect_eq delay { r with client }
      refine ⟨{ r with client, timers := r.timers ++ [t] }, ?_,
        .waiting rfl hspent harmed hlast (Nat.add_le_add_right hpast delay) hover', hchain, ⟨last, hlast, hpast⟩,
        hsound'⟩
      rw [hfold _ htold, List.foldlM_cons, onConnect, if_pos hstatus, heq]
      rfl

/-- A timer expires, and connects. -/
theorem Inv.expire {rst : ℤ} (h : Inv delay ok r) (hallows : r.Allows (.expire j rst)) (hrst : ok' → rst = 0) :
    ∃ r', r.step delay (.expire j rst) = .ok r' ∧ Inv delay ok' r' := by
  obtain ⟨hstage, hchain, -, hsound⟩ := h
  obtain ⟨t, ht, hdue⟩ := hallows
  cases hstage with
  | busy _ _ _ _ hspent => exact absurd hdue (hspent t (List.mem_of_getElem? ht)).not_due
  | @waiting spent armed due last' htimers hspent harmed hlast' hle hover =>
    have ht' := ht
    rw [htimers, List.getElem?_append] at ht'
    split at ht'
    · exact absurd hdue (hspent t (List.mem_of_getElem? ht')).not_due
    · next hge =>
      obtain ⟨hlt, heq⟩ := List.getElem?_eq_some_iff.mp ht'
      rw [List.length_singleton] at hlt
      rw [List.getElem_singleton] at heq
      subst heq
      obtain rfl : j = spent.length := by omega
      obtain ⟨t', hspent', hstep⟩ := step_expire delay ht harmed rst
      have hpassed : due ≤ r.now := by
        obtain ⟨u, due', hu, hdue', hle'⟩ := hdue
        obtain ⟨-, -, u', hu', -, hdue''⟩ := harmed
        rw [hu', Option.some.injEq] at hu
        subst hu
        rw [hdue'', Option.some.injEq] at hdue'
        rwa [hdue']
      refine ⟨_, hstep, ?_, ?_, ⟨r.now, List.getLast?_concat, Nat.le_refl _⟩, hsound.connect rst⟩
      · refine .busy rfl hover rfl ?_ fun o ho => ?_
        · by_cases hzero : rst = 0
          · exact .connecting rfl (decide_eq_true hzero) rfl rfl rfl
          · exact .refused (fun hok => hzero (hrst hok)) rfl (decide_eq_false hzero) rfl rfl rfl
        · rw [htimers, set_last] at ho
          obtain ho | ho := List.mem_append.mp ho
          · exact hspent o ho
          · rw [List.mem_singleton.mp ho]
            exact hspent'
      · refine List.isChain_append.mpr ⟨hchain, List.isChain_singleton _, fun a ha b hb => ?_⟩
        rw [Option.mem_def, hlast'] at ha
        cases ha
        cases hb
        exact hle.trans hpassed

/-- **A step**, whatever it is, does not fault, and keeps the invariant. -/
theorem Inv.step {e : Event} (h : Inv delay ok r) (hallows : r.Allows e) (hok : ok' → ok)
    (haccepted : ok' → Accepted e) : ∃ r', r.step delay e = .ok r' ∧ Inv delay ok' r' := by
  cases e with
  | advance ms =>
    obtain ⟨hstage, hchain, ⟨last, hlast, hpast⟩, hsound⟩ := h
    refine ⟨_, rfl, ?_, hchain, ⟨last, hlast, Nat.le_add_right_of_le hpast⟩, hsound⟩
    cases hstage with
    | waiting h1 h2 h3 h4 h5 h6 => exact .waiting h1 h2 h3 h4 h5 h6
    | busy h1 h2 h3 h4 h5 => exact .busy h1 h2 h3 (h4.of_eq hok rfl rfl) h5
  | client e => exact h.client hallows hok haccepted
  | expire j rst => exact h.expire hallows haccepted
  | closed j =>
    obtain ⟨t, ht, hclosing⟩ := hallows
    obtain ⟨r', hstep, hstage, hclient, hattempts, hnow⟩ := h.stage.closed hok ht hclosing
    refine ⟨r', hstep, hstage, ?_, ?_, ?_⟩
    · rw [hattempts]
      exact h.chain
    · rw [hattempts, hnow]
      exact h.past
    · rw [hclient]
      exact h.sound

/-- The first attempt. -/
theorem Inv.connectToServer (delay now : ℕ) {rst : ℤ} (hrst : ok → rst = 0) :
    Inv delay ok (connectToServer now rst) := by
  have hsockets : (Reconnecting.connectToServer now rst).client.sockets =
      [] ++ [⟨.init, none, rst = 0, none, false⟩] := rfl
  refine ⟨.busy hsockets (fun o ho => ?_) rfl ?_ fun t ht => ?_, List.isChain_singleton _, ⟨now, rfl, Nat.le_refl _⟩,
    TcpClient.Inv.new.connect rst⟩
  · cases ho
  · by_cases hzero : rst = 0
    · exact .connecting rfl (decide_eq_true hzero) rfl rfl rfl
    · exact .refused (fun hok => hzero (hrst hok)) rfl (decide_eq_false hzero) rfl rfl rfl
  · cases ht

/-! ### Every run -/

/-- Something is to come: a timer that is to expire, or something that libuv does to a handle. -/
def Underway (r : Reconnecting) : Prop :=
  (∃ t ∈ r.timers, t.active = true) ∨ ∃ s ∈ r.client.sockets, s.connecting = true ∨ s.handle.state = .closing ∨
    s.handle.reading = true ∨ s.ending ≠ none

theorem countP_over (hover : ∀ o ∈ past, Over o) : past.countP (fun s => s.handle.state ≠ .closed) = 0 :=
  List.countP_eq_zero.mpr fun o ho => by simpa [Over] using hover o ho

theorem countP_spent {spent : List Retry} (hspent : ∀ t ∈ spent, t.Spent) : spent.countP Retry.active = 0 :=
  List.countP_eq_zero.mpr fun t ht => Bool.eq_false_iff.mp (hspent t ht).active_eq

/-- **One thing at a time.** -/
theorem Stage.single (h : Stage delay ok r) :
    r.client.sockets.countP (fun s => s.handle.state ≠ .closed) + r.timers.countP Retry.active = 1 := by
  cases h with
  | waiting htimers hspent harmed _ _ hover =>
    rw [countP_over hover, htimers, List.countP_append, countP_spent hspent, List.countP_singleton,
      if_pos harmed.active_eq]
  | busy hsockets hover _ hrole hspent =>
    rw [countP_spent hspent, hsockets, List.countP_append, countP_over hover, List.countP_singleton, if_pos]
    cases hrole with
    | connecting hstate => simp [hstate]
    | failing hstate => simp [hstate]
    | standing hstate => simp [hstate]
    | closing hstate => simp [hstate]
    | refused _ hstate => simp [hstate]

/-- No handle is lost. -/
theorem Stage.allOwned (h : Stage delay ok r) : r.client.AllOwned := by
  intro k s hk hopen
  cases h with
  | waiting _ _ _ _ _ hover => exact absurd (hover s (List.mem_of_getElem? hk)) hopen
  | busy hsockets hover hlatest _ _ =>
    obtain ⟨rfl, -⟩ := eq_last hover (hsockets ▸ hk) hopen
    exact .inl hlatest

/-- The client never gives up, as long as libuv accepts what it is asked to do. -/
theorem Stage.underway (h : Stage delay ok r) (hok : ok) : r.Underway := by
  cases h with
  | @waiting spent t _ _ htimers _ harmed _ _ _ => exact .inl ⟨t, by simp [htimers], harmed.active_eq⟩
  | @busy past socket hsockets _ _ hrole _ =>
    refine .inr ⟨socket, by simp [hsockets], ?_⟩
    cases hrole with
    | connecting _ hconnecting => exact .inl hconnecting
    | failing hclosing => exact .inr (.inl hclosing)
    | standing _ _ _ _ _ _ hheard => exact .inr (.inr (hheard hok))
    | closing hclosing => exact .inr (.inl hclosing)
    | refused hnot => exact absurd hok hnot

/-- **A client that connects again**, in every run: it has one handle or one timer, and not both; it
loses no handle, and releases no connection before that is closed; two attempts are not closer than the
time it waits; nothing that has been deleted is used; and something is always to come, as long as libuv
accepts what it is asked to do. -/
theorem reconnects {now : ℕ} {rst : ℤ} {events : List Event}
    (hrun : Run (Steps (step delay) Allows) (connectToServer now rst) events r) :
    r.client.sockets.countP (fun s => s.handle.state ≠ .closed) + r.timers.countP Retry.active = 1 ∧
      r.client.AllOwned ∧ (∀ release ∈ r.client.released, release.state = .closed) ∧
      (r.attempts.IsChain fun a b => a + delay ≤ b) ∧
      (rst = 0 → (∀ e ∈ events, Accepted e) → r.Underway) ∧
      ∀ e, r.Allows e → Exec.Returns (r.step delay e) := by
  obtain ⟨hinv, hsafe⟩ := hrun.safe_events (fun events r => Inv delay (rst = 0 ∧ ∀ e ∈ events, Accepted e) r)
    (.connectToServer delay now fun h => h.1) fun events r e h hallows => by
    refine h.step hallows (fun hok => ⟨hok.1, fun e' he' => hok.2 e' (List.mem_append_left _ he')⟩) fun hok => ?_
    exact hok.2 e (List.mem_append_right _ (List.mem_singleton.mpr rfl))
  exact ⟨hinv.stage.single, hinv.stage.allOwned, hinv.sound.released, hinv.chain,
    fun hrst haccepted => hinv.stage.underway ⟨hrst, haccepted⟩, hsafe⟩

/-- The first attempt fails, and the second one succeeds. -/
def sampleEvents : List Event :=
  [.client (.onConnect 0 false []), .client (.closed 0), .advance 50, .expire 0 0, .closed 0,
    .client (.onConnect 1 true samplePeer)]

theorem reconnects_sample : ∃ r, Run (Steps (step RpcClient.delay) Allows) (connectToServer 0 0) sampleEvents r ∧
    r.attempts = [0, 50] ∧ r.client.told = [.OnConnnectFail, .OnConnectSuccess] ∧
    r.client.sockets.countP (fun s => s.handle.state ≠ .closed) + r.timers.countP Retry.active = 1 ∧
    r.Underway := by
  have hrun : Run (Steps (step RpcClient.delay) Allows) (connectToServer 0 0) [] _ := .nil _
  have hrun := hrun.snoc (a := Event.client (.onConnect 0 false [])) ⟨rfl, rfl⟩
  have hrun := hrun.snoc (a := Event.client (.closed 0)) ⟨rfl, rfl⟩
  have hrun := hrun.snoc (a := Event.advance 50) ⟨trivial, rfl⟩
  have hrun := hrun.snoc (a := Event.expire 0 0) ⟨⟨_, rfl, _, _, rfl, rfl, by decide⟩, rfl⟩
  have hrun := hrun.snoc (a := Event.closed 0) ⟨⟨_, rfl, _, rfl, rfl⟩, rfl⟩
  have hrun := hrun.snoc (a := Event.client (.onConnect 1 true samplePeer)) ⟨rfl, rfl⟩
  obtain ⟨hsingle, -, -, -, hunderway, -⟩ := reconnects hrun
  exact ⟨_, hrun, rfl, rfl, hsingle, hunderway rfl (by simp [Accepted])⟩

end Reconnecting

end UvCpp
