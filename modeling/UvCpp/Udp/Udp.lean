import UvCpp.Systems.Blocks
import UvCpp.Systems.Duplex
import UvCpp.Tcp.SocketAddr

/-!
# UDP

A socket reads a datagram into an array that it has allocated for it, hands it to the callback, and releases the
array. `send` gives libuv a pointer, and an object that the callback of `uv_udp_send` releases. libuv hands the
datagram to the system at once if it can; otherwise it keeps the pointer, and reads the memory later. The caller
is not told when.

The callback of the echo in the example `all_example` answers a datagram with the array it was read into. So the
answer must be sent at once: if it waits, it is read from an array that has been released. That is the one thing
that can go wrong (`late_iff`). An object for a datagram that libuv refuses is never released.
-/

namespace UvCpp

open UvCpp.Cpp UvCpp.Systems

/-- A datagram that libuv has not handed to the system yet. -/
structure UdpSend (ipv : IPV) where
  /-- Its `uv_udp_send_t`, as a place among all there have been. -/
  handle : ℕ
  /-- The array it lies in. -/
  base : ℕ
  /-- Its size. -/
  size : ℕ
  /-- Where it goes. -/
  addr : sockaddr ipv
  /-- What lay there when it was passed. -/
  data : Bytes

/-- A datagram with an address. -/
abbrev Message (ipv : IPV) := sockaddr ipv × Bytes

/-- `uv::Udp`, its handle, and the memory of its program. -/
structure Udp (ipv : IPV) (κ : Type) where
  /-- The callback for messages; the one of the example's echo answers. -/
  onMessageCallback_ : Option Bool
  /-- The close callback. -/
  onClose_ : Option κ
  /-- How far the handle has been closed. -/
  state : HandleState
  /-- Whether libuv reads. -/
  reading : Bool
  /-- The arrays there have been. -/
  memory : Blocks UInt8
  /-- The arrays of the program that stay. -/
  lasting : List ℕ
  /-- The `uv_udp_send_t` there have been. -/
  handles : Blocks Unit
  /-- The datagrams that wait, the oldest first. -/
  waiting : List (UdpSend ipv)
  /-- The `uv_udp_send_t` whose callbacks are due. -/
  completed : List ℕ
  /-- The `uv_udp_send_t` of datagrams that libuv has refused. -/
  refused : List ℕ
  /-- The messages the callback has been given, with their senders. -/
  arrived : List (Message ipv)
  /-- The datagrams libuv has accepted from the program's own arrays, with where they go. -/
  said : List (Message ipv)
  /-- The datagrams libuv has accepted, with where they go. -/
  accepted : List (Message ipv)
  /-- The datagrams the system has been handed. -/
  sent : List (Message ipv)
  /-- The close callbacks that have run. -/
  told : List κ

namespace Udp

variable {ipv : IPV} {κ : Type}

/-- A new socket, with a callback for messages. -/
def new (onMessageCallback_ : Option Bool) : Udp ipv κ :=
  ⟨onMessageCallback_, none, .inUse, false, [], [], [], [], [], [], [], [], [], [], []⟩

/-- `bindAndRead`, when `uv_udp_bind` returns `bound` and `uv_udp_recv_start` returns `rst`. -/
def bindAndRead (s : Udp ipv κ) (bound rst : ℤ) : Udp ipv κ :=
  if bound ≠ 0 then s else { s with reading := s.reading || rst = 0 }

/-- libuv hands the oldest datagram that waits to the system. -/
def sendmsg (s : Udp ipv κ) : Exec (Udp ipv κ) :=
  match s.waiting with
  | [] => .ok s
  | r :: waiting => do
    let data ← s.memory.read r.base 0 r.size
    .ok { s with waiting, completed := s.completed ++ [r.handle], sent := s.sent ++ [(r.addr, data)] }

/-- `send` of an array with `data` in it, when `uv_udp_send` returns `rst`, and hands the datagram to the system at
once if `now` is true. -/
def send (s : Udp ipv κ) (dest : SocketAddr ipv) (buf : ℕ) (data : Bytes) (rst : ℤ) (now : Bool) :
    Exec (Udp ipv κ) :=
  let sendHandle := s.handles.length
  let s := { s with handles := s.handles.alloc [] }
  if rst ≠ 0 then .ok { s with refused := s.refused ++ [sendHandle] }
  else
    let s := { s with
      waiting := s.waiting ++ [⟨sendHandle, buf, data.length, dest.Addr, data⟩],
      accepted := s.accepted ++ [(dest.Addr, data)] }
    if now then s.sendmsg else .ok s

/-- A message is sent from an array of the program, which is gone afterwards unless it `stays`. -/
def say (s : Udp ipv κ) (dest : SocketAddr ipv) (data : Bytes) (rst : ℤ) (now stays : Bool) : Exec (Udp ipv κ) := do
  let buf := s.memory.length
  let s := { s with
    memory := s.memory.alloc data
    lasting := if stays then s.lasting ++ [buf] else s.lasting
    said := if rst = 0 then s.said ++ [(dest.Addr, data)] else s.said }
  let s ← s.send dest buf data rst now
  if stays then .ok s
  else
    let memory ← s.memory.release buf
    .ok { s with memory }

/-- The callback for messages: that of the echo sends what it is given back, from where it lies. -/
def callback (s : Udp ipv κ) (answers : Bool) (addr : SocketAddr ipv) (buf size : ℕ) (rst : ℤ) (now : Bool) :
    Exec (Udp ipv κ) := do
  let msg ← s.memory.read buf 0 size
  let s := { s with arrived := s.arrived ++ [(addr.Addr, msg)] }
  if answers then s.send addr buf msg rst now else .ok s

variable (inet_ntop : BitVec 128 → Bytes)

/-- `onMessage`. -/
def onMessage (s : Udp ipv κ) (src : sockaddr ipv) (buf size : ℕ) (rst : ℤ) (now : Bool) : Exec (Udp ipv κ) :=
  match s.onMessageCallback_ with
  | none => .ok s
  | some answers => s.callback answers (.ofSockaddr inet_ntop src) buf size rst now

/-- `onMesageReceive`: an error and an empty datagram are not handed on, and the array is released. -/
def onMesageReceive (s : Udp ipv κ) (nread : ℤ) (buf : ℕ) (src : sockaddr ipv) (rst : ℤ) (now : Bool) :
    Exec (Udp ipv κ) := do
  let s ← if 0 < nread then s.onMessage inet_ntop src buf nread.toNat rst now else .ok s
  let memory ← s.memory.release buf
  .ok { s with memory }

/-- `close`: libuv drops what it reads, and closes the handle unless it is closed or being closed. -/
def close (s : Udp ipv κ) (callback : Option κ) : Udp ipv κ :=
  let s := { s with onClose_ := callback, reading := false }
  if s.state = .inUse then { s with state := .closing } else { s with told := s.told ++ callback.toList }

/-- `onCloseCompleted`. -/
def onCloseCompleted (s : Udp ipv κ) : Udp ipv κ := { s with told := s.told ++ s.onClose_.toList }

/-- What happens. -/
inductive Event (ipv : IPV) (κ : Type) where
  /-- The program calls `bindAndRead`. -/
  | bindAndRead (bound rst : ℤ)
  /-- libuv has read into an array, which then is `buffer`; `rst` and `now` are for the answer. -/
  | receive (nread : ℤ) (buffer : Bytes) (src : sockaddr ipv) (rst : ℤ) (now : Bool)
  /-- The program sends a message. -/
  | say (dest : SocketAddr ipv) (data : Bytes) (rst : ℤ) (now stays : Bool)
  /-- libuv hands the oldest datagram that waits to the system. -/
  | sendmsg
  /-- libuv gives up the datagrams that wait. -/
  | cancel
  /-- The callback of `uv_udp_send` runs, which releases the object. -/
  | sendDone
  /-- The program calls `close`. -/
  | close (callback : Option κ)
  /-- libuv has closed the handle. -/
  | closed

/-- A step. -/
def step (s : Udp ipv κ) : Event ipv κ → Exec (Udp ipv κ)
  | .bindAndRead bound rst => .ok (s.bindAndRead bound rst)
  | .receive nread buffer src rst now =>
    { s with memory := s.memory.alloc buffer }.onMesageReceive inet_ntop nread s.memory.length src rst now
  | .say dest data rst now stays => s.say dest data rst now stays
  | .sendmsg => s.sendmsg
  | .cancel => .ok { s with waiting := [], completed := s.completed ++ s.waiting.map UdpSend.handle }
  | .sendDone =>
    match s.completed with
    | [] => .ok s
    | handle :: completed => do
      let handles ← s.handles.release handle
      .ok { s with handles, completed }
  | .close callback => .ok (s.close callback)
  | .closed => .ok { s with state := .closed }.onCloseCompleted

/-- What can happen: libuv reads and accepts only on a handle that is in use, hands a datagram to the system at
once only if none waits before it, and gives up what waits, and runs the callbacks, before it has closed a
handle. -/
def Allows (s : Udp ipv κ) : Event ipv κ → Prop
  | .bindAndRead _ rst => rst = 0 → s.state = .inUse
  | .receive nread buffer _ _ now => s.state = .inUse ∧ s.reading = true ∧ nread ≤ buffer.length ∧
      (now = true → s.waiting = [])
  | .say _ _ rst now _ => (rst = 0 → s.state = .inUse) ∧ (now = true → s.waiting = [])
  | .sendmsg => s.state = .inUse ∧ s.waiting ≠ []
  | .cancel => s.state = .closing
  | .sendDone => s.completed ≠ []
  | .close _ => True
  | .closed => s.state = .closing ∧ s.waiting = [] ∧ s.completed = []

/-- A datagram is due that lies in memory that has been released. -/
def Late (s : Udp ipv κ) (e : Event ipv κ) : Prop :=
  e = .sendmsg ∧ ∃ r waiting, s.waiting = r :: waiting ∧ s.memory[r.base]? = some none

/-- The message that an event brings. -/
def Event.brings : Event ipv κ → List (Message ipv)
  | .receive nread buffer src _ _ => if 0 < nread then [(src, buffer.take nread.toNat)] else []
  | _ => []

/-! ### What holds of a socket -/

/-- A datagram lies where it lay when it was passed. -/
def Lies (memory : Blocks UInt8) (buf : ℕ) (data : Bytes) : Prop :=
  ∃ block, memory[buf]? = some (some block) ∧ data <+: block

/-- The objects that have been allocated for datagrams, and not released. -/
def owned (s : Udp ipv κ) : List ℕ := s.waiting.map UdpSend.handle ++ s.completed ++ s.refused

/-- What waits, as it was passed. -/
def unsent (s : Udp ipv κ) : List (Message ipv) := s.waiting.map fun r => (r.addr, r.data)

/-- What holds in every run, while the array `buf` is in use, if one is. -/
structure Inv (buf : Option ℕ) (s : Udp ipv κ) : Prop where
  /-- Every array has been released but those that stay. -/
  arrays : s.memory.Owned (buf.toList ++ s.lasting)
  /-- Every object has been released but those of the datagrams that wait, are done, or have been refused. -/
  objects : s.handles.Owned s.owned
  /-- A datagram that waits lies where it lay, or its array has been released. -/
  lies : ∀ r ∈ s.waiting, r.size = r.data.length ∧ (s.memory[r.base]? = some none ∨ Lies s.memory r.base r.data)
  /-- The system is handed what was accepted, in its order. -/
  order : s.sent ++ s.unsent <+: s.accepted
  /-- Nothing is given up while the handle is in use. -/
  whole : s.state = .inUse → s.sent ++ s.unsent = s.accepted
  /-- What was accepted comes from the program, or is the answer of an echo. -/
  sources : ∀ m ∈ s.accepted, m ∈ s.said ∨ s.onMessageCallback_ = some true ∧ m ∈ s.arrived

/-- What a step adds. -/
structure Follows (s : Udp ipv κ) (brings : List (Message ipv)) (s' : Udp ipv κ) : Prop where
  /-- The callback is given what the event brings, or nothing. -/
  arrived : ∀ m ∈ s'.arrived, m ∈ s.arrived ∨ m ∈ brings
  /-- What has been sent stays so. -/
  sent : s.sent <+: s'.sent

variable {inet_ntop} {s s' : Udp ipv κ} {buf : ℕ} {data : Bytes} {x : Option ℕ}

theorem Inv.new (onMessageCallback_ : Option Bool) : Inv none (Udp.new onMessageCallback_ : Udp ipv κ) where
  arrays := .nil
  objects := .nil
  lies := fun r hr => by cases hr
  order := List.prefix_rfl
  whole := fun _ => rfl
  sources := fun m hm => by cases hm

/-- A datagram that lies where it lay is read as it was. -/
theorem Lies.read {memory : Blocks UInt8} (h : Lies memory buf data) : memory.read buf 0 data.length = .ok data := by
  obtain ⟨block, hblock, hwithin⟩ := h
  rw [Blocks.read_of_live hblock (by simpa using hwithin.length_le), List.drop_zero,
    ← List.prefix_iff_eq_take.mp hwithin]

/-- The oldest datagram that waits is handed to the system, if it lies where it lay. -/
theorem sendmsg_of_lies {r : UdpSend ipv} {waiting : List (UdpSend ipv)} (hwaiting : s.waiting = r :: waiting)
    (hsize : r.size = r.data.length) (hlies : Lies s.memory r.base r.data) : s.sendmsg =
      .ok { s with waiting, completed := s.completed ++ [r.handle], sent := s.sent ++ [(r.addr, r.data)] } := by
  rw [sendmsg, hwaiting]
  dsimp only
  rw [hsize, hlies.read]
  rfl

theorem sendmsg_of_released {r : UdpSend ipv} {waiting : List (UdpSend ipv)} (hwaiting : s.waiting = r :: waiting)
    (hreleased : s.memory[r.base]? = some none) : s.sendmsg = .error .undefined := by
  rw [sendmsg, hwaiting]
  dsimp only
  rw [Blocks.read_of_released hreleased]
  rfl

/-- A datagram is handed to the system: it is done, and has been sent. -/
theorem Inv.sendmsg (h : Inv x s) {r : UdpSend ipv} {waiting : List (UdpSend ipv)}
    (hwaiting : s.waiting = r :: waiting) :
    Inv x { s with waiting, completed := s.completed ++ [r.handle], sent := s.sent ++ [(r.addr, r.data)] } where
  arrays := h.arrays
  objects := by
    refine h.objects.perm ?_
    rw [owned, owned, hwaiting, ← List.append_assoc]
    exact (List.perm_append_singleton r.handle _).symm.append_right s.refused
  lies := fun r' hr' => h.lies r' (hwaiting ▸ List.mem_cons_of_mem _ hr')
  order := by
    have horder := h.order
    rw [unsent, hwaiting, List.map_cons] at horder
    rw [unsent, List.append_assoc]
    exact horder
  whole := fun hopen => by
    have hwhole := h.whole hopen
    rw [unsent, hwaiting, List.map_cons] at hwhole
    rw [unsent, List.append_assoc]
    exact hwhole
  sources := h.sources

/-- A datagram that lies in an array is passed to libuv, and waits. -/
theorem Inv.accept (h : Inv x s) {addr : sockaddr ipv} (hlies : Lies s.memory buf data) (hopen : s.state = .inUse)
    (hsource : (addr, data) ∈ s.said ∨ s.onMessageCallback_ = some true ∧ (addr, data) ∈ s.arrived) :
    Inv x { s with
      handles := s.handles.alloc []
      waiting := s.waiting ++ [⟨s.handles.length, buf, data.length, addr, data⟩]
      accepted := s.accepted ++ [(addr, data)] } where
  arrays := h.arrays
  objects := by
    refine (h.objects.alloc []).perm ?_
    rw [owned, owned, List.map_append]
    simpa using List.perm_middle.symm
  lies := by
    intro r hr
    rcases List.mem_append.mp hr with hr | hr
    · exact h.lies r hr
    · rw [List.mem_singleton.mp hr]
      exact ⟨rfl, .inr hlies⟩
  order := by
    rw [← h.whole hopen, unsent, unsent, List.map_append, ← List.append_assoc]
    exact List.prefix_rfl
  whole := fun _ => by
    rw [← h.whole hopen, unsent, unsent, List.map_append, ← List.append_assoc]
    rfl
  sources := by
    intro m hm
    rcases List.mem_append.mp hm with hm | hm
    · exact h.sources m hm
    · rw [List.mem_singleton.mp hm]
      exact hsource

/-- A datagram is passed to libuv, which refuses it: its object is never released. -/
theorem Inv.refuse (h : Inv x s) : Inv x { s with
    handles := s.handles.alloc []
    refused := s.refused ++ [s.handles.length] } where
  arrays := h.arrays
  objects := by
    refine (h.objects.alloc []).perm ?_
    rw [owned, owned, ← List.append_assoc]
    exact (List.perm_append_singleton _ _).symm
  lies := h.lies
  order := h.order
  whole := h.whole
  sources := h.sources

/-- The datagram that lies in the array is passed to libuv. -/
theorem Inv.send (h : Inv x s) (dest : SocketAddr ipv) (rst : ℤ) (now : Bool) (hlies : Lies s.memory buf data)
    (hopen : rst = 0 → s.state = .inUse) (hnow : now = true → s.waiting = [])
    (hsource : rst = 0 →
      (dest.Addr, data) ∈ s.said ∨ s.onMessageCallback_ = some true ∧ (dest.Addr, data) ∈ s.arrived) :
    ∃ s', s.send dest buf data rst now = .ok s' ∧ Inv x s' ∧ s'.arrived = s.arrived ∧ s.sent <+: s'.sent := by
  rw [Udp.send]
  dsimp only
  by_cases hrst : rst = 0
  · have haccept := h.accept hlies (hopen hrst) (hsource hrst)
    rw [if_neg (not_not_intro hrst)]
    cases now with
    | false => exact ⟨_, rfl, haccept, rfl, List.prefix_rfl⟩
    | true =>
      -- nothing waits before it
      have hwaiting : s.waiting ++ [⟨s.handles.length, buf, data.length, dest.Addr, data⟩] =
          [⟨s.handles.length, buf, data.length, dest.Addr, data⟩] := by rw [hnow rfl]; rfl
      rw [if_pos rfl]
      exact ⟨_, sendmsg_of_lies hwaiting rfl hlies, haccept.sendmsg hwaiting, rfl, List.prefix_append _ _⟩
  · rw [if_pos hrst]
    exact ⟨_, rfl, h.refuse, rfl, List.prefix_rfl⟩

/-! ### Steps -/

/-- An array is allocated. -/
theorem Inv.alloc (h : Inv none s) (block : Bytes) :
    Inv (some s.memory.length) { s with memory := s.memory.alloc block } := by
  refine ⟨h.arrays.alloc block, h.objects, fun r hr => ?_, h.order, h.whole, h.sources⟩
  have hkept {a : ℕ} {b : Option Bytes} (ha : s.memory[a]? = some b) : (s.memory.alloc block)[a]? = some b := by
    obtain ⟨hlt, -⟩ := List.getElem?_eq_some_iff.mp ha
    rw [Blocks.alloc, Blocks.getElem?_concat_of_ne _ (Nat.ne_of_lt hlt), ha]
  obtain ⟨hsize, hgone | ⟨b, hb, hwithin⟩⟩ := h.lies r hr
  · exact ⟨hsize, .inl (hkept hgone)⟩
  · exact ⟨hsize, .inr ⟨b, hkept hb, hwithin⟩⟩

/-- The array is released. -/
theorem Inv.release (h : Inv (some buf) s) :
    s.memory.release buf = .ok (s.memory.set buf none) ∧ Inv none { s with memory := s.memory.set buf none } := by
  have howned : s.memory.Owned (buf :: s.lasting) := h.arrays
  obtain ⟨hrelease, harrays⟩ := howned.release
  obtain ⟨block, hblock⟩ := (h.arrays.live buf).mpr List.mem_cons_self
  refine ⟨hrelease, harrays, h.objects, fun r hr => ?_, h.order, h.whole, h.sources⟩
  obtain ⟨hsize, hlies⟩ := h.lies r hr
  refine ⟨hsize, ?_⟩
  by_cases heq : r.base = buf
  · rw [heq]
    exact .inl (Blocks.getElem?_release hblock)
  · rwa [Lies, List.getElem?_set_ne (Ne.symm heq), ← Lies]

/-- A message has arrived, and lies in an array. -/
theorem Inv.onMessage (inet_ntop : BitVec 128 → Bytes) (h : Inv (some buf) s) (src : sockaddr ipv) (rst : ℤ)
    (now : Bool) (hlies : Lies s.memory buf data) (hopen : s.state = .inUse)
    (hnow : now = true → s.waiting = []) :
    ∃ s', s.onMessage inet_ntop src buf data.length rst now = .ok s' ∧ Inv (some buf) s' ∧
      Follows s [(src, data)] s' := by
  rw [Udp.onMessage]
  split
  · exact ⟨s, rfl, h, ⟨fun _ hm => .inl hm, List.prefix_rfl⟩⟩
  · next answers hcallback =>
    have harrived : Inv (some buf) { s with arrived := s.arrived ++ [(src, data)] } :=
      ⟨h.arrays, h.objects, h.lies, h.order, h.whole, fun m hm =>
        (h.sources m hm).imp_right fun ⟨hecho, hmem⟩ => ⟨hecho, List.mem_append_left _ hmem⟩⟩
    rw [callback, hlies.read]
    cases answers with
    | false =>
      exact ⟨_, rfl, harrived, fun m hm => List.mem_append.mp hm, List.prefix_rfl⟩
    | true =>
      obtain ⟨s', hs', hinv, heq, hsent⟩ := harrived.send (.ofSockaddr inet_ntop src) rst now hlies
        (fun _ => hopen) hnow fun _ => .inr ⟨hcallback, List.mem_append_right _ List.mem_cons_self⟩
      have heq : s'.arrived = s.arrived ++ [(src, data)] := heq
      exact ⟨s', hs', hinv, fun m hm => List.mem_append.mp (heq ▸ hm), hsent⟩

/-- libuv has read into an array. -/
theorem Inv.receive (h : Inv none s) {nread rst : ℤ} {buffer : Bytes} {src : sockaddr ipv} {now : Bool}
    (hallows : s.Allows (.receive nread buffer src rst now)) :
    ∃ s', s.step inet_ntop (.receive nread buffer src rst now) = .ok s' ∧ Inv none s' ∧
      Follows s (Event.receive nread buffer src rst now : Event ipv κ).brings s' := by
  obtain ⟨hopen, -, hle, hnow⟩ := hallows
  have halloc := h.alloc buffer
  have hrelease (t : Udp ipv κ) (ht : Inv (some s.memory.length) t) : ∃ s',
      (do let memory ← t.memory.release s.memory.length; .ok { t with memory }) = (.ok s' : Exec (Udp ipv κ)) ∧
        Inv none s' ∧ s'.arrived = t.arrived ∧ s'.sent = t.sent := by
    obtain ⟨hmemory, hinv⟩ := ht.release
    exact ⟨_, by rw [hmemory]; rfl, hinv, rfl, rfl⟩
  rw [step, onMesageReceive, Event.brings]
  split
  · next hpos =>
    have hlies : Lies (s.memory.alloc buffer) s.memory.length (buffer.take nread.toNat) :=
      ⟨buffer, Blocks.getElem?_alloc_self _ _, List.take_prefix _ _⟩
    have hlength : (buffer.take nread.toNat).length = nread.toNat := by
      rw [List.length_take]
      omega
    obtain ⟨t, ht, hinv, hfollows⟩ := halloc.onMessage inet_ntop src rst now hlies hopen hnow
    rw [hlength] at ht
    obtain ⟨s', hs', hinv', harrived, hsent⟩ := hrelease t hinv
    rw [ht]
    exact ⟨s', hs', hinv', fun m hm => hfollows.arrived m (harrived ▸ hm), hsent ▸ hfollows.sent⟩
  · obtain ⟨s', hs', hinv, harrived, hsent⟩ := hrelease _ halloc
    exact ⟨s', hs', hinv, fun m hm => .inl (harrived ▸ hm), hsent ▸ List.prefix_rfl⟩

/-- The program sends a message. -/
theorem Inv.say (h : Inv none s) {dest : SocketAddr ipv} {rst : ℤ} {now stays : Bool}
    (hallows : s.Allows (.say dest data rst now stays)) :
    ∃ s', s.step inet_ntop (.say dest data rst now stays) = .ok s' ∧ Inv none s' ∧ Follows s [] s' := by
  obtain ⟨hopen, hnow⟩ := hallows
  have halloc := h.alloc data
  have hlies : Lies (s.memory.alloc data) s.memory.length data :=
    ⟨data, Blocks.getElem?_alloc_self _ _, List.prefix_rfl⟩
  have hsources (said : List (Message ipv)) (hsaid : s.said ⊆ said) : ∀ m ∈ s.accepted,
      m ∈ said ∨ s.onMessageCallback_ = some true ∧ m ∈ s.arrived := fun m hm => (h.sources m hm).imp_left (@hsaid m)
  have hsaid : s.said ⊆ if rst = 0 then s.said ++ [(dest.Addr, data)] else s.said := by
    split
    · exact List.subset_append_left _ _
    · exact List.Subset.refl _
  have hsource (hrst : rst = 0) : (dest.Addr, data) ∈ if rst = 0 then s.said ++ [(dest.Addr, data)] else s.said := by
    rw [if_pos hrst]
    exact List.mem_append_right _ List.mem_cons_self
  rw [step, Udp.say]
  cases stays with
  | true =>
    have harrays : (s.memory.alloc data).Owned (s.lasting ++ [s.memory.length]) :=
      halloc.arrays.perm (List.perm_append_singleton _ _).symm
    have hinv : Inv none { s with
        memory := s.memory.alloc data
        lasting := s.lasting ++ [s.memory.length]
        said := if rst = 0 then s.said ++ [(dest.Addr, data)] else s.said } :=
      ⟨harrays, halloc.objects, halloc.lies, halloc.order, halloc.whole, hsources _ hsaid⟩
    obtain ⟨s', hs', hinv', harrived, hsent⟩ :=
      hinv.send dest rst now hlies hopen hnow fun hrst => .inl (hsource hrst)
    have harrived : s'.arrived = s.arrived := harrived
    refine ⟨s', ?_, hinv', fun m hm => .inl (harrived ▸ hm), hsent⟩
    simp only [if_true]
    rw [hs']
    rfl
  | false =>
    have hinv : Inv (some s.memory.length) { s with
        memory := s.memory.alloc data
        said := if rst = 0 then s.said ++ [(dest.Addr, data)] else s.said } :=
      ⟨halloc.arrays, halloc.objects, halloc.lies, halloc.order, halloc.whole, hsources _ hsaid⟩
    obtain ⟨t, ht, hinv', harrived, hsent⟩ := hinv.send dest rst now hlies hopen hnow fun hrst => .inl (hsource hrst)
    obtain ⟨hmemory, hinv''⟩ := hinv'.release
    have harrived : t.arrived = s.arrived := harrived
    refine ⟨_, ?_, hinv'', fun m hm => .inl (harrived ▸ hm), hsent⟩
    simp only [Bool.false_eq_true, if_false]
    rw [ht, Exec.ok_bind, hmemory]
    rfl

/-- **A step does not fault**, unless a datagram is late. -/
theorem Inv.step (inet_ntop : BitVec 128 → Bytes) (h : Inv none s) {e : Event ipv κ} (hallows : s.Allows e)
    (hlate : ¬ s.Late e) :
    ∃ s', s.step inet_ntop e = .ok s' ∧ Inv none s' ∧ Follows s e.brings s' := by
  cases e with
  | bindAndRead bound rst =>
    refine ⟨_, rfl, ?_, ?_⟩
    · rw [bindAndRead]
      split
      · exact h
      · exact ⟨h.arrays, h.objects, h.lies, h.order, h.whole, h.sources⟩
    · rw [bindAndRead]
      split
      · exact ⟨fun _ hm => .inl hm, List.prefix_rfl⟩
      · exact ⟨fun _ hm => .inl hm, List.prefix_rfl⟩
  | receive nread buffer src rst now => exact h.receive hallows
  | say dest data rst now stays => exact h.say hallows
  | sendmsg =>
    obtain ⟨-, hne⟩ := hallows
    obtain ⟨r, waiting, hwaiting⟩ := List.exists_cons_of_ne_nil hne
    obtain ⟨hsize, hgone | hlies⟩ := h.lies r (hwaiting ▸ List.mem_cons_self)
    · exact absurd ⟨rfl, r, waiting, hwaiting, hgone⟩ hlate
    · exact ⟨_, sendmsg_of_lies hwaiting hsize hlies, h.sendmsg hwaiting, fun _ hm => .inl hm, List.prefix_append _ _⟩
  | cancel =>
    refine ⟨_, rfl, ⟨h.arrays, ?_, fun r hr => (by cases hr), ?_, fun hopen => ?_, h.sources⟩,
      fun _ hm => .inl hm, List.prefix_rfl⟩
    · refine h.objects.perm ?_
      rw [owned, owned]
      exact List.perm_append_comm.append_right _
    · rw [unsent, List.map_nil, List.append_nil]
      exact (List.prefix_append _ _).trans h.order
    · have hclosing : s.state = .closing := hallows
      rw [hclosing] at hopen
      cases hopen
  | sendDone =>
    obtain ⟨handle, completed, hcompleted⟩ := List.exists_cons_of_ne_nil hallows
    have hperm : s.owned.Perm (handle :: (s.waiting.map UdpSend.handle ++ completed ++ s.refused)) := by
      rw [owned, hcompleted]
      exact List.perm_middle.append_right _
    obtain ⟨hrelease, hobjects⟩ := (h.objects.perm hperm).release
    refine ⟨{ s with handles := s.handles.set handle none, completed }, ?_, ?_,
      fun _ hm => .inl hm, List.prefix_rfl⟩
    · rw [Udp.step, hcompleted]
      dsimp only
      rw [hrelease]
      rfl
    · exact ⟨h.arrays, hobjects, h.lies, h.order, h.whole, h.sources⟩
  | close callback =>
    refine ⟨_, rfl, ?_, ?_⟩
    · rw [Udp.close]
      dsimp only
      split
      · exact ⟨h.arrays, h.objects, h.lies, h.order, fun hopen => (by cases hopen), h.sources⟩
      · exact ⟨h.arrays, h.objects, h.lies, h.order, h.whole, h.sources⟩
    · rw [Udp.close]
      dsimp only
      split
      · exact ⟨fun _ hm => .inl hm, List.prefix_rfl⟩
      · exact ⟨fun _ hm => .inl hm, List.prefix_rfl⟩
  | closed =>
    exact ⟨_, rfl, ⟨h.arrays, h.objects, h.lies, h.order, fun hopen => (by cases hopen), h.sources⟩,
      fun _ hm => .inl hm, List.prefix_rfl⟩

/-- A step that returns keeps what holds. -/
theorem Inv.of_step (h : Inv none s) {e : Event ipv κ} (hallows : s.Allows e) (hstep : s.step inet_ntop e = .ok s') :
    Inv none s' ∧ Follows s e.brings s' := by
  by_cases hlate : s.Late e
  · obtain ⟨rfl, r, waiting, hwaiting, hgone⟩ := hlate
    rw [Udp.step, sendmsg_of_released hwaiting hgone] at hstep
    cases hstep
  · obtain ⟨t, ht, hinv⟩ := h.step inet_ntop hallows hlate
    obtain rfl : t = s' := Except.ok.inj (ht.symm.trans hstep)
    exact hinv

theorem inv_of_run {onMessageCallback_ : Option Bool} {events : List (Event ipv κ)}
    (hrun : Run (Steps (step inet_ntop) Allows) (Udp.new onMessageCallback_) events s) : Inv none s :=
  hrun.invariant (.new _) fun _ _ _ h hstep => (h.of_step hstep.1 hstep.2).1

/-- A peer. -/
def samplePeer : sockaddr .Ipv4 := sockaddr_in.mk (htons 10004) ⟨127, 0, 0, 1⟩

end Udp

end UvCpp
