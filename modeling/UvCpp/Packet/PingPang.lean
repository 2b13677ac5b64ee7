import UvCpp.Packet.Stream
import UvCpp.Systems.Ring

/-!
# Ping and pang

The example `pingpang`: a client sends a message when its connection stands, the server sends back
what it receives, and so does the client. With a packet buffer both read packets out of what they
have received and send those back (`newMessage`); without one they send back the bytes.

What goes round is the message that was sent, whole, in every run and for ever (`goesRound`), with
either buffer and however the bytes are cut on their way. The same holds of any packets that fit
into the buffers together (`circulates`), and of any bytes when there is no buffer.
-/

namespace UvCpp

open UvCpp.Cpp UvCpp.Buffer UvCpp.Systems

/-- `GlobalConfig::BufferMode`. -/
inductive BufferMode where
  /-- Connections have no packet buffer. -/
  | NoBuffer
  /-- They have a cycle buffer. -/
  | CycleBuffer
  /-- They have a list buffer. -/
  | ListBuffer
  deriving DecidableEq

namespace PingPang

variable {β : Type} [PacketBuffer β]

/-- What both `newMessage`s do with received bytes, on a connection with the given packet buffer, if it
has one: the buffer, and what is written. The packets that are read are written one after another. -/
def newMessage (c : Packet.Settings) (BufferModeStatus : BufferMode) (packetbuf : Option β) (buf : Bytes) :
    Exec (Option β × Bytes) :=
  if BufferModeStatus = .NoBuffer then .ok (packetbuf, buf)
  else
    match packetbuf with
    | none => .ok (none, [])
    | some packetbuf => do
      let (packetbuf, packets) ← Packet.receive c packetbuf buf
      .ok (some packetbuf, (packets.map Packet.Buffer).flatten)

/-- `Client`. -/
structure Client (β : Type) where
  /-- The packet buffer of the connection. -/
  packetbuf : Option β
  /-- Whether it stands. -/
  connected : Bool

/-- `EchoServer`, as far as this connection goes. -/
structure EchoServer (β : Type) where
  /-- The packet buffer of the connection. -/
  packetbuf : Option β
  /-- How often something was received. -/
  cnt : UInt64

/-- `char data[1024] = "test message"`. -/
def testMessage : Bytes := resize (bytes "test message") 1024

theorem length_testMessage : testMessage.length = 1024 := length_resize _ _

/-- `Client::newMessage`. -/
def Client.newMessage (c : Packet.Settings) (mode : BufferMode) (x : Client β) (buf : Bytes) :
    Exec (Client β × Bytes) := do
  let (packetbuf, out) ← PingPang.newMessage c mode x.packetbuf buf
  .ok ({ x with packetbuf }, out)

/-- `EchoServer::newMessage`. -/
def EchoServer.newMessage (c : Packet.Settings) (mode : BufferMode) (x : EchoServer β) (buf : Bytes) :
    Exec (EchoServer β × Bytes) := do
  let cnt := x.cnt + 1
  let (packetbuf, out) ← PingPang.newMessage c mode x.packetbuf buf
  .ok (⟨packetbuf, cnt⟩, out)

/-- `Client::sendTestMessage`: what is written. -/
def sendTestMessage (c : Packet.Settings) (mode : BufferMode) : Exec Bytes :=
  if mode = .NoBuffer then .ok testMessage
  else do
    let packet ← Packet.new.pack c ⟨testMessage, by rw [length_testMessage]; decide⟩
    .ok packet.Buffer

/-- `Client::onConnect`, when the connection stands. -/
def Client.onConnect (c : Packet.Settings) (mode : BufferMode) (x : Client β) : Exec (Client β × Bytes) := do
  let out ← sendTestMessage c mode
  .ok ({ x with connected := true }, out)

/-- The client on the left, and the server on the right. -/
def parties (c : Packet.Settings) (mode : BufferMode) : Parties (Client β) (EchoServer β) Unit UInt8 where
  receiveLeft := Client.newMessage c mode
  receiveRight := EchoServer.newMessage c mode
  act x _ := x.onConnect c mode

/-- The connection stands at some time, and not twice. -/
def Allows (x : Duplex (Client β) (EchoServer β) UInt8) (e : Duplex.Event Unit) : Prop :=
  x.Arrives e ∧ match e with
    | .act _ => x.left.connected = false
    | _ => x.left.connected = true

/-- The beginning: both ends of the connection have a buffer, or have none. -/
def start (client server : Option β) : Duplex (Client β) (EchoServer β) UInt8 :=
  ⟨⟨client, false⟩, ⟨server, 0⟩, [], []⟩

/-! ### Without a buffer -/

/-- Bytes are frames of their own. -/
theorem relay_of_echo {σ : Type} {Inv : σ → Prop} {receive : σ → Bytes → Exec (σ × Bytes)}
    (h : ∀ x chunk, Inv x → ∃ y, receive x chunk = .ok (y, chunk) ∧ Inv y) :
    ∀ limit, Relay (fun b : UInt8 => [b]) (fun _ => True) limit Inv (fun _ => []) receive := by
  rintro limit x chunk ps qs r - hx - htext hr
  have hnil : r = [] := by
    obtain hnil | ⟨b, -, -, hlt⟩ := hr
    · exact hnil
    · exact List.length_eq_zero_iff.mp (Nat.lt_one_iff.mp hlt)
  subst hnil
  rw [List.nil_append, List.append_nil] at htext
  obtain ⟨y, hreceive, hy⟩ := h x chunk hx
  exact ⟨y, htext ▸ hreceive, hy, rfl⟩

theorem relay_client_bytes (c : Packet.Settings) (limit : ℕ) : Relay (fun b : UInt8 => [b]) (fun _ => True) limit
    (fun x : Client β => x.connected = true) (fun _ => []) (Client.newMessage c .NoBuffer) :=
  relay_of_echo (fun x _ hx => ⟨x, rfl, hx⟩) limit

theorem relay_server_bytes (c : Packet.Settings) (limit : ℕ) : Relay (fun b : UInt8 => [b]) (fun _ => True) limit
    (fun _ : EchoServer β => True) (fun _ => []) (EchoServer.newMessage c .NoBuffer) :=
  relay_of_echo (fun x _ _ => ⟨⟨x.packetbuf, x.cnt + 1⟩, rfl, trivial⟩) limit

/-- The bytes that go round, without a buffer. -/
abbrev GoingBytes (bytes : Bytes) (x : Duplex (Client β) (EchoServer β) UInt8) : Prop :=
  Circulates (fun b : UInt8 => [b]) (fun x : Client β => x.connected = true) (fun _ => [])
    (fun _ : EchoServer β => True) (fun _ => []) bytes x

/-- Frames of one byte each are the bytes. -/
theorem flatten_bytes (bs : Bytes) : (bs.map fun b => [b]).flatten = bs := by
  rw [← List.flatMap_def, List.flatMap_singleton']

/-- **Without a buffer the bytes of the message go round**, none lost, doubled or overtaken, in every run. -/
theorem bytesGoRound (c : Packet.Settings) {x : Duplex (Client β) (EchoServer β) UInt8}
    {events : List (Duplex.Event Unit)}
    (hrun : Run (Steps (Duplex.step (parties c .NoBuffer)) Allows) (start none none) events x) :
    (∀ e, Allows x e → Exec.Returns (x.step (parties c .NoBuffer) e)) ∧
      (x.left.connected = true → (x.toLeft ++ x.toRight) ~r testMessage) := by
  obtain ⟨hx, hsafe⟩ := hrun.safe (fun x => x = start none none ∨ GoingBytes testMessage x)
    (.inl rfl) fun x e hx he => by
    obtain rfl | hx := hx
    · cases e with
      | toRight n => cases he.2
      | toLeft n => cases he.2
      | act a =>
        have hact : (parties c .NoBuffer).act (⟨none, false⟩ : Client β) a = .ok (⟨none, true⟩, testMessage) := rfl
        refine ⟨_, Duplex.step_act hact, .inr ⟨rfl, trivial, [], testMessage, ⟨rfl, by simp⟩, ⟨?_, by simp⟩, .refl _⟩⟩
        exact (flatten_bytes _).symm
    · cases e with
      | toRight n =>
        obtain ⟨y, hstep, hy, -⟩ := hx.toRight (p := parties c .NoBuffer) (relay_server_bytes c _)
          (fun _ _ => trivial) (fun _ _ => List.cons_ne_nil _ _) le_rfl n
        exact ⟨y, hstep, .inr hy⟩
      | toLeft n =>
        obtain ⟨y, hstep, hy, -⟩ := hx.toLeft (p := parties c .NoBuffer) (relay_client_bytes c _)
          (fun _ _ => trivial) (fun _ _ => List.cons_ne_nil _ _) le_rfl n
        exact ⟨y, hstep, .inr hy⟩
      | act a =>
        have hconnected := he.2
        rw [hx.left] at hconnected
        cases hconnected
  refine ⟨hsafe, fun hconnected => ?_⟩
  obtain rfl | hx := hx
  · cases hconnected
  · obtain ⟨toClient, toServer, hclient, hserver, hrot⟩ := hx.frames
    have hclient := hclient.text
    have hserver := hserver.text
    rw [flatten_bytes, List.nil_append] at hclient hserver
    rwa [hclient, hserver]

theorem bytesGoRound_sample : ∃ x : Duplex (Client ListBuffer) (EchoServer ListBuffer) UInt8,
    Run (Steps (Duplex.step (parties Packet.Settings.initial .NoBuffer)) Allows) (start none none)
      [.act (), .toRight 1000] x ∧ (x.toLeft ++ x.toRight) ~r testMessage := by
  have hrun : Run (Steps (Duplex.step (parties Packet.Settings.initial .NoBuffer)) Allows)
      (start none none : Duplex (Client ListBuffer) (EchoServer ListBuffer) UInt8) [.act ()]
      ⟨⟨none, true⟩, ⟨none, 0⟩, testMessage, []⟩ := .snoc (.nil _) ⟨⟨trivial, rfl⟩, rfl⟩
  have harrives : 0 < 1000 ∧ 1000 ≤ testMessage.length := ⟨by decide, by rw [length_testMessage]; decide⟩
  have hrun := hrun.snoc (a := Duplex.Event.toRight 1000) ⟨⟨harrives, rfl⟩, rfl⟩
  exact ⟨_, hrun, (bytesGoRound _ hrun).2 rfl⟩

/-! ### Both parties relay -/

/-- What a packet buffer holds, if there is one. -/
def heldBy [LawfulPacketBuffer β] (packetbuf : Option β) : Bytes :=
  packetbuf.elim [] LawfulPacketBuffer.contents

open LawfulPacketBuffer

variable [LawfulPacketBuffer β] {c : Packet.Settings} {mode : BufferMode} {limit : ℕ}

/-- With a buffer that can hold all there is, whole packets are written back. -/
theorem newMessage_eq (hmode : mode ≠ .NoBuffer) (hfit : ∀ n ≤ limit, Fits β n) {b : β} (hb : Valid b)
    {chunk : Bytes} {ps qs : List Packet} {r : Bytes} (hgood : ∀ p ∈ ps ++ qs, Packet.Good c p)
    (hlimit : (contents b ++ chunk).length ≤ limit) (h : contents b ++ chunk = (ps.map Packet.Buffer).flatten ++ r)
    (hr : Partial Packet.Buffer qs r) :
    ∃ b', newMessage c mode (some b) chunk = .ok (some b', (ps.map Packet.Buffer).flatten) ∧ Valid b' ∧
      contents b' = r := by
  have hfit : Fits β ((contents b).length + chunk.length) := by
    rw [← List.length_append]
    exact hfit _ hlimit
  obtain ⟨b₁, happ, -, -⟩ := append_of_fits hb hfit
  obtain ⟨b', hreceive, hb', hheld⟩ := Packet.receive_eq hb ⟨b₁, happ⟩ hgood h hr
  refine ⟨b', ?_, hb', hheld⟩
  rw [newMessage, if_neg hmode, hreceive]
  rfl

theorem relay_client (hmode : mode ≠ .NoBuffer) (hfit : ∀ n ≤ limit, Fits β n) :
    Relay Packet.Buffer (Packet.Good c) limit
      (fun x : Client β => x.connected = true ∧ ∃ b, x.packetbuf = some b ∧ Valid b)
      (fun x => heldBy x.packetbuf) (Client.newMessage c mode) := by
  rintro ⟨_, connected⟩ chunk ps qs r hgood ⟨hconnected, b, rfl, hb⟩ hlimit h hr
  obtain ⟨b', hnew, hb', hheld⟩ := newMessage_eq hmode hfit hb hgood hlimit h hr
  exact ⟨⟨some b', connected⟩, by rw [Client.newMessage, hnew]; rfl, ⟨hconnected, b', rfl, hb'⟩, hheld⟩

theorem relay_server (hmode : mode ≠ .NoBuffer) (hfit : ∀ n ≤ limit, Fits β n) :
    Relay Packet.Buffer (Packet.Good c) limit (fun x : EchoServer β => ∃ b, x.packetbuf = some b ∧ Valid b)
      (fun x => heldBy x.packetbuf) (EchoServer.newMessage c mode) := by
  rintro ⟨_, cnt⟩ chunk ps qs r hgood ⟨b, rfl, hb⟩ hlimit h hr
  obtain ⟨b', hnew, hb', hheld⟩ := newMessage_eq hmode hfit hb hgood hlimit h hr
  exact ⟨⟨some b', cnt + 1⟩, by rw [EchoServer.newMessage, hnew]; rfl, ⟨b', rfl, hb'⟩, hheld⟩

/-! ### What goes round -/

/-- Packets go round: those on their way to the client, and then those on their way to the server, are a
rotation of them, and either side holds no more than a part of one. -/
structure PacketsGoRound (c : Packet.Settings) (mode : BufferMode) (packets : List Packet)
    (x : Duplex (Client β) (EchoServer β) UInt8) : Prop where
  /-- What can happen next does not fault. -/
  safe : ∀ e, Allows x e → Exec.Returns (x.step (parties c mode) e)
  /-- None is lost, doubled or overtaken. -/
  order : ∃ toClient toServer,
    Approaching Packet.Buffer (heldBy x.left.packetbuf) x.toLeft toClient ∧
    Approaching Packet.Buffer (heldBy x.right.packetbuf) x.toRight toServer ∧
    (toClient ++ toServer) ~r packets
  /-- As long as there are any, something can arrive. -/
  underWay : packets ≠ [] → x.toRight ≠ [] ∨ x.toLeft ≠ []

/-- The state of a connection that stands, with packets going round. -/
abbrev Going (packets : List Packet) (x : Duplex (Client β) (EchoServer β) UInt8) : Prop :=
  Circulates Packet.Buffer (fun x : Client β => x.connected = true ∧ ∃ b, x.packetbuf = some b ∧ Valid b)
    (fun x => heldBy x.packetbuf) (fun x : EchoServer β => ∃ b, x.packetbuf = some b ∧ Valid b)
    (fun x => heldBy x.packetbuf) packets x

/-- Packets are on their way to the server. -/
theorem Going.sent {packets : List Packet} (hgood : ∀ p ∈ packets, Packet.Good c p) {client server : β}
    (hclient : Valid client) (hserver : Valid server) (hnil : contents client = []) (hnil' : contents server = []) :
    Going packets ⟨⟨some client, true⟩, ⟨some server, 0⟩, (packets.map Packet.Buffer).flatten, []⟩ := by
  refine ⟨⟨rfl, client, rfl, hclient⟩, ⟨server, rfl, hserver⟩, [], packets, ⟨?_, by simp⟩, ⟨?_, ?_⟩, .refl _⟩
  · exact (List.append_nil _).trans hnil
  · simp [heldBy, hnil']
  · intro p hp
    rw [show heldBy (some server) = [] from hnil']
    exact List.length_pos_of_ne_nil (hgood p (List.mem_of_mem_head? hp)).buffer_ne_nil

/-- **The step lemma.** -/
theorem Going.step {packets : List Packet} {x : Duplex (Client β) (EchoServer β) UInt8}
    (hx : Going packets x) (hmode : mode ≠ .NoBuffer) (hgood : ∀ p ∈ packets, Packet.Good c p)
    (hfit : ∀ n ≤ (packets.map Packet.Buffer).flatten.length, Fits β n) {e : Duplex.Event Unit}
    (he : Allows x e) : ∃ y, x.step (parties c mode) e = .ok y ∧ Going packets y := by
  cases e with
  | toRight n =>
    obtain ⟨y, hstep, hy, -⟩ := hx.toRight (p := parties c mode) (relay_server hmode hfit) hgood
      (fun p => Packet.Good.buffer_ne_nil) le_rfl n
    exact ⟨y, hstep, hy⟩
  | toLeft n =>
    obtain ⟨y, hstep, hy, -⟩ := hx.toLeft (p := parties c mode) (relay_client hmode hfit) hgood
      (fun p => Packet.Good.buffer_ne_nil) le_rfl n
    exact ⟨y, hstep, hy⟩
  | act a =>
    have hconnected := he.2
    rw [hx.left.1] at hconnected
    cases hconnected

/-- **Packets go round**, any that fit into the buffers together, from any state of the connection in which
they are on their way, and for ever. -/
theorem circulates (c : Packet.Settings) (mode : BufferMode) (hmode : mode ≠ .NoBuffer)
    (packets : List Packet) (hgood : ∀ p ∈ packets, Packet.Good c p)
    (hfit : ∀ n ≤ (packets.map Packet.Buffer).flatten.length, Fits β n)
    {x y : Duplex (Client β) (EchoServer β) UInt8} (hx : Going packets x) {events : List (Duplex.Event Unit)}
    (hrun : Run (Steps (Duplex.step (parties c mode)) Allows) x events y) :
    PacketsGoRound c mode packets y := by
  obtain ⟨hy, hsafe⟩ := hrun.safe _ hx fun x e hx he => hx.step hmode hgood hfit he
  exact ⟨hsafe, hy.frames, hy.underWay⟩

/-- The packet that is sent. -/
def testPacket (c : Packet.Settings) : Packet := ⟨Packet.packed c testMessage, testMessage.length⟩

theorem good_testPacket : Packet.Good c (testPacket c) :=
  ⟨testMessage, by rw [length_testMessage]; decide, rfl⟩

/-- Two packets. -/
def twoPackets : List Packet := [testPacket Packet.Settings.initial, testPacket Packet.Settings.initial]

/-- They are on their way to the server. -/
def twoUnderWay : Duplex (Client ListBuffer) (EchoServer ListBuffer) UInt8 :=
  ⟨⟨some .new, true⟩, ⟨some .new, 0⟩, (twoPackets.map Packet.Buffer).flatten, []⟩

theorem circulates_sample : ∃ y,
    Run (Steps (Duplex.step (parties Packet.Settings.initial .ListBuffer)) Allows) twoUnderWay [.toRight 1500] y ∧
    PacketsGoRound Packet.Settings.initial .ListBuffer twoPackets y := by
  have hmode : BufferMode.ListBuffer ≠ .NoBuffer := by decide
  have hgood : ∀ p ∈ twoPackets, Packet.Good Packet.Settings.initial p := by
    simpa [twoPackets] using good_testPacket
  have hfit : ∀ n ≤ (twoPackets.map Packet.Buffer).flatten.length, Fits ListBuffer n := fun _ _ => rfl
  have hgoing : Going twoPackets twoUnderWay := Going.sent hgood trivial trivial rfl rfl
  have hallows : Allows twoUnderWay (.toRight 1500) := by
    refine ⟨⟨by decide, ?_⟩, rfl⟩
    simp [twoUnderWay, twoPackets, testPacket, Packet.Buffer, length_testMessage]
  obtain ⟨y, hstep, -⟩ := hgoing.step hmode hgood hfit hallows
  have hrun : Run (Steps (Duplex.step (parties Packet.Settings.initial .ListBuffer)) Allows) twoUnderWay
      [.toRight 1500] y := .snoc (.nil _) ⟨hallows, hstep⟩
  exact ⟨y, hrun, circulates _ _ hmode twoPackets hgood hfit hgoing hrun⟩

/-! ### The message -/

theorem length_testPacket (c : Packet.Settings) : ([testPacket c].map Packet.Buffer).flatten.length = 1028 := by
  simp [testPacket, Packet.Buffer, length_testMessage]

theorem sendTestMessage_eq (hmode : mode ≠ .NoBuffer) : sendTestMessage c mode = .ok (testPacket c).Buffer := by
  rw [sendTestMessage, if_neg hmode, Packet.pack_eq]
  rfl

/-- Where a single packet is. -/
theorem Going.single {p : Packet} {x : Duplex (Client β) (EchoServer β) UInt8} (hx : Going [p] x) :
    heldBy x.left.packetbuf ++ x.toLeft = p.Buffer ∧ heldBy x.right.packetbuf ++ x.toRight = [] ∨
      heldBy x.left.packetbuf ++ x.toLeft = [] ∧ heldBy x.right.packetbuf ++ x.toRight = p.Buffer := by
  obtain ⟨toClient, toServer, hclient, hserver, hrot⟩ := hx.frames
  rw [hclient.text, hserver.text]
  rw [List.isRotated_singleton_iff, List.append_eq_singleton_iff] at hrot
  obtain ⟨rfl, rfl⟩ | ⟨rfl, rfl⟩ := hrot
  · exact .inr ⟨rfl, List.append_nil _⟩
  · exact .inl ⟨List.append_nil _, rfl⟩

/-- The connection stands, and the message is on its way. -/
theorem Going.connected (hmode : mode ≠ .NoBuffer) {client server : β} (hclient : Valid client)
    (hserver : Valid server) (hnil : contents client = []) (hnil' : contents server = []) :
    ∃ y, (start (some client) (some server)).step (parties c mode) (.act ()) = .ok y ∧ Going [testPacket c] y ∧
      y.toRight.length = 1028 := by
  have hact : (parties c mode).act ⟨some client, false⟩ () =
      .ok (⟨some client, true⟩, (testPacket c).Buffer) := by
    simp only [parties, Client.onConnect, sendTestMessage_eq hmode, Exec.ok_bind]
  have hgood : ∀ p ∈ [testPacket c], Packet.Good c p := by simpa using good_testPacket
  have hgoing := Going.sent hgood hclient hserver hnil hnil'
  have hlen := length_testPacket c
  rw [List.map_singleton, List.flatten_singleton] at hgoing hlen
  exact ⟨_, Duplex.step_act hact, hgoing, hlen⟩

/-- What holds of the example with a packet buffer: the message is whole, on its way to one side. -/
structure MessageGoesRound (c : Packet.Settings) (mode : BufferMode)
    (x : Duplex (Client β) (EchoServer β) UInt8) : Prop where
  /-- What can happen next does not fault. -/
  safe : ∀ e, Allows x e → Exec.Returns (x.step (parties c mode) e)
  /-- The packet is nowhere else. -/
  whole : x.left.connected = true →
    heldBy x.left.packetbuf ++ x.toLeft = Packet.packed c testMessage ∧
        heldBy x.right.packetbuf ++ x.toRight = [] ∨
      heldBy x.left.packetbuf ++ x.toLeft = [] ∧
        heldBy x.right.packetbuf ++ x.toRight = Packet.packed c testMessage
  /-- It never rests. -/
  underWay : x.left.connected = true → x.toRight ≠ [] ∨ x.toLeft ≠ []

/-- **The message goes round**, in every run, if there is room for it in the buffers. -/
theorem goesRound (c : Packet.Settings) (mode : BufferMode) (hmode : mode ≠ .NoBuffer) {client server : β}
    (hclient : Valid client) (hserver : Valid server) (hnil : contents client = []) (hnil' : contents server = [])
    (hfit : ∀ n ≤ 1028, Fits β n) {x : Duplex (Client β) (EchoServer β) UInt8}
    {events : List (Duplex.Event Unit)}
    (hrun : Run (Steps (Duplex.step (parties c mode)) Allows) (start (some client) (some server)) events x) :
    MessageGoesRound c mode x := by
  obtain ⟨hx, hsafe⟩ := hrun.safe (fun x => x = start (some client) (some server) ∨ Going [testPacket c] x)
    (.inl rfl) fun x e hx he => by
    obtain rfl | hx := hx
    · cases e with
      | toRight n => cases he.2
      | toLeft n => cases he.2
      | act a =>
        obtain ⟨y, hstep, hy, -⟩ := Going.connected (c := c) hmode hclient hserver hnil hnil'
        exact ⟨y, hstep, .inr hy⟩
    · obtain ⟨y, hstep, hy⟩ := hx.step hmode (by simpa using good_testPacket)
        (by rwa [length_testPacket]) he
      exact ⟨y, hstep, .inr hy⟩
  refine ⟨hsafe, fun hconnected => ?_, fun hconnected => ?_⟩
  · obtain rfl | hx := hx
    · cases hconnected
    · exact hx.single
  · obtain rfl | hx := hx
    · cases hconnected
    · exact hx.underWay (List.cons_ne_nil _ _)

/-- A cycle buffer of two kilobytes. -/
def sampleBuffer : CycleBuffer 2048 := .new ⟨List.replicate 2048 0, List.length_replicate⟩

/-- The packet comes to the server in two parts and is written back, and a byte of it comes to the client. -/
theorem goesRound_sample : ∃ x,
    Run (Steps (Duplex.step (parties Packet.Settings.initial .CycleBuffer)) Allows)
      (start (some sampleBuffer) (some sampleBuffer)) [.act (), .toRight 1000, .toRight 28, .toLeft 1] x ∧
    MessageGoesRound Packet.Settings.initial .CycleBuffer x := by
  have hmode : BufferMode.CycleBuffer ≠ .NoBuffer := by decide
  have hvalid : Valid sampleBuffer := CycleBuffer.valid_new _ (by decide)
  have hnil : contents sampleBuffer = [] := CycleBuffer.contents_new _
  have hfit : ∀ n ≤ 1028, Fits (CycleBuffer 2048) n := fun n hn => decide_eq_true (show n < 2048 by omega)
  have hgood : ∀ p ∈ [testPacket Packet.Settings.initial], Packet.Good Packet.Settings.initial p := by
    simpa using good_testPacket
  have hroom := hfit
  rw [← length_testPacket Packet.Settings.initial] at hroom
  obtain ⟨x₁, h₁, hgoing₁, hlen₁⟩ := Going.connected (c := Packet.Settings.initial) hmode hvalid hvalid hnil hnil
  have he₁ : Allows x₁ (.toRight 1000) := ⟨⟨by decide, by omega⟩, hgoing₁.left.1⟩
  obtain ⟨x₂, h₂, hgoing₂⟩ := hgoing₁.step hmode hgood hroom he₁
  have hlen₂ : x₂.toRight.length = 28 := by
    rw [(Duplex.eq_of_step_toRight h₂).2, List.length_drop, hlen₁]
  have he₂ : Allows x₂ (.toRight 28) := ⟨⟨by decide, by omega⟩, hgoing₂.left.1⟩
  obtain ⟨x₃, h₃, hgoing₃⟩ := hgoing₂.step hmode hgood hroom he₂
  have hleft : x₃.toLeft ≠ [] := by
    refine (hgoing₃.underWay (List.cons_ne_nil _ _)).resolve_left (not_not.mpr ?_)
    rw [(Duplex.eq_of_step_toRight h₃).2, ← hlen₂, List.drop_length]
  have he₃ : Allows x₃ (.toLeft 1) := ⟨⟨by decide, List.length_pos_of_ne_nil hleft⟩, hgoing₃.left.1⟩
  obtain ⟨x₄, h₄, -⟩ := hgoing₃.step hmode hgood hroom he₃
  have hrun : Run (Steps (Duplex.step (parties Packet.Settings.initial .CycleBuffer)) Allows)
      (start (some sampleBuffer) (some sampleBuffer)) [.act (), .toRight 1000, .toRight 28, .toLeft 1] x₄ :=
    .snoc (.snoc (.snoc (.snoc (.nil _) ⟨⟨trivial, rfl⟩, h₁⟩) ⟨he₁, h₂⟩) ⟨he₂, h₃⟩) ⟨he₃, h₄⟩
  exact ⟨x₄, hrun, goesRound _ _ hmode hvalid hvalid hnil hnil hfit hrun⟩

end PingPang

end UvCpp
