import UvCpp.Packet.Packet
import UvCpp.Buffer.ListBuffer
import UvCpp.Buffer.CycleBuffer
import UvCpp.Systems.Framing

/-!
# A stream of packets

Packets are sent one after another and arrive in chunks. The receiver appends each
chunk to its packet buffer and reads packets until there is none (`receive`).

Packets are frames: in one step the receiver takes out the whole packets it holds and
keeps the rest (`receive_eq`). So the packets sent are the packets received, in order,
however the bytes were cut (`packets_delivered`). The data of a packet may contain the
head byte and the end byte; the size tells where a packet ends.
-/

namespace UvCpp.Packet

open UvCpp.Cpp UvCpp.Buffer UvCpp.Systems

variable {β : Type} [PacketBuffer β]

/-- `while (0 == buffer->readPacket(packet))`, for at most so many rounds: the buffer and
the packets read. -/
def readPackets (c : Settings) : ℕ → β → Exec (β × List Packet)
  | 0, _ => .error .loops
  | fuel + 1, b => do
    let (code, b, p) ← readFromBuffer c b Packet.new
    if code = 0 then
      let (b, ps) ← readPackets c fuel b
      .ok (b, p :: ps)
    else .ok (b, [])

/-- A chunk arrives: it is appended, and packets are read until there is none. -/
def receive (c : Settings) (b : β) (chunk : Bytes) : Exec (β × List Packet) := do
  let (_, b) ← PacketBuffer.append b chunk
  readPackets c (PacketBuffer.readSize b + 1) b

/-- The buffer takes each chunk as it arrives. -/
def Accepts (c : Settings) (b : β) (chunks : List Bytes) : Prop :=
  AllSteps (receive c) (fun b chunk => ∃ b', PacketBuffer.append b chunk = .ok (0, b')) b chunks

/-- From the chunks the receiver reads packets with the given data, and its buffer ends
empty. -/
def Delivers (c : Settings) (b : β) (chunks data : List Bytes) : Prop :=
  ∃ b' packets, runAll (receive c) b chunks = .ok (b', packets) ∧
    List.Forall₂ (fun p d => p.DataSize = d.length ∧ p.data = .ok d) packets.flatten data ∧
      PacketBuffer.readSize b' = 0

/-! ### What the receiver does in a step -/

variable {c : Settings}

/-- A packet that can be read back. -/
def Good (c : Settings) (p : Packet) : Prop := ∃ d, d.length ≤ 65531 ∧ p = ⟨packed c d, d.length⟩

theorem Good.buffer_ne_nil {p : Packet} (hp : Good c p) : p.Buffer ≠ [] := by
  obtain ⟨d, -, rfl⟩ := hp
  exact List.cons_ne_nil _ _

/-- The data of a packet is what was packed. -/
theorem data_packed (d : Bytes) : (⟨packed c d, d.length⟩ : Packet).data = .ok d := by
  have h : (⟨packed c d, d.length⟩ : Packet).getData = d ++ [c.EndByte, 0] := by
    rw [getData, c_str, packed, List.append_assoc, List.append_assoc]
    exact List.drop_left' (by simp)
  rw [data, h, DataSize, slice_eq (by simp), List.drop_zero, List.take_left]

theorem length_le_flatten {ps : List Packet} (h : ∀ p ∈ ps, Good c p) :
    ps.length ≤ (ps.map Buffer).flatten.length := by
  induction ps with
  | nil => simp
  | cons p ps ih =>
    have := ih fun q hq => h q (List.mem_cons_of_mem p hq)
    obtain ⟨d, -, rfl⟩ := h p List.mem_cons_self
    simp only [List.map_cons, List.flatten_cons, List.length_append, List.length_cons, Packet.Buffer,
      length_packed]
    omega

open LawfulPacketBuffer

variable [LawfulPacketBuffer β] {b : β}

/-- Whole packets are read one by one, and the rest stays. -/
theorem readPackets_eq (hb : Valid b) {ps qs : List Packet} {r : Bytes}
    (hps : ∀ p ∈ ps ++ qs, Good c p) (h : contents b = (ps.map Buffer).flatten ++ r)
    (hr : Partial Packet.Buffer qs r) {fuel : ℕ} (hfuel : ps.length < fuel) :
    ∃ b', readPackets c fuel b = .ok (b', ps) ∧ Valid b' ∧ contents b' = r := by
  induction ps generalizing b fuel with
  | nil =>
    obtain ⟨fuel, rfl⟩ := Nat.exists_eq_add_one_of_ne_zero (Nat.ne_zero_of_lt hfuel)
    refine ⟨b, ?_, hb, h⟩
    have hread : readFromBuffer c b Packet.new = .ok (-1, b, Packet.new) := by
      obtain rfl | ⟨p, hp, hpre, hlt⟩ := hr
      · exact readFromBuffer_partial (d := []) hb (by simp) (h ▸ List.nil_prefix) (by simp [h]) _
      · obtain ⟨d, hd, rfl⟩ := hps p hp
        exact readFromBuffer_partial hb hd (h ▸ hpre) (h ▸ hlt) _
    simp [readPackets, hread]
  | cons p ps ih =>
    obtain ⟨fuel, rfl⟩ := Nat.exists_eq_add_one_of_ne_zero (Nat.ne_zero_of_lt hfuel)
    obtain ⟨d, hd, rfl⟩ := hps p (by simp)
    rw [List.map_cons, List.flatten_cons, List.append_assoc] at h
    obtain ⟨b', hread, hb', hrest⟩ := readFromBuffer_packed hb (by omega) h Packet.new
    obtain ⟨b'', hreads, hb'', hr⟩ := ih hb' (fun q hq => hps q (List.mem_cons_of_mem _ hq)) hrest
      (Nat.lt_of_succ_lt_succ hfuel)
    exact ⟨b'', by simp [readPackets, hread, hreads], hb'', hr⟩

/-- **One step of the receiver**: it takes out the whole packets and keeps the rest. -/
theorem receive_eq (hb : Valid b) {chunk : Bytes}
    (hok : ∃ b', PacketBuffer.append b chunk = .ok (0, b')) {ps qs : List Packet} {r : Bytes}
    (hps : ∀ p ∈ ps ++ qs, Good c p) (h : contents b ++ chunk = (ps.map Buffer).flatten ++ r)
    (hr : Partial Packet.Buffer qs r) :
    ∃ b', receive c b chunk = .ok (b', ps) ∧ Valid b' ∧ contents b' = r := by
  by_cases hfit : Fits β ((contents b).length + chunk.length)
  · obtain ⟨b₁, happ, hb₁, hc₁⟩ := append_of_fits hb hfit
    have hlen := length_le_flatten fun p hp => hps p (List.mem_append_left qs hp)
    have hfuel : ps.length < PacketBuffer.readSize b₁ + 1 := by
      rw [readSize_eq hb₁, hc₁, h, List.length_append]
      omega
    obtain ⟨b', hreads, hb', hr⟩ := readPackets_eq hb₁ hps (hc₁.trans h) hr hfuel
    exact ⟨b', by simp [receive, happ, hreads], hb', hr⟩
  · obtain ⟨b', hb'⟩ := hok
    simp [append_of_not_fits hb hfit] at hb'

/-- Packets sent in any chunks are delivered, as long as the buffer takes each chunk. -/
theorem delivers_of_accepts (hb : Valid b) (hnil : contents b = []) {data chunks : List Bytes}
    (hdata : ∀ d ∈ data, d.length ≤ 65531) (h : chunks.flatten = (data.map (packed c)).flatten)
    (hok : Accepts c b chunks) : Delivers c b chunks data := by
  have hgood : ∀ p ∈ data.map fun d => (⟨packed c d, d.length⟩ : Packet), Good c p := by
    rintro p hp
    obtain ⟨d, hd, rfl⟩ := List.mem_map.mp hp
    exact ⟨d, hdata d hd, rfl⟩
  obtain ⟨b', packets, hrun, hb', hpackets, hnil'⟩ := runAll_delivers
    (fun _ _ _ _ _ hps hb hok h hr => receive_eq hb hok hps h hr) hgood hb hok
    (by rw [hnil, List.nil_append, h, List.map_map]; rfl)
    (by rintro p hp
        obtain ⟨d, -, rfl⟩ := hgood p (List.mem_of_mem_head? hp)
        simp [hnil, Packet.Buffer])
  refine ⟨b', packets, hrun, ?_, by rw [readSize_eq hb', hnil', List.length_nil]⟩
  rw [hpackets, List.forall₂_map_left_iff]
  exact List.forall₂_same.mpr fun d _ => ⟨rfl, data_packed d⟩

/-! ### The two buffers -/

/-- A list buffer takes every chunk. -/
theorem accepts_listBuffer (chunks : List Bytes) : Accepts c ListBuffer.new chunks :=
  fun _ _ _ _ _ _ _ => ⟨_, rfl⟩

/-- A cycle buffer without room for a byte takes no byte. -/
theorem append_of_size_zero {array : {a : Bytes // a.length = 0}} {chunk : Bytes}
    {b : CycleBuffer 0} (h : PacketBuffer.append (CycleBuffer.new array) chunk = .ok (0, b)) :
    chunk = [] ∧ b = CycleBuffer.new array := by
  obtain ⟨a, ha⟩ := array
  obtain rfl := List.length_eq_zero_iff.mp ha
  cases chunk with
  | nil =>
    cases h
    exact ⟨rfl, rfl⟩
  | cons x chunk =>
    change CycleBuffer.append _ _ = _ at h
    have hinfo : (CycleBuffer.new (⟨[], ha⟩ : {a : Bytes // a.length = 0})).usableSizeInfo =
      ⟨2 ^ 64 - 1, 2 ^ 64 - 1, 0⟩ := rfl
    rw [CycleBuffer.append, hinfo] at h
    by_cases hlong : 2 ^ 64 - 1 < (x :: chunk).length
    · simp only [if_pos hlong] at h
      cases h
    · simp only [if_neg hlong, if_pos (not_lt.mp hlong)] at h
      cases h

theorem delivers_of_size_zero {array : {a : Bytes // a.length = 0}} {chunks : List Bytes}
    (hok : Accepts c (CycleBuffer.new array) chunks) :
    chunks.flatten = [] ∧ Delivers c (CycleBuffer.new array) chunks [] := by
  have hread : PacketBuffer.readSize (CycleBuffer.new array) = 0 := rfl
  induction chunks with
  | nil => exact ⟨rfl, CycleBuffer.new array, [], rfl, .nil, hread⟩
  | cons chunk chunks ih =>
    obtain ⟨b, happ⟩ := hok.head
    obtain ⟨rfl, rfl⟩ := append_of_size_zero happ
    have hrec : receive c (CycleBuffer.new array) [] = .ok (CycleBuffer.new array, []) := by
      simp [receive, happ, hread, readPackets, readFromBuffer, readFromBufferLoop, PacketMinSize]
    obtain ⟨hnil, b, packets, hrun, hpackets, hsize⟩ := ih (hok.tail hrec)
    exact ⟨hnil, b, [] :: packets, runAll_cons_of hrec hrun, hpackets, hsize⟩

/-- **Packets sent are packets received.** Data of up to 65531 bytes can be packed, under
any settings, and however the bytes of the packets are cut, a receiver with a new list
buffer reads packets with the same data in the same order and ends with an empty buffer;
so does one with a cycle buffer of any size that is new, or empty with its indices anywhere in
the array, as long as it takes every chunk. -/
theorem packets_delivered (c : Settings) (data : List {d : Bytes // d.length ≤ 65531}) :
    ∃ packets, data.mapM (fun d => Packet.new.pack c ⟨d.1, by omega⟩) = .ok packets ∧
      ∀ chunks : List Bytes, chunks.flatten = (packets.map Buffer).flatten →
        Delivers c ListBuffer.new chunks (data.map (·.1)) ∧
          ∀ CycleBufferSize,
            (∀ array : {a : Bytes // a.length = CycleBufferSize},
              Accepts c (CycleBuffer.new array) chunks →
                Delivers c (CycleBuffer.new array) chunks (data.map (·.1))) ∧
            ∀ b : CycleBuffer CycleBufferSize, b.Valid → b.contents = [] → Accepts c b chunks →
              Delivers c b chunks (data.map (·.1)) := by
  refine ⟨data.map fun d => ⟨packed c d.1, d.1.length⟩, ?_, fun chunks h => ?_⟩
  · simp only [pack_eq]
    exact List.mapM_pure
  · have hdata : ∀ d ∈ data.map (·.1), d.length ≤ 65531 := by
      rintro d hd
      obtain ⟨d, -, rfl⟩ := List.mem_map.mp hd
      exact d.2
    replace h : chunks.flatten = ((data.map (·.1)).map (packed c)).flatten := by
      rw [h, List.map_map, List.map_map]
      rfl
    have hempty {CycleBufferSize : ℕ} (b : CycleBuffer CycleBufferSize) (hb : b.Valid) (hnil : b.contents = [])
        (hok : Accepts c b chunks) : Delivers c b chunks (data.map (·.1)) :=
      delivers_of_accepts hb hnil hdata h hok
    refine ⟨delivers_of_accepts trivial rfl hdata h (accepts_listBuffer chunks), fun CycleBufferSize =>
      ⟨fun array hok => ?_, hempty⟩⟩
    obtain rfl | hpos := Nat.eq_zero_or_pos CycleBufferSize
    · obtain ⟨hnil, hdel⟩ := delivers_of_size_zero hok
      rw [hnil] at h
      cases data with
      | nil => exact hdel
      | cons d data => simp [packed] at h
    · exact hempty _ (CycleBuffer.valid_new array hpos) (CycleBuffer.contents_new array) hok

/-- Two packets, the data of the first being a head byte and an end byte, in chunks that begin in the middle of
an array and go round its end. -/
theorem packets_delivered_sample :
    Delivers Settings.initial (⟨[0, 0, 0, 0, 0, 0, 0, 0], 6, 6⟩ : CycleBuffer 8)
      [[0x7e], [2, 0, 0x7e], [0xe7, 0xe7, 0x7e], [0, 0, 0xe7]] [[0x7e, 0xe7], []] := by
  obtain ⟨packets, hpack, hdelivered⟩ :=
    packets_delivered Settings.initial [⟨[0x7e, 0xe7], by decide⟩, ⟨[], by decide⟩]
  obtain rfl : [⟨[0x7e, 2, 0, 0x7e, 0xe7, 0xe7], 2⟩, ⟨[0x7e, 0, 0, 0xe7], 0⟩] = packets :=
    Except.ok.inj ((show _ = _ by decide).symm.trans hpack)
  refine ((hdelivered [[0x7e], [2, 0, 0x7e], [0xe7, 0xe7, 0x7e], [0, 0, 0xe7]] rfl).2 8).2 _
    ⟨rfl, by decide, by decide⟩ rfl ?_
  exact .cons_of ⟨_, rfl⟩ rfl (.cons_of ⟨_, rfl⟩ rfl (.cons_of ⟨_, rfl⟩ rfl (.cons_of ⟨_, rfl⟩ rfl .nil)))

end UvCpp.Packet
