import UvCpp.Packet.Number
import UvCpp.Buffer.PacketBuffer

/-!
# Packets

A packet is a head byte, the size of its data in two bytes, the data, and an end byte.
`pack` makes one; `readFromBuffer` looks for one at the front of a packet buffer, drops
bytes that cannot begin one, and leaves the bytes of one that has not arrived whole.

Head byte, end byte and byte order are settings of the program; `packed` is what a
packet with given data looks like under them. A buffer that begins with a packet gives
it up (`readFromBuffer_packed`); a buffer that holds a part of one is left as it is
(`readFromBuffer_partial`).
-/

namespace UvCpp

open UvCpp.Cpp UvCpp.Buffer

/-- `uv::Packet`. -/
@[ext]
structure Packet where
  /-- The bytes of the packet. -/
  buffer_ : Bytes
  /-- How many of them are data. -/
  dataSize_ : ℕ
  deriving DecidableEq

namespace Packet

/-- The static members of `uv::Packet`. -/
structure Settings where
  /-- The byte a packet begins with. -/
  HeadByte : UInt8
  /-- The byte a packet ends with. -/
  EndByte : UInt8
  /-- The byte order of the size. -/
  Mode : DataMode
  deriving DecidableEq

/-- The settings the program starts with. -/
def Settings.initial : Settings := ⟨0x7e, 0xe7, .LittleEndian⟩

/-- `PacketMinSize`: the bytes of a packet that are not data. -/
def PacketMinSize : ℕ := 4

/-- A new packet. -/
def new : Packet := ⟨[], 0⟩

/-- `pack`. The size of the data is a `uint16_t`. -/
def pack (c : Settings) (p : Packet) (data : {d : Bytes // d.length < 2 ^ 16}) : Exec Packet := do
  let size := data.1.length
  let buffer := resize p.buffer_ (size + PacketMinSize)
  let buffer ← copyTo buffer 0 [c.HeadByte]
  let buffer ← copyTo buffer 1 (PackNum c.Mode 2 size)
  let buffer ← copyTo buffer 3 data.1
  let buffer ← copyTo buffer (usub buffer.length 1) [c.EndByte]
  .ok ⟨buffer, size⟩

/-- `getData`: the bytes from the data on. -/
def getData (p : Packet) : Bytes := (c_str p.buffer_).drop 3

/-- `DataSize`. -/
def DataSize (p : Packet) : ℕ := p.dataSize_

/-- `Buffer`. -/
def Buffer (p : Packet) : Bytes := p.buffer_

/-- `swap`: the packet, and the string it held. -/
def swap (p : Packet) (str : Bytes) : Packet × Bytes :=
  (⟨str, usub str.length PacketMinSize % 2 ^ 16⟩, p.buffer_)

/-- The data of a packet: `DataSize` bytes at `getData`. -/
def data (p : Packet) : Exec Bytes := slice p.getData 0 p.DataSize

variable {β : Type} [PacketBuffer β]

/-- The loop of `readFromBuffer`, for at most so many rounds: the return code, the buffer
and the packet. The string `data` is emptied when a byte is skipped, but not when the end
byte is not where it should be. -/
def readFromBufferLoop (c : Settings) : ℕ → β → Bytes → Packet → Exec (ℤ × β × Packet)
  | 0, _, _, _ => .error .loops
  | fuel + 1, packetbuf, data, out =>
    let size := PacketBuffer.readSize packetbuf
    if size < PacketMinSize then .ok (-1, packetbuf, out)
    else do
      let (_, data) ← PacketBuffer.readBufferN packetbuf data 3
      if data.headD 0 ≠ c.HeadByte then
        readFromBufferLoop c fuel (PacketBuffer.clearBufferN packetbuf 1).2 [] out
      else
        let field ← slice (c_str data) 1 2
        let dataSize := UnpackNum c.Mode 2 field
        let msgsize := (dataSize + PacketMinSize) % 2 ^ 16
        if size < msgsize then .ok (-1, packetbuf, out)
        else
          let packetbuf := (PacketBuffer.clearBufferN packetbuf 3).2
          let (_, data) ← PacketBuffer.readBufferN packetbuf data (dataSize + 1)
          match data.getLast? with
          | none => .error .undefined
          | some back =>
            if back = c.EndByte then
              .ok (0, (PacketBuffer.clearBufferN packetbuf (dataSize + 1)).2, (out.swap data).1)
            else readFromBufferLoop c fuel packetbuf data out

/-- `readFromBuffer`. Each round but the last drops a byte, so the loop has no more rounds
than there are bytes. -/
def readFromBuffer (c : Settings) (packetbuf : β) (out : Packet) : Exec (ℤ × β × Packet) :=
  readFromBufferLoop c (PacketBuffer.readSize packetbuf + 1) packetbuf [] out

/-! ### What a packet looks like -/

variable {c : Settings}

/-- The bytes of the packet with the given data. -/
def packed (c : Settings) (d : Bytes) : Bytes :=
  c.HeadByte :: PackNum c.Mode 2 d.length ++ d ++ [c.EndByte]

@[simp] theorem length_packed (d : Bytes) : (packed c d).length = d.length + 4 := by
  simp [packed]
  omega

/-- A string of at least four bytes, cut where a packet's fields lie. -/
theorem exists_fields {s : Bytes} {n : ℕ} (h : s.length = n + 4) :
    ∃ head field mid last, s = [head] ++ (field ++ (mid ++ [last])) ∧ field.length = 2 ∧
      mid.length = n := by
  match s, h with
  | b0 :: b1 :: b2 :: s, h =>
    have hs : s.length = n + 1 := by simpa using h
    obtain rfl | ⟨mid, last, rfl⟩ := List.eq_nil_or_concat s
    · simp at hs
    · exact ⟨b0, [b1, b2], mid, last, by simp, rfl, by simpa using hs⟩

/-- `pack` makes the packet with the given data, whatever was there before. -/
theorem pack_eq (p : Packet) (data : {d : Bytes // d.length < 2 ^ 16}) :
    p.pack c data = .ok ⟨packed c data.1, data.1.length⟩ := by
  have hlen : (resize p.buffer_ (data.1.length + PacketMinSize)).length = data.1.length + 4 := by
    simp only [resize, PacketMinSize, List.length_append, List.length_take, List.length_replicate]
    omega
  obtain ⟨head, field, mid, last, hs, hfield, hmid⟩ := exists_fields hlen
  have h0 := copyTo_append [] [head] (field ++ (mid ++ [last])) (show _ = [c.HeadByte].length from rfl)
  have h1 := copyTo_append [c.HeadByte] field (mid ++ [last])
    (show _ = (PackNum c.Mode 2 data.1.length).length by simp [hfield])
  have h2 := copyTo_append ([c.HeadByte] ++ PackNum c.Mode 2 data.1.length) mid [last] hmid
  have h3 := copyTo_append ([c.HeadByte] ++ (PackNum c.Mode 2 data.1.length ++ data.1)) [last] []
    (show _ = [c.EndByte].length from rfl)
  simp only [List.append_assoc, List.nil_append, List.length_append, List.length_cons,
    List.length_nil, length_packNum, List.append_nil] at h0 h1 h2 h3
  simp only [pack, hs, h0, h1, h2, Exec.ok_bind]
  rw [show usub ([c.HeadByte] ++ (PackNum c.Mode 2 data.1.length ++ (data.1 ++ [last]))).length 1 =
    0 + 1 + (2 + data.1.length) by simp [usub]; omega, h3]
  simp [packed]

/-! ### Reading -/

open LawfulPacketBuffer

variable [LawfulPacketBuffer β] {b : β}

/-- A string that begins with the head byte and a size. -/
def Announces (c : Settings) (n : ℕ) (s : Bytes) : Prop :=
  ∃ field t, s = c.HeadByte :: (field ++ t) ∧ field.length = 2 ∧ UnpackNum c.Mode 2 field = n

theorem Announces.append {n : ℕ} {s : Bytes} (h : Announces c n s) (t : Bytes) : Announces c n (s ++ t) := by
  obtain ⟨field, t', rfl, hfield, hnum⟩ := h
  exact ⟨field, t' ++ t, by simp, hfield, hnum⟩

/-- A round of the loop that has found the head byte and a size. -/
theorem readFromBufferLoop_of_announces {m : ℕ} (hm : ReadsOnto β m) (hb : Valid b)
    (h4 : 4 ≤ (contents b).length) {data : Bytes} (hdata : data.length < m) {n : ℕ}
    (h : Announces c n (data ++ (contents b).take 3)) (fuel : ℕ) (out : Packet) :
    readFromBufferLoop c (fuel + 1) b data out =
      if (contents b).length < (n + 4) % 2 ^ 16 then .ok (-1, b, out)
      else
        let b' := (PacketBuffer.clearBufferN b 3).2
        (PacketBuffer.readBufferN b' (data ++ (contents b).take 3) (n + 1)).bind fun r =>
          match r.2.getLast? with
          | none => .error .undefined
          | some back =>
            if back = c.EndByte then
              .ok (0, (PacketBuffer.clearBufferN b' (n + 1)).2, (out.swap r.2).1)
            else readFromBufferLoop c fuel b' r.2 out := by
  obtain ⟨field, t, hs, hlen, rfl⟩ := h
  have hread : PacketBuffer.readBufferN b data 3 = .ok (0, data ++ (contents b).take 3) :=
    hm hb (by omega) hdata
  have hfield : slice (c_str (data ++ (contents b).take 3)) 1 2 = .ok field := by
    rw [slice_eq (by simp [c_str, hs, hlen]), c_str, hs, List.cons_append, List.drop_one,
      List.tail_cons, List.append_assoc, List.take_left' hlen]
  have hhead : (data ++ (contents b).take 3).headD 0 = c.HeadByte := by rw [hs]; rfl
  rw [readFromBufferLoop]
  simp only [readSize_eq hb, PacketMinSize, not_lt.mpr h4, if_false, hread, Exec.ok_bind, hhead,
    ne_eq, not_true_eq_false, hfield]
  split
  · rfl
  · rfl

/-- A part of a packet announces the size of its data. -/
theorem announces_packed {d s : Bytes} (hd : d.length < 2 ^ 16) (h : (packed c d).take 3 = s.take 3) :
    Announces c d.length ([] ++ s.take 3) := by
  have htake : (packed c d).take 3 = c.HeadByte :: (PackNum c.Mode 2 d.length ++ []) := by
    rw [packed, List.append_assoc, List.append_nil]
    exact List.take_left' (by simp)
  refine ⟨PackNum c.Mode 2 d.length, [], ?_, length_packNum _ _ _, ?_⟩
  · rw [List.nil_append, ← h, htake]
  · have := unpackNum_packNum c.Mode (show d.length < 256 ^ 2 from hd) []
    rwa [List.append_nil] at this

/-- **A packet at the front of a buffer is read**, and the bytes behind it stay. -/
theorem readFromBuffer_packed (hb : Valid b) {d rest : Bytes} (hd : d.length < 2 ^ 16)
    (h : contents b = packed c d ++ rest) (out : Packet) :
    ∃ b', readFromBuffer c b out = .ok (0, b', ⟨packed c d, d.length⟩) ∧ Valid b' ∧
      contents b' = rest := by
  have hlen : (contents b).length = d.length + 4 + rest.length := by rw [h]; simp
  obtain ⟨-, hb3, hc3⟩ := clearBufferN_eq (N := 3) hb
  obtain ⟨-, hb', hc'⟩ := clearBufferN_eq (N := d.length + 1) hb3
  have hdrop : contents (PacketBuffer.clearBufferN b 3).2 = (packed c d).drop 3 ++ rest := by
    rw [hc3, h, List.drop_append_of_le_length (by simp)]
  have hread : PacketBuffer.readBufferN (PacketBuffer.clearBufferN b 3).2 ((packed c d).take 3)
      (d.length + 1) = .ok (0, packed c d) := by
    rw [readBufferN_of_le hb3 (by simp [hdrop]) (by simp), hdrop,
      List.take_left' (by simp), List.take_append_drop]
  refine ⟨_, ?_, hb', ?_⟩
  · have hpre : (packed c d).take 3 = (contents b).take 3 := by
      rw [h, List.take_append_of_le_length (by simp)]
    rw [readFromBuffer, readFromBufferLoop_of_announces readsOnto_int hb (by omega) (by decide)
      (announces_packed hd hpre), if_neg (by omega), List.nil_append, ← hpre]
    have hback : (packed c d).getLast? = some c.EndByte := by
      rw [packed, List.getLast?_append_of_ne_nil _ (by simp)]
      rfl
    have hsize : usub (packed c d).length PacketMinSize % 2 ^ 16 = d.length := by
      rw [length_packed, usub_of_le (by simp [PacketMinSize]), PacketMinSize]
      omega
    simp only [hread, Except.bind, hback, if_true, swap, hsize]
  · rw [hc', hdrop, List.drop_left' (by simp)]

/-- **A part of a packet is left alone.** -/
theorem readFromBuffer_partial (hb : Valid b) {d : Bytes} (hd : d.length ≤ 65531)
    (h : contents b <+: packed c d) (hlt : (contents b).length < (packed c d).length) (out : Packet) :
    readFromBuffer c b out = .ok (-1, b, out) := by
  rw [length_packed] at hlt
  by_cases h4 : 4 ≤ (contents b).length
  · have hpre : (packed c d).take 3 = (contents b).take 3 := by
      obtain ⟨t, ht⟩ := h
      rw [← ht, List.take_append_of_le_length (by omega)]
    rw [readFromBuffer, readFromBufferLoop_of_announces readsOnto_int hb h4 (by decide)
      (announces_packed (by omega) hpre), if_pos (by omega)]
  · rw [readFromBuffer, readFromBufferLoop, readSize_eq hb, if_pos (by simp [PacketMinSize]; omega)]

end Packet

end UvCpp
