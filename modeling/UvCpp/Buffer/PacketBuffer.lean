import UvCpp.Cpp.Strings
import UvCpp.Systems.Run

/-!
# Packet buffers

`PacketBuffer` is the interface through which received bytes are stored and read
back; `ListBuffer` and `CycleBuffer` implement it. Its purpose is a queue of bytes
that may refuse to grow: `LawfulPacketBuffer` says so. The bytes a buffer holds are
`contents`; an append is accepted when the buffer may hold so many bytes (`Fits`)
and then adds at the end, reading copies from the front and leaves the buffer alone,
clearing drops from the front.

What uses a packet buffer (the packet reader, the HTTP server) is modelled over the
interface and reasoned about with the laws, so that it is proved once for all
implementations.
-/

namespace UvCpp.Buffer

open UvCpp.Cpp UvCpp.Systems

/-- The interface `uv::PacketBuffer`. Each call gives its return code; `append` and
`readBufferN` move bytes and may fault. A buffer and a size passed together are a
list. -/
class PacketBuffer (β : Type) where
  /-- `append(data, size)`. -/
  append : β → Bytes → Exec (ℤ × β)
  /-- `readBufferN(data, N)`: the string `data`, and what is added to it. -/
  readBufferN : β → Bytes → ℕ → Exec (ℤ × Bytes)
  /-- `clearBufferN(N)`. -/
  clearBufferN : β → ℕ → ℤ × β
  /-- `clear()`. -/
  clear : β → ℤ × β
  /-- `readSize()`. -/
  readSize : β → ℕ

/-- A packet buffer that is a queue of bytes. A string passed to `readBufferN` is
shorter than `2³¹` bytes: `CycleBuffer` keeps its length in an `int`. -/
class LawfulPacketBuffer (β : Type) [PacketBuffer β] where
  /-- The representation invariant. -/
  Valid : β → Prop
  /-- The bytes held, oldest first. -/
  contents : β → Bytes
  /-- Whether the buffer can hold so many bytes. -/
  Fits : ℕ → Bool
  append_of_fits {b : β} {data : Bytes} : Valid b → Fits ((contents b).length + data.length) →
    ∃ b', PacketBuffer.append b data = .ok (0, b') ∧ Valid b' ∧ contents b' = contents b ++ data
  append_of_not_fits {b : β} {data : Bytes} : Valid b →
    ¬ Fits ((contents b).length + data.length) → PacketBuffer.append b data = .ok (-1, b)
  readSize_eq {b : β} : Valid b → PacketBuffer.readSize b = (contents b).length
  readBufferN_of_le {b : β} {data : Bytes} {N : ℕ} : Valid b → N ≤ (contents b).length →
    data.length < 2 ^ 31 →
      PacketBuffer.readBufferN b data N = .ok (0, data ++ (contents b).take N)
  readBufferN_of_lt {b : β} {data : Bytes} {N : ℕ} : Valid b → (contents b).length < N →
    PacketBuffer.readBufferN b data N = .ok (-1, data)
  clearBufferN_eq {b : β} {N : ℕ} : Valid b → (PacketBuffer.clearBufferN b N).1 = 0 ∧
    Valid (PacketBuffer.clearBufferN b N).2 ∧
      contents (PacketBuffer.clearBufferN b N).2 = (contents b).drop N
  clear_eq {b : β} : Valid b → (PacketBuffer.clear b).1 = 0 ∧ Valid (PacketBuffer.clear b).2 ∧
    contents (PacketBuffer.clear b).2 = []

/-- Bytes can be read onto every string shorter than this. -/
def ReadsOnto (β : Type) [PacketBuffer β] [LawfulPacketBuffer β] (m : ℕ) : Prop :=
  ∀ {b : β} {data : Bytes} {N : ℕ}, LawfulPacketBuffer.Valid b → N ≤ (LawfulPacketBuffer.contents b).length →
    data.length < m →
      PacketBuffer.readBufferN b data N = .ok (0, data ++ (LawfulPacketBuffer.contents b).take N)

theorem readsOnto_int {β : Type} [PacketBuffer β] [LawfulPacketBuffer β] : ReadsOnto β (2 ^ 31) :=
  LawfulPacketBuffer.readBufferN_of_le

/-! ### Calls -/

/-- A call to a packet buffer. -/
inductive Call where
  /-- `append(data, size)`. -/
  | append (data : Bytes)
  /-- `readBufferN(data, N)`. -/
  | readBufferN (data : Bytes) (N : ℕ)
  /-- `clearBufferN(N)`. -/
  | clearBufferN (N : ℕ)
  /-- `clear()`. -/
  | clear
  /-- `readSize()`. -/
  | readSize
  deriving DecidableEq

/-- What a call returns: a code, a code and the string passed in, or a size. -/
inductive Answer where
  /-- A return code. -/
  | code (c : ℤ)
  /-- A return code and the output string. -/
  | bytes (c : ℤ) (data : Bytes)
  /-- A size. -/
  | size (n : ℕ)
  deriving DecidableEq

/-- Make a call. -/
def Call.perform {β : Type} [PacketBuffer β] (b : β) : Call → Exec (β × Answer)
  | .append data => do
    let r ← PacketBuffer.append b data
    .ok (r.2, .code r.1)
  | .readBufferN data N => do
    let r ← PacketBuffer.readBufferN b data N
    .ok (b, .bytes r.1 r.2)
  | .clearBufferN N => .ok ((PacketBuffer.clearBufferN b N).2, .code (PacketBuffer.clearBufferN b N).1)
  | .clear => .ok ((PacketBuffer.clear b).2, .code (PacketBuffer.clear b).1)
  | .readSize => .ok (b, .size (PacketBuffer.readSize b))

/-- Whether an answer refuses an append. -/
def Call.refused : Call → Answer → Bool
  | .append _, .code c => c = -1
  | _, _ => false

end UvCpp.Buffer
