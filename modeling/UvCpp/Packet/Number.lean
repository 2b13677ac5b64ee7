import UvCpp.Cpp.Strings
import Mathlib.Data.Nat.Digits.Lemmas

/-!
# Numbers on the wire

`PackNum` writes the bytes of an unsigned number, `UnpackNum` reads them, in the byte
order `Packet::Mode`. Both loop over the bytes of the number's type; the model takes the
width of the type as an argument. `unpackNum_packNum` and `packNum_unpackNum` are the round
trips, `numbers_roundTrip` has them together.
-/

namespace UvCpp.Packet

open UvCpp.Cpp

/-- `Packet::DataMode`: the byte order. -/
inductive DataMode where
  /-- Most significant byte first. -/
  | BigEndian
  /-- Least significant byte first. -/
  | LittleEndian
  deriving DecidableEq

/-- The bytes the loop of `PackNum` writes, in the order it writes them:
`data[i] = num & 0xff; num >>= 8`. -/
def packLoop : ℕ → ℕ → Bytes
  | 0, _ => []
  | size + 1, num => UInt8.ofNat (num &&& 0xff) :: packLoop size (num >>> 8)

/-- `PackNum`, for a type of `size` bytes. -/
def PackNum (Mode : DataMode) (size num : ℕ) : Bytes :=
  match Mode with
  -- the loop runs from the last byte to the first
  | .BigEndian => (packLoop size num).reverse
  | .LittleEndian => packLoop size num

/-- The loop of `UnpackNum`, over the bytes in the order it reads them:
`num <<= 8; num |= data[i]`. -/
def unpackLoop (size : ℕ) (data : Bytes) : ℕ :=
  data.foldl (fun num c => (num <<< 8) % 256 ^ size ||| c.toNat) 0

/-- `UnpackNum`, for a type of `size` bytes. -/
def UnpackNum (Mode : DataMode) (size : ℕ) (data : Bytes) : ℕ :=
  match Mode with
  | .BigEndian => unpackLoop size (data.take size)
  -- the loop runs from the last byte to the first
  | .LittleEndian => unpackLoop size (data.take size).reverse

@[simp] theorem length_packLoop (size num : ℕ) : (packLoop size num).length = size := by
  induction size generalizing num with
  | zero => rfl
  | succ size ih => simp [packLoop, ih]

@[simp] theorem length_packNum (Mode : DataMode) (size num : ℕ) :
    (PackNum Mode size num).length = size := by
  cases Mode <;> simp [PackNum]

/-- The number little-endian bytes denote. -/
def value (data : Bytes) : ℕ := Nat.ofDigits 256 (data.map UInt8.toNat)

theorem value_cons (c : UInt8) (data : Bytes) : value (c :: data) = c.toNat + 256 * value data := by
  simp [value, Nat.ofDigits_cons]

theorem value_lt (data : Bytes) : value data < 256 ^ data.length := by
  have := Nat.ofDigits_lt_base_pow_length (b := 256) (l := data.map UInt8.toNat) (by decide)
    (by simp only [List.mem_map]; rintro x ⟨c, -, rfl⟩; exact c.toNat_lt)
  simpa [value] using this

/-- Reading the bytes from the most significant one on gives the number they denote: no
shift loses a bit. -/
theorem unpackLoop_reverse {size : ℕ} {data : Bytes} (h : data.length ≤ size) :
    unpackLoop size data.reverse = value data := by
  rw [unpackLoop, List.foldl_reverse]
  induction data with
  | nil => rfl
  | cons c data ih =>
    rw [List.length_cons] at h
    rw [List.foldr_cons, ih (by omega), value_cons]
    have hlt : value data <<< 8 < 256 ^ size := by
      rw [Nat.shiftLeft_eq]
      calc value data * 2 ^ 8 < 256 ^ data.length * 256 :=
            Nat.mul_lt_mul_of_pos_right (value_lt data) (by decide)
        _ = 256 ^ (data.length + 1) := (pow_succ ..).symm
        _ ≤ 256 ^ size := Nat.pow_le_pow_right (by decide) h
    rw [Nat.mod_eq_of_lt hlt, ← Nat.shiftLeft_add_eq_or_of_lt c.toNat_lt, Nat.shiftLeft_eq]
    omega

theorem unpackNum_lt (Mode : DataMode) (size : ℕ) (data : Bytes) : UnpackNum Mode size data < 256 ^ size := by
  have hlt {s : Bytes} (h : s.length ≤ size) : unpackLoop size s.reverse < 256 ^ size := by
    rw [unpackLoop_reverse h]
    exact (value_lt s).trans_le (Nat.pow_le_pow_right (by decide) h)
  cases Mode with
  | BigEndian =>
    have := hlt (s := (data.take size).reverse) (by simp)
    rwa [List.reverse_reverse] at this
  | LittleEndian => exact hlt (s := data.take size) (by simp)

theorem value_packLoop {size num : ℕ} (h : num < 256 ^ size) : value (packLoop size num) = num := by
  induction size generalizing num with
  | zero => simp_all [packLoop, value]
  | succ size ih =>
    have hdiv : num >>> 8 < 256 ^ size := by
      rw [Nat.shiftRight_eq_div_pow, pow_succ] at *
      exact Nat.div_lt_of_lt_mul (by omega)
    rw [packLoop, value_cons, ih hdiv, Nat.shiftRight_eq_div_pow,
      show (0xff : ℕ) = 2 ^ 8 - 1 from rfl, Nat.and_two_pow_sub_one_eq_mod, UInt8.toNat_ofNat']
    omega

/-- **Numbers round-trip**, in either byte order. -/
theorem unpackNum_packNum (Mode : DataMode) {size num : ℕ} (h : num < 256 ^ size) (rest : Bytes) :
    UnpackNum Mode size (PackNum Mode size num ++ rest) = num := by
  cases Mode with
  | BigEndian =>
    simp only [UnpackNum, PackNum]
    rw [List.take_left' (by simp), unpackLoop_reverse (by simp), value_packLoop h]
  | LittleEndian =>
    simp only [UnpackNum, PackNum]
    rw [List.take_left' (by simp), unpackLoop_reverse (by simp), value_packLoop h]

/-- The number of some bytes is written as these bytes. -/
theorem packLoop_value (data : Bytes) : packLoop data.length (value data) = data := by
  induction data with
  | nil => rfl
  | cons c data ih =>
    have hc : c.toNat < 2 ^ 8 := c.toNat_lt
    have hlow : (c.toNat + 256 * value data) &&& 0xff = c.toNat := by
      rw [show (0xff : ℕ) = 2 ^ 8 - 1 from rfl, Nat.and_two_pow_sub_one_eq_mod]
      omega
    have hhigh : (c.toNat + 256 * value data) >>> 8 = value data := by
      rw [Nat.shiftRight_eq_div_pow]
      omega
    rw [List.length_cons, packLoop, value_cons, hlow, hhigh, ih, UInt8.ofNat_toNat]

/-- **Bytes round-trip**, in either byte order. -/
theorem packNum_unpackNum (Mode : DataMode) {size : ℕ} {data : Bytes} (h : data.length = size) :
    PackNum Mode size (UnpackNum Mode size data) = data := by
  subst h
  cases Mode with
  | BigEndian =>
    have hvalue : unpackLoop data.length data.reverse.reverse = value data.reverse :=
      unpackLoop_reverse (by simp)
    have hpack := packLoop_value data.reverse
    rw [List.length_reverse] at hpack
    rw [List.reverse_reverse] at hvalue
    simp only [UnpackNum, PackNum]
    rw [List.take_length, hvalue, hpack, List.reverse_reverse]
  | LittleEndian =>
    simp only [UnpackNum, PackNum]
    rw [List.take_length, unpackLoop_reverse le_rfl, packLoop_value]

/-- **Numbers and bytes are the same**, for every width and in either byte order, and one order is the
other reversed. -/
theorem numbers_roundTrip (Mode : DataMode) {size num : ℕ} {data : Bytes} (hnum : num < 256 ^ size)
    (hdata : data.length = size) :
    UnpackNum Mode size (PackNum Mode size num) = num ∧ PackNum Mode size (UnpackNum Mode size data) = data ∧
      PackNum .BigEndian size num = (PackNum .LittleEndian size num).reverse := by
  refine ⟨?_, packNum_unpackNum Mode hdata, rfl⟩
  have hround := unpackNum_packNum Mode hnum []
  rwa [List.append_nil] at hround

/-- Three bytes. -/
theorem numbers_roundTrip_three : UnpackNum .BigEndian 3 (PackNum .BigEndian 3 0x10203) = 0x10203 ∧
    PackNum .BigEndian 3 (UnpackNum .BigEndian 3 [1, 2, 3]) = [1, 2, 3] ∧
      PackNum .BigEndian 3 0x10203 = (PackNum .LittleEndian 3 0x10203).reverse :=
  numbers_roundTrip .BigEndian (by decide) rfl

end UvCpp.Packet
