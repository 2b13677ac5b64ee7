import UvCpp.Buffer.PacketBuffer

/-!
# The list buffer

`ListBuffer` keeps the bytes in a `std::list`. It never refuses an append.
-/

namespace UvCpp.Buffer

open UvCpp.Cpp

/-- `uv::ListBuffer`. -/
@[ext]
structure ListBuffer where
  /-- The bytes held. -/
  buffer_ : Bytes
  deriving DecidableEq

namespace ListBuffer

/-- A new buffer. -/
def new : ListBuffer := ⟨[]⟩

/-- `append`: a `push_back` for each byte. -/
def append (b : ListBuffer) (data : Bytes) : Exec (ℤ × ListBuffer) :=
  .ok (0, ⟨data.foldl (fun l c => l ++ [c]) b.buffer_⟩)

/-- `readBufferN`. -/
def readBufferN (b : ListBuffer) (data : Bytes) (N : ℕ) : Exec (ℤ × Bytes) :=
  if b.buffer_.length < N then .ok (-1, data) else .ok (0, data ++ b.buffer_.take N)

/-- `readSize`. -/
def readSize (b : ListBuffer) : ℕ := b.buffer_.length

/-- `clearBufferN`: a `pop_front` for each of `N` bytes, until the list is empty. -/
def popFronts : ℕ → Bytes → Bytes
  | 0, l => l
  | _ + 1, [] => []
  | N + 1, _ :: l => popFronts N l

@[inherit_doc popFronts]
def clearBufferN (b : ListBuffer) (N : ℕ) : ℤ × ListBuffer := (0, ⟨popFronts N b.buffer_⟩)

/-- `clear`. -/
def clear (_ : ListBuffer) : ℤ × ListBuffer := (0, ⟨[]⟩)

instance : PacketBuffer ListBuffer := ⟨append, readBufferN, clearBufferN, clear, readSize⟩

theorem foldl_push_back (data l : Bytes) : data.foldl (fun l c => l ++ [c]) l = l ++ data := by
  induction data generalizing l with
  | nil => simp
  | cons c data ih => rw [List.foldl_cons, ih, List.append_assoc, List.singleton_append]

theorem popFronts_eq_drop (N : ℕ) (l : Bytes) : popFronts N l = l.drop N := by
  induction N generalizing l with
  | zero => rfl
  | succ N ih =>
    cases l with
    | nil => rfl
    | cons c l => exact ih l

/-- The list buffer is a queue of bytes without a bound. -/
instance : LawfulPacketBuffer ListBuffer where
  Valid _ := True
  contents := buffer_
  Fits _ := true
  append_of_fits {b data} _ _ := ⟨⟨b.buffer_ ++ data⟩, by
    show append b data = _
    rw [append, foldl_push_back], trivial, rfl⟩
  append_of_not_fits _ h := absurd rfl h
  readSize_eq _ := rfl
  readBufferN_of_le _ h _ := if_neg (by omega)
  readBufferN_of_lt _ h := if_pos h
  clearBufferN_eq {b N} _ := ⟨rfl, trivial, popFronts_eq_drop N b.buffer_⟩
  clear_eq _ := ⟨rfl, trivial, rfl⟩

/-- The length of the string does not matter to a list buffer. -/
theorem readsOnto (m : ℕ) : ReadsOnto ListBuffer m := fun _ h _ => if_neg (not_lt.mpr h)

end ListBuffer

end UvCpp.Buffer
