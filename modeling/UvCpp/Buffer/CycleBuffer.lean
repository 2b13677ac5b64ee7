import UvCpp.Buffer.PacketBuffer

/-!
# The cycle buffer

`CycleBuffer` keeps the bytes in an array of `CycleBufferSize` bytes, between a read
index and a write index that go round it. One byte always stays unused, so that equal
indices mean an empty buffer. An append that does not fit is refused.

`Valid` is the representation invariant: both indices lie in the array. The bytes held
are those from the read index up to the write index, round the end if it comes first
(`contents`), and the buffer is a queue of at most `CycleBufferSize - 1` bytes.
-/

namespace UvCpp.Buffer

open UvCpp.Cpp

/-- `uv::SizeInfo`: how many bytes, before the end of the array and after it. -/
structure SizeInfo where
  /-- All of them. -/
  size : ℕ
  /-- Before the end of the array. -/
  part1 : ℕ
  /-- From the start of the array. -/
  part2 : ℕ

/-- `uv::CycleBuffer`, for a given `GlobalConfig::CycleBufferSize`. -/
@[ext]
structure CycleBuffer (CycleBufferSize : ℕ) where
  /-- The array. -/
  buffer_ : Bytes
  /-- Where the next byte goes. -/
  writeIndex_ : ℕ
  /-- Where the oldest byte is. -/
  readIndex_ : ℕ
  deriving DecidableEq

namespace CycleBuffer

variable {CycleBufferSize : ℕ}

/-- A new buffer, on an array that holds whatever it happens to hold. -/
def new (array : {a : Bytes // a.length = CycleBufferSize}) : CycleBuffer CycleBufferSize :=
  ⟨array.1, 0, 0⟩

/-- `usableSizeInfo`. -/
def usableSizeInfo (b : CycleBuffer CycleBufferSize) : SizeInfo :=
  let part1 :=
    if b.writeIndex_ < b.readIndex_ then usub (usub b.readIndex_ b.writeIndex_) 1
    else if b.readIndex_ = 0 then usub (usub CycleBufferSize b.writeIndex_) 1
    else usub CycleBufferSize b.writeIndex_
  let part2 :=
    if b.writeIndex_ < b.readIndex_ then 0
    else if b.readIndex_ = 0 then 0
    else usub b.readIndex_ 1
  ⟨part1 + part2, part1, part2⟩

/-- `readSizeInfo`. -/
def readSizeInfo (b : CycleBuffer CycleBufferSize) : SizeInfo :=
  let part1 :=
    if b.readIndex_ ≤ b.writeIndex_ then usub b.writeIndex_ b.readIndex_
    else usub CycleBufferSize b.readIndex_
  let part2 := if b.readIndex_ ≤ b.writeIndex_ then 0 else b.writeIndex_
  ⟨part1 + part2, part1, part2⟩

/-- An index, `size` further round the array. -/
def addIndex (CycleBufferSize index size : ℕ) : ℤ × ℕ :=
  if CycleBufferSize < size then (-1, index)
  else
    let index := index + size
    (0, if CycleBufferSize ≤ index then usub index CycleBufferSize else index)

/-- `addWriteIndex`. -/
def addWriteIndex (b : CycleBuffer CycleBufferSize) (size : ℕ) : ℤ × CycleBuffer CycleBufferSize :=
  let r := addIndex CycleBufferSize b.writeIndex_ size
  (r.1, { b with writeIndex_ := r.2 })

/-- `addReadIndex`. -/
def addReadIndex (b : CycleBuffer CycleBufferSize) (size : ℕ) : ℤ × CycleBuffer CycleBufferSize :=
  let r := addIndex CycleBufferSize b.readIndex_ size
  (r.1, { b with readIndex_ := r.2 })

/-- `append`. -/
def append (b : CycleBuffer CycleBufferSize) (data : Bytes) :
    Exec (ℤ × CycleBuffer CycleBufferSize) :=
  let info := b.usableSizeInfo
  let size := data.length
  if info.size < size then .ok (-1, b)
  else do
    let buffer ←
      if size ≤ info.part1 then copyTo b.buffer_ b.writeIndex_ data
      else do
        let buffer ← copyTo b.buffer_ b.writeIndex_ (data.take info.part1)
        copyTo buffer 0 (data.drop info.part1)
    .ok (0, ({ b with buffer_ := buffer }.addWriteIndex size).2)

/-- `readSize`. -/
def readSize (b : CycleBuffer CycleBufferSize) : ℕ := b.readSizeInfo.size

/-- `readBufferN`. The length of the string is kept in an `int`. If that makes it
negative, either the new length is, and `resize` throws, or the pointer to write through
leaves the string. -/
def readBufferN (b : CycleBuffer CycleBufferSize) (data : Bytes) (N : ℕ) : Exec (ℤ × Bytes) :=
  let info := b.readSizeInfo
  if b.readSize < N then .ok (-1, data)
  else
    let start := toInt32 data.length
    if start < 0 then .error (if start + N < 0 then .thrown else .undefined)
    else
      let start := start.toNat
      let data := resize data (start + N)
      if N ≤ info.part1 then do
        let bytes ← slice b.buffer_ b.readIndex_ N
        let data ← copyTo data start bytes
        .ok (0, data)
      else do
        let bytes ← slice b.buffer_ b.readIndex_ (usub CycleBufferSize b.readIndex_)
        let data ← copyTo data start bytes
        let remain := usub N info.part1
        let bytes ← slice b.buffer_ 0 remain
        let data ← copyTo data (start + info.part1) bytes
        .ok (0, data)

/-- `clearBufferN`. -/
def clearBufferN (b : CycleBuffer CycleBufferSize) (N : ℕ) : ℤ × CycleBuffer CycleBufferSize :=
  let N := if b.readSize < N then b.readSize else N
  (0, (b.addReadIndex N).2)

/-- `clear`. -/
def clear (b : CycleBuffer CycleBufferSize) : ℤ × CycleBuffer CycleBufferSize :=
  (0, { b with writeIndex_ := 0, readIndex_ := 0 })

instance : PacketBuffer (CycleBuffer CycleBufferSize) :=
  ⟨append, readBufferN, clearBufferN, clear, readSize⟩

/-! ### The bytes held -/

/-- The representation invariant: the indices lie in the array. -/
structure Valid (b : CycleBuffer CycleBufferSize) : Prop where
  /-- The array has its size. -/
  length : b.buffer_.length = CycleBufferSize
  /-- The write index lies in it. -/
  write : b.writeIndex_ < CycleBufferSize
  /-- The read index lies in it. -/
  read : b.readIndex_ < CycleBufferSize

/-- The bytes held: from the read index to the write index, round the end. -/
def contents (b : CycleBuffer CycleBufferSize) : Bytes :=
  if b.readIndex_ ≤ b.writeIndex_ then
    (b.buffer_.drop b.readIndex_).take (b.writeIndex_ - b.readIndex_)
  else b.buffer_.drop b.readIndex_ ++ b.buffer_.take b.writeIndex_

variable {b : CycleBuffer CycleBufferSize}

theorem valid_new (array : {a : Bytes // a.length = CycleBufferSize}) (h : 1 ≤ CycleBufferSize) :
    (new array).Valid := ⟨array.2, h, h⟩

@[simp] theorem contents_new (array : {a : Bytes // a.length = CycleBufferSize}) :
    (new array).contents = [] := by simp [contents, new]

/-- How many bytes are held. -/
theorem Valid.length_contents (hb : b.Valid) : b.contents.length =
    if b.readIndex_ ≤ b.writeIndex_ then b.writeIndex_ - b.readIndex_
    else CycleBufferSize - b.readIndex_ + b.writeIndex_ := by
  obtain ⟨hl, hw, hr⟩ := hb
  unfold contents
  split
  · simp only [List.length_take, List.length_drop]
    omega
  · simp only [List.length_append, List.length_take, List.length_drop]
    omega

/-- The size read is the number of bytes held. -/
theorem Valid.readSize_eq (hb : b.Valid) : b.readSize = b.contents.length := by
  obtain ⟨hl, hw, hr⟩ := id hb
  rw [hb.length_contents]
  unfold readSize readSizeInfo
  split <;> simp only [usub, Nat.add_zero] <;> split <;> omega

/-- The room left: all but one of the bytes of the array may be in use. -/
theorem Valid.usableSize_eq (hb : b.Valid) :
    b.usableSizeInfo.size = CycleBufferSize - 1 - b.contents.length := by
  obtain ⟨hl, hw, hr⟩ := id hb
  rw [hb.length_contents]
  unfold usableSizeInfo usub
  simp only
  split_ifs <;> omega

/-- The place in the array of the byte `i` further on from an index. -/
def place (CycleBufferSize index i : ℕ) : ℕ :=
  if index + i < CycleBufferSize then index + i else index + i - CycleBufferSize

/-- Going `n` places on keeps an index in the array. -/
theorem addIndex_eq {index n : ℕ} (hn : n < CycleBufferSize) :
    addIndex CycleBufferSize index n = (0, place CycleBufferSize index n) := by
  simp only [addIndex, place, usub]
  split_ifs <;> first | omega | rfl

theorem place_lt {index i : ℕ} (h : index < CycleBufferSize) (hi : i < CycleBufferSize) :
    place CycleBufferSize index i < CycleBufferSize := by
  unfold place
  split <;> omega

theorem place_place {index i j : ℕ} (h : index < CycleBufferSize) (hij : i + j < CycleBufferSize) :
    place CycleBufferSize (place CycleBufferSize index i) j = place CycleBufferSize index (i + j) := by
  unfold place
  split_ifs <;> omega

/-- The write index is as far behind the read index as there are bytes. -/
theorem Valid.writeIndex_eq (hb : b.Valid) :
    b.writeIndex_ = place CycleBufferSize b.readIndex_ b.contents.length := by
  obtain ⟨hl, hw, hr⟩ := id hb
  rw [hb.length_contents]
  unfold place
  split_ifs <;> omega

theorem Valid.length_contents_lt (hb : b.Valid) : b.contents.length < CycleBufferSize := by
  obtain ⟨hl, hw, hr⟩ := id hb
  rw [hb.length_contents]
  split <;> omega

/-- Where the bytes held stand in the array. -/
theorem Valid.getElem?_contents (hb : b.Valid) {i : ℕ} (hi : i < b.contents.length) :
    b.contents[i]? = b.buffer_[place CycleBufferSize b.readIndex_ i]? := by
  obtain ⟨hl, hw, hr⟩ := id hb
  rw [hb.length_contents] at hi
  unfold contents place
  split_ifs at hi ⊢ <;>
    simp only [List.getElem?_append, List.getElem?_take, List.getElem?_drop, List.length_drop] <;>
    split_ifs <;> first | omega | (congr 1 <;> omega)

/-- The bytes held are those that stand in the array from the read index on. -/
theorem Valid.contents_eq_of (hb : b.Valid) {l : Bytes}
    (hlen : b.writeIndex_ = place CycleBufferSize b.readIndex_ l.length)
    (hl : l.length < CycleBufferSize)
    (h : ∀ i < l.length, b.buffer_[place CycleBufferSize b.readIndex_ i]? = l[i]?) :
    b.contents = l := by
  have hlt := hb.length_contents_lt
  have hr := hb.read
  have heq : b.contents.length = l.length := by
    rw [hb.writeIndex_eq] at hlen
    unfold place at hlen
    split_ifs at hlen <;> omega
  refine List.ext_getElem? fun i => ?_
  by_cases hi : i < l.length
  · rw [hb.getElem?_contents (by omega), h i hi]
  · rw [List.getElem?_eq_none (by omega), List.getElem?_eq_none (by omega)]

/-! ### Append -/

/-- What an append that fits writes: the data from the write index on, and nothing over
the bytes held. -/
theorem Valid.exists_written (hb : b.Valid) {data : Bytes}
    (hfit : b.contents.length + data.length < CycleBufferSize) :
    ∃ m : Bytes, b.append data = .ok (0, ({ b with buffer_ := m }.addWriteIndex data.length).2) ∧
      m.length = CycleBufferSize ∧
      (∀ i < data.length, m[place CycleBufferSize b.writeIndex_ i]? = data[i]?) ∧
      ∀ i < b.contents.length, m[place CycleBufferSize b.readIndex_ i]? =
        b.buffer_[place CycleBufferSize b.readIndex_ i]? := by
  obtain ⟨hl, hw, hr⟩ := id hb
  have hsz := hb.usableSize_eq
  have hlen := hb.length_contents
  have hinfo : ¬ b.usableSizeInfo.size < data.length := by omega
  by_cases h1 : data.length ≤ b.usableSizeInfo.part1
  · -- one copy, before the end of the array
    have hend : b.writeIndex_ + data.length ≤ b.buffer_.length := by
      simp only [usableSizeInfo, usub] at h1
      split_ifs at h1 <;> omega
    have hm := copyTo_eq hend
    refine ⟨_, ?_, (length_of_copyTo hm).trans hl, fun i hi => ?_, fun i hi => ?_⟩
    rotate_left
    · rw [getElem?_of_copyTo hm]
      unfold place
      split_ifs <;> first | omega | (congr 1; omega)
    · rw [getElem?_of_copyTo hm, if_neg]
      unfold place
      split_ifs at hlen ⊢ <;> omega
    · unfold append
      simp only [if_neg hinfo, if_pos h1, hm, Exec.ok_bind]
  · -- two copies: up to the end of the array, and from its start
    have hp : b.usableSizeInfo.part1 = CycleBufferSize - b.writeIndex_ ∧
        b.readIndex_ ≤ b.writeIndex_ := by
      simp only [usableSizeInfo, usub] at h1 hsz ⊢
      split_ifs at h1 hsz hlen ⊢ <;> omega
    obtain ⟨hp, hrw⟩ := hp
    rw [if_pos hrw] at hlen
    have hfit : b.writeIndex_ + (data.take b.usableSizeInfo.part1).length ≤ b.buffer_.length := by
      rw [List.length_take]
      omega
    have hm := copyTo_eq hfit
    have hml := length_of_copyTo hm
    have hm' := copyTo_eq (show 0 + (data.drop b.usableSizeInfo.part1).length ≤ _ by
      rw [hml, List.length_drop]
      omega)
    refine ⟨_, ?_, (length_of_copyTo hm').trans (hml.trans hl), fun i hi => ?_, fun i hi => ?_⟩
    rotate_left
    · rw [getElem?_of_copyTo hm', getElem?_of_copyTo hm]
      simp only [List.length_take, List.length_drop, List.getElem?_take, List.getElem?_drop]
      unfold place
      split_ifs <;> first | omega | (congr 1; omega)
    · rw [getElem?_of_copyTo hm', getElem?_of_copyTo hm]
      simp only [List.length_take, List.length_drop, List.getElem?_take, List.getElem?_drop]
      unfold place
      split_ifs <;> first | omega | rfl
    · unfold append
      simp only [if_neg hinfo, if_neg h1, hm, hm', Exec.ok_bind]

/-- An append that fits adds its bytes at the end. -/
theorem Valid.append_of_fits (hb : b.Valid) {data : Bytes}
    (hfit : b.contents.length + data.length < CycleBufferSize) :
    ∃ b', b.append data = .ok (0, b') ∧ b'.Valid ∧ b'.contents = b.contents ++ data := by
  obtain ⟨m, happ, hm, hdata, hkeep⟩ := hb.exists_written hfit
  have hw : (addIndex CycleBufferSize b.writeIndex_ data.length).2 =
      place CycleBufferSize b.writeIndex_ data.length := by
    rw [addIndex_eq (by omega)]
  have hv : ({ b with buffer_ := m }.addWriteIndex data.length).2.Valid :=
    ⟨hm, by rw [addWriteIndex]; simp only [hw]; exact place_lt hb.write (by omega), hb.read⟩
  refine ⟨_, happ, hv, hv.contents_eq_of ?_ (by rw [List.length_append]; omega) fun i hi => ?_⟩
  · simp only [addWriteIndex, hw, List.length_append]
    rw [hb.writeIndex_eq, place_place hb.read hfit]
  · simp only [addWriteIndex]
    rw [List.length_append] at hi
    by_cases h : i < b.contents.length
    · rw [hkeep i h, List.getElem?_append_left h, hb.getElem?_contents h]
    · have := hdata (i - b.contents.length) (by omega)
      rw [hb.writeIndex_eq, place_place hb.read (by omega),
        show b.contents.length + (i - b.contents.length) = i by omega] at this
      rw [this, List.getElem?_append_right (by omega)]

/-- An append that does not fit is refused, and changes nothing. -/
theorem Valid.append_of_not_fits (hb : b.Valid) {data : Bytes}
    (hfit : ¬ b.contents.length + data.length < CycleBufferSize) :
    b.append data = .ok (-1, b) := by
  have hsz := hb.usableSize_eq
  have hlt := hb.length_contents_lt
  unfold append
  simp only
  rw [if_pos (by omega)]

/-! ### Reading and clearing -/

/-- Reading copies from the front of the bytes held. -/
theorem Valid.readBufferN_of_le (hb : b.Valid) {data : Bytes} {N : ℕ} (hN : N ≤ b.contents.length)
    (hdata : data.length < 2 ^ 31) :
    b.readBufferN data N = .ok (0, data ++ b.contents.take N) := by
  obtain ⟨hl, hw, hr⟩ := id hb
  have hlen := hb.length_contents
  have hsz := hb.readSize_eq
  have hstart : ¬ ((data.length : ℤ) < 0) := by omega
  unfold readBufferN
  simp only [toInt32_of_lt hdata, if_neg hstart, Int.toNat_natCast, resize_add]
  rw [if_neg (by omega)]
  by_cases hrw : b.readIndex_ ≤ b.writeIndex_
  · -- the bytes held lie in one piece
    rw [if_pos hrw] at hlen
    have hp : b.readSizeInfo.part1 = b.writeIndex_ - b.readIndex_ := by
      simp only [readSizeInfo, if_pos hrw, usub_of_le hrw]
    have hs : ((b.buffer_.drop b.readIndex_).take N).length = N := by
      simp only [List.length_take, List.length_drop]; omega
    rw [if_pos (by omega), slice_eq (by omega), Exec.ok_bind, copyTo_replicate _ (by omega),
      Exec.ok_bind, hs, Nat.sub_self, List.replicate_zero, List.append_nil]
    simp only [contents, if_pos hrw, List.take_take]
    rw [Nat.min_eq_left (by omega)]
  · rw [if_neg hrw] at hlen
    have hp : b.readSizeInfo.part1 = CycleBufferSize - b.readIndex_ := by
      simp only [readSizeInfo, if_neg hrw, usub_of_le hr.le]
    have hd : (b.buffer_.drop b.readIndex_).length = CycleBufferSize - b.readIndex_ := by
      rw [List.length_drop, hl]
    by_cases h1 : N ≤ b.readSizeInfo.part1
    · have hs : ((b.buffer_.drop b.readIndex_).take N).length = N := by
        rw [List.length_take]; omega
      rw [if_pos h1, slice_eq (by omega), Exec.ok_bind, copyTo_replicate _ (by omega),
        Exec.ok_bind, hs, Nat.sub_self, List.replicate_zero, List.append_nil, contents, if_neg hrw,
        List.take_append_of_le_length (by omega)]
    · -- first the bytes up to the end of the array, then those from its start
      have hs : (b.buffer_.take (N - (CycleBufferSize - b.readIndex_))).length =
          N - (CycleBufferSize - b.readIndex_) := by
        rw [List.length_take]; omega
      have hc : b.contents.take N = b.buffer_.drop b.readIndex_ ++
          b.buffer_.take (N - (CycleBufferSize - b.readIndex_)) := by
        rw [contents, if_neg hrw, List.take_append, hd, List.take_of_length_le (by omega),
          List.take_take, Nat.min_eq_left (by omega)]
      have hfst := copyTo_replicate data (show (b.buffer_.drop b.readIndex_).length ≤ N by omega)
      have hsnd := copyTo_replicate (data ++ b.buffer_.drop b.readIndex_) hs.le
      rw [hd] at hfst
      rw [List.length_append, hd, hs, Nat.sub_self, List.replicate_zero, List.append_nil,
        List.append_assoc data _ (b.buffer_.take _), ← hc] at hsnd
      rw [if_neg h1, usub_of_le hr.le, usub_of_le (by omega), hp, slice_eq (by omega), Exec.ok_bind,
        List.take_of_length_le hd.le, hfst, Exec.ok_bind, slice_eq (by omega), Exec.ok_bind,
        List.drop_zero, hsnd, Exec.ok_bind]

/-- Reading more than is held is refused. -/
theorem Valid.readBufferN_of_lt (hb : b.Valid) {data : Bytes} {N : ℕ} (hN : b.contents.length < N) :
    b.readBufferN data N = .ok (-1, data) := by
  unfold readBufferN
  rw [hb.readSize_eq]
  simp only [if_pos hN]

/-- Reading into a string of `2³¹` bytes or more does not add to it. -/
theorem readBufferN_of_long {data : Bytes} {N : ℕ} (hN : N ≤ b.readSize)
    (hdata : 2 ^ 31 ≤ data.length) (bytes : Bytes) (hbytes : bytes.length = N) :
    b.readBufferN data N ≠ .ok (0, data ++ bytes) := by
  intro h
  unfold readBufferN at h
  have hne := toInt32_ne hdata
  simp only [if_neg (show ¬ b.readSize < N by omega)] at h
  split_ifs at h with hneg h1
  · simp only [Exec.bind_eq_ok_iff, Except.ok.injEq, Prod.mk.injEq, true_and] at h
    obtain ⟨_, -, m, hm, rfl⟩ := h
    have := length_of_copyTo hm
    simp only [resize, List.length_append, List.length_take, List.length_replicate] at this
    omega
  · simp only [Exec.bind_eq_ok_iff, Except.ok.injEq, Prod.mk.injEq, true_and] at h
    obtain ⟨_, -, m, hm, _, -, m', hm', rfl⟩ := h
    have h2 := length_of_copyTo hm
    have h3 := length_of_copyTo hm'
    simp only [resize, List.length_append, List.length_take, List.length_replicate] at h2 h3
    omega

/-- Clearing drops from the front of the bytes held. -/
theorem Valid.clearBufferN_eq (hb : b.Valid) (N : ℕ) : (b.clearBufferN N).1 = 0 ∧
    (b.clearBufferN N).2.Valid ∧ (b.clearBufferN N).2.contents = b.contents.drop N := by
  have hlt := hb.length_contents_lt
  have hN : (if b.readSize < N then b.readSize else N) = min N b.contents.length := by
    rw [hb.readSize_eq]
    split <;> omega
  have hr : (addIndex CycleBufferSize b.readIndex_ (min N b.contents.length)).2 =
      place CycleBufferSize b.readIndex_ (min N b.contents.length) := by
    rw [addIndex_eq (by omega)]
  unfold clearBufferN addReadIndex
  simp only [hN, hr, true_and]
  have hv : Valid { b with
      readIndex_ := place CycleBufferSize b.readIndex_ (min N b.contents.length) } :=
    ⟨hb.length, hb.write, place_lt hb.read (by omega)⟩
  refine ⟨hv, hv.contents_eq_of ?_ (by rw [List.length_drop]; omega) fun i hi => ?_⟩
  · rw [place_place hb.read (by rw [List.length_drop]; omega), hb.writeIndex_eq, List.length_drop]
    congr 1
    omega
  · rw [List.length_drop] at hi
    rw [place_place hb.read (by omega), ← hb.getElem?_contents (by omega), List.getElem?_drop]
    congr 1
    omega

theorem Valid.clear_eq (hb : b.Valid) : b.clear.1 = 0 ∧ b.clear.2.Valid ∧ b.clear.2.contents = [] :=
  ⟨rfl, ⟨hb.length, Nat.zero_lt_of_lt hb.write, Nat.zero_lt_of_lt hb.write⟩, by
    simp [contents, clear]⟩

/-- The cycle buffer is a queue of less than `CycleBufferSize` bytes. -/
instance : LawfulPacketBuffer (CycleBuffer CycleBufferSize) where
  Valid := Valid
  contents := contents
  Fits n := n < CycleBufferSize
  append_of_fits hb h := hb.append_of_fits (of_decide_eq_true h)
  append_of_not_fits hb h := hb.append_of_not_fits fun h' => h (decide_eq_true h')
  readSize_eq hb := hb.readSize_eq
  readBufferN_of_le hb h hd := hb.readBufferN_of_le h hd
  readBufferN_of_lt hb h := hb.readBufferN_of_lt h
  clearBufferN_eq hb := hb.clearBufferN_eq _
  clear_eq hb := hb.clear_eq

end CycleBuffer

end UvCpp.Buffer
