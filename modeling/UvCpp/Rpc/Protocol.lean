import UvCpp.Packet.Number

/-!
# The messages of a remote call

The example `rpc` lets a server add numbers: a request is numbers of 32 bits, a response is one of
64. `pack` copies them as they lie in memory, in the byte order of the machine, and `unpack` takes
them out again. A message does not say where it ends: a request is as long as what was received,
and a response is the front of it.

Requests and strings whose length is a multiple of four are the same thing (`req_roundTrip`), and the
sum of what can be received does not overflow (`sum_eq`).
-/

namespace UvCpp.Rpc

open UvCpp.Cpp UvCpp.Packet

/-! ### Numbers in memory -/

/-- An `int32_t` in memory. -/
def int32Bytes (order : DataMode) (n : Int32) : Bytes := PackNum order 4 n.toBitVec.toNat

/-- The `int32_t` that lies in four bytes of memory. -/
def int32At (order : DataMode) (field : Bytes) : Int32 := .ofBitVec (.ofNat 32 (UnpackNum order 4 field))

/-- An `int64_t` in memory. -/
def int64Bytes (order : DataMode) (n : Int64) : Bytes := PackNum order 8 n.toBitVec.toNat

/-- The `int64_t` that lies in eight bytes of memory. -/
def int64At (order : DataMode) (field : Bytes) : Int64 := .ofBitVec (.ofNat 64 (UnpackNum order 8 field))

/-- `a + b` for an `int64_t` and an `int32_t`: overflow is undefined. -/
def addInt64 (a : Int64) (b : Int32) : Exec Int64 :=
  if -2 ^ 63 ≤ a.toInt + b.toInt ∧ a.toInt + b.toInt < 2 ^ 63 then .ok (.ofInt (a.toInt + b.toInt))
  else .error .undefined

variable {order : DataMode}

@[simp] theorem length_int32Bytes (order : DataMode) (n : Int32) : (int32Bytes order n).length = 4 :=
  length_packNum _ _ _

@[simp] theorem length_int64Bytes (order : DataMode) (n : Int64) : (int64Bytes order n).length = 8 :=
  length_packNum _ _ _

@[simp] theorem int32At_int32Bytes (n : Int32) : int32At order (int32Bytes order n) = n := by
  have hread := unpackNum_packNum order (show n.toBitVec.toNat < 256 ^ 4 from n.toBitVec.isLt) []
  rw [List.append_nil] at hread
  rw [int32At, int32Bytes, hread, BitVec.ofNat_toNat, BitVec.setWidth_eq, Int32.ofBitVec_toBitVec]

theorem int32Bytes_int32At {field : Bytes} (h : field.length = 4) :
    int32Bytes order (int32At order field) = field := by
  have hlt : UnpackNum order 4 field < 2 ^ 32 := unpackNum_lt order 4 field
  have hnum : (int32At order field).toBitVec.toNat = UnpackNum order 4 field :=
    BitVec.toNat_ofNat _ _ |>.trans (Nat.mod_eq_of_lt hlt)
  rw [int32Bytes, hnum, packNum_unpackNum order h]

@[simp] theorem int64At_int64Bytes (n : Int64) : int64At order (int64Bytes order n) = n := by
  have hread := unpackNum_packNum order (show n.toBitVec.toNat < 256 ^ 8 from n.toBitVec.isLt) []
  rw [List.append_nil] at hread
  rw [int64At, int64Bytes, hread, BitVec.ofNat_toNat, BitVec.setWidth_eq, Int64.ofBitVec_toBitVec]

/-! ### Requests -/

/-- `Req`. -/
structure Req where
  /-- The numbers. -/
  params : List Int32
  deriving DecidableEq

namespace Req

/-- `size`: an `int`. -/
def size (r : Req) : Exec ℤ :=
  if IsInt (toInt32 r.params.length * 4) then .ok (toInt32 r.params.length * 4) else .error .undefined

/-- The loop of `pack`: `data` points behind the first `off` bytes of the array. -/
def packLoop (order : DataMode) : List Int32 → Bytes → ℕ → Exec Bytes
  | [], data, _ => .ok data
  | param :: params, data, off => do
    let data ← copyTo data off (int32Bytes order param)
    packLoop order params data (off + 4)

/-- `pack`, into an array. -/
def pack (order : DataMode) (r : Req) (data : Bytes) : Exec (ℤ × Bytes) := do
  if (data.length : ℤ) < (← r.size) then .ok (-1, data)
  else do
    let data ← packLoop order r.params data 0
    .ok (0, data)

/-- The loop of `unpack`, for so many rounds more. -/
def unpackLoop (order : DataMode) (data : Bytes) : ℕ → ℕ → Exec (List Int32)
  | 0, _ => .ok []
  | rounds + 1, i => do
    let field ← slice data i 4
    let params ← unpackLoop order data rounds (i + 4)
    .ok (int32At order field :: params)

/-- `unpack`, from what has been received; its length is passed as an `int`. -/
def unpack (order : DataMode) (r : Req) (data : Bytes) : Exec (ℤ × Req) :=
  let size := toInt32 data.length
  if Int.tmod size 4 ≠ 0 then .ok (-1, r)
  else do
    let params ← unpackLoop order data (size / 4).toNat 0
    .ok (0, ⟨params⟩)

end Req

/-! ### Responses -/

/-- `Resp`. -/
structure Resp where
  /-- The number. -/
  param : Int64
  deriving DecidableEq

namespace Resp

/-- `size`. -/
def size : ℤ := 8

/-- `pack`, into an array. -/
def pack (order : DataMode) (r : Resp) (data : Bytes) : Exec (ℤ × Bytes) :=
  if (data.length : ℤ) < size then .ok (-1, data)
  else do
    let data ← copyTo data 0 (int64Bytes order r.param)
    .ok (0, data)

/-- `unpack`, from what has been received; its length is passed as an `int`. -/
def unpack (order : DataMode) (r : Resp) (data : Bytes) : Exec (ℤ × Resp) :=
  if toInt32 data.length < size then .ok (-1, r)
  else do
    let field ← slice data 0 8
    .ok (0, ⟨int64At order field⟩)

end Resp

/-- `RpcServer::sum`. -/
def RpcServer.sum (req : Req) : Exec Resp := do
  let param ← req.params.foldlM addInt64 0
  .ok ⟨param⟩

/-! ### What a request looks like -/

/-- The bytes of a request. -/
def text (order : DataMode) (params : List Int32) : Bytes := params.flatMap (int32Bytes order)

/-- The numbers in a string; what is left at its end, if it is no number, does not matter. -/
def numbers (order : DataMode) : Bytes → List Int32
  | a :: b :: c :: d :: data => int32At order [a, b, c, d] :: numbers order data
  | _ => []

@[simp] theorem length_text (order : DataMode) (params : List Int32) :
    (text order params).length = 4 * params.length := by
  induction params with
  | nil => rfl
  | cons param params ih =>
    rw [text, List.flatMap_cons, List.length_append, length_int32Bytes, ← text, ih, List.length_cons]
    omega

theorem numbers_append {field : Bytes} (h : field.length = 4) (data : Bytes) :
    numbers order (field ++ data) = int32At order field :: numbers order data := by
  match field, h with
  | [a, b, c, d], _ => rfl

/-- Numbers in a string that is cut between two of them. -/
theorem numbers_append_of_dvd {a : Bytes} (h : 4 ∣ a.length) (b : Bytes) :
    numbers order (a ++ b) = numbers order a ++ numbers order b := by
  obtain ⟨n, hn⟩ := h
  induction n generalizing a with
  | zero =>
    rw [Nat.mul_zero, List.length_eq_zero_iff] at hn
    subst hn
    rfl
  | succ n ih =>
    have hfield : (a.take 4).length = 4 := by rw [List.length_take]; omega
    have hrest := ih (a := a.drop 4) (by rw [List.length_drop]; omega)
    rw [← List.take_append_drop 4 a, List.append_assoc, numbers_append hfield, hrest, numbers_append hfield]
    rfl

/-- **What is written can be read.** -/
theorem numbers_text (params : List Int32) : numbers order (text order params) = params := by
  induction params with
  | nil => rfl
  | cons param params ih =>
    rw [text, List.flatMap_cons, ← text, numbers_append (length_int32Bytes order param), int32At_int32Bytes, ih]

/-- **What can be read has been written.** -/
theorem text_numbers {data : Bytes} (h : 4 ∣ data.length) : text order (numbers order data) = data := by
  obtain ⟨n, hn⟩ := h
  induction n generalizing data with
  | zero =>
    rw [Nat.mul_zero, List.length_eq_zero_iff] at hn
    subst hn
    rfl
  | succ n ih =>
    have hfield : (data.take 4).length = 4 := by rw [List.length_take]; omega
    have hrest := @ih (data.drop 4) (by rw [List.length_drop]; omega)
    rw [text] at hrest
    conv_lhs => rw [← List.take_append_drop 4 data]
    rw [numbers_append hfield, text, List.flatMap_cons, hrest, int32Bytes_int32At hfield, List.take_append_drop]

theorem length_numbers (order : DataMode) {data : Bytes} (h : 4 ∣ data.length) :
    4 * (numbers order data).length = data.length := by
  rw [← length_text order, text_numbers h]

/-! ### Packing and unpacking -/

theorem Req.packLoop_eq (order : DataMode) (params : List Int32) (a b t : Bytes) (hb : b.length = 4 * params.length) :
    Req.packLoop order params (a ++ (b ++ t)) a.length = .ok (a ++ (text order params ++ t)) := by
  induction params generalizing a b with
  | nil =>
    obtain rfl := List.length_eq_zero_iff.mp hb
    rfl
  | cons param params ih =>
    rw [List.length_cons] at hb
    have hfield : (b.take 4).length = (int32Bytes order param).length := by
      rw [List.length_take, length_int32Bytes]
      omega
    have hcopy := copyTo_append a (b.take 4) (b.drop 4 ++ t) hfield
    rw [← List.append_assoc (b.take 4), List.take_append_drop] at hcopy
    have hrest := ih (a ++ int32Bytes order param) (b.drop 4) (by rw [List.length_drop]; omega)
    rw [List.length_append, length_int32Bytes, List.append_assoc] at hrest
    rw [Req.packLoop, hcopy, Exec.ok_bind, hrest, text, text, List.flatMap_cons]
    simp only [List.append_assoc]

theorem Req.size_eq {r : Req} (h : r.params.length < 2 ^ 29) : r.size = .ok ((4 * r.params.length : ℕ) : ℤ) := by
  rw [Req.size, toInt32_of_lt (by omega), if_pos ⟨by omega, by omega⟩]
  exact congrArg Except.ok (by omega)

/-- A request is packed into an array that has room for it. -/
theorem Req.pack_eq (order : DataMode) {r : Req} (h : r.params.length < 2 ^ 29) {data t : Bytes}
    (hdata : data.length = 4 * r.params.length) :
    r.pack order (data ++ t) = .ok (0, text order r.params ++ t) := by
  have hloop := Req.packLoop_eq order r.params [] data t hdata
  have hroom : ¬ (((data ++ t).length : ℕ) : ℤ) < ((4 * r.params.length : ℕ) : ℤ) := by
    rw [List.length_append]
    omega
  rw [Req.pack, Req.size_eq h, Exec.ok_bind, if_neg hroom]
  exact congrArg (fun x => x >>= fun data => Except.ok (0, data)) hloop

theorem Req.unpackLoop_eq {data : Bytes} (rounds i : ℕ) (h : i + 4 * rounds ≤ data.length) :
    Req.unpackLoop order data rounds i = .ok (numbers order ((data.drop i).take (4 * rounds))) := by
  induction rounds generalizing i with
  | zero => rfl
  | succ rounds ih =>
    have hsplit : (data.drop i).take (4 * (rounds + 1)) =
        (data.drop i).take 4 ++ (data.drop (i + 4)).take (4 * rounds) := by
      rw [show 4 * (rounds + 1) = 4 + 4 * rounds by omega, List.take_add, List.drop_drop]
    have hfield : ((data.drop i).take 4).length = 4 := by
      rw [List.length_take, List.length_drop]
      omega
    rw [Req.unpackLoop, slice_eq (by omega), Exec.ok_bind, ih (i + 4) (by omega), Exec.ok_bind, hsplit,
      numbers_append hfield]

/-- **What `unpack` makes of what was received.** -/
theorem Req.unpack_eq (r : Req) {data : Bytes} (h : data.length < 2 ^ 31) :
    r.unpack order data = .ok (if 4 ∣ data.length then (0, ⟨numbers order data⟩) else (-1, r)) := by
  have hsize : toInt32 data.length = data.length := toInt32_of_lt h
  have hmod : Int.tmod (data.length : ℤ) 4 = ((data.length % 4 : ℕ) : ℤ) := rfl
  rw [Req.unpack]
  simp only [hsize, hmod]
  by_cases hdvd : 4 ∣ data.length
  · have hzero : data.length % 4 = 0 := Nat.mod_eq_zero_of_dvd hdvd
    have hrounds : ((data.length : ℤ) / 4).toNat = data.length / 4 := by omega
    have hall : 4 * (data.length / 4) = data.length := Nat.mul_div_cancel' hdvd
    rw [if_neg (by simp [hzero]), hrounds, Req.unpackLoop_eq _ _ (by omega), if_pos hdvd, hall, List.drop_zero,
      List.take_length]
    rfl
  · have hne : data.length % 4 ≠ 0 := fun hzero => hdvd (Nat.dvd_of_mod_eq_zero hzero)
    rw [if_pos (by omega), if_neg hdvd]

theorem Resp.pack_eq (order : DataMode) (r : Resp) {data t : Bytes} (h : data.length = 8) :
    r.pack order (data ++ t) = .ok (0, int64Bytes order r.param ++ t) := by
  have hcopy := copyTo_append [] data t (h.trans (length_int64Bytes order r.param).symm)
  have hroom : ¬ (((data ++ t).length : ℕ) : ℤ) < Resp.size := by
    rw [List.length_append, Resp.size]
    omega
  rw [Resp.pack, if_neg hroom]
  exact congrArg (fun x => x >>= fun data => Except.ok (0, data)) hcopy

/-- **What `unpack` makes of what was received**: it takes the front of it. -/
theorem Resp.unpack_eq (order : DataMode) (r : Resp) {data : Bytes} (h : data.length < 2 ^ 31) :
    r.unpack order data = .ok (if data.length < 8 then (-1, r) else (0, ⟨int64At order (data.take 8)⟩)) := by
  rw [Resp.unpack, toInt32_of_lt h, Resp.size]
  by_cases hlt : data.length < 8
  · rw [if_pos (by omega), if_pos hlt]
  · rw [if_neg (by omega), if_neg hlt, slice_eq (by omega)]
    rfl

/-- **Requests round-trip, both ways**: what is packed into an array of its size is unpacked again; and what
is received is a request that packs into just those bytes, or its length is no multiple of four, and then it
is refused and the request stays as it was. -/
theorem req_roundTrip (order : DataMode) (r₀ : Req) (data : Bytes) (h : data.length < 2 ^ 31) :
    (∀ params, data.length = 4 * params.length →
      ∃ out, (⟨params⟩ : Req).pack order data = .ok (0, out) ∧ r₀.unpack order out = .ok (0, ⟨params⟩)) ∧
    ((∃ r, r₀.unpack order data = .ok (0, r) ∧
        ∀ array : Bytes, array.length = data.length → r.pack order array = .ok (0, data)) ∨
      ¬ 4 ∣ data.length ∧ r₀.unpack order data = .ok (-1, r₀)) := by
  constructor
  · intro params hdata
    have hlt : params.length < 2 ^ 29 := by omega
    have hpack := Req.pack_eq order (r := ⟨params⟩) (t := []) hlt hdata
    rw [List.append_nil, List.append_nil] at hpack
    have hlen := length_text order params
    have hshort : (text order params).length < 2 ^ 31 := by omega
    refine ⟨_, hpack, ?_⟩
    rw [Req.unpack_eq _ hshort, if_pos ⟨_, hlen⟩, numbers_text]
  · rw [Req.unpack_eq r₀ h]
    by_cases hdvd : 4 ∣ data.length
    · have hlen := length_numbers order hdvd
      refine .inl ⟨_, by rw [if_pos hdvd], fun array harray => ?_⟩
      have hlt : (numbers order data).length < 2 ^ 29 := by omega
      have hpack := Req.pack_eq order (r := ⟨numbers order data⟩) (t := []) hlt (harray.trans hlen.symm)
      rwa [List.append_nil, List.append_nil, text_numbers hdvd] at hpack
    · exact .inr ⟨hdvd, by rw [if_neg hdvd]⟩

/-- A request of two numbers, one of them negative, in the order of a big-endian machine. -/
theorem req_roundTrip_sample :
    (∀ params, 8 = 4 * params.length → ∃ out,
      (⟨params⟩ : Req).pack .BigEndian [0, 0, 0, 1, 255, 255, 255, 254] = .ok (0, out) ∧
        (⟨[]⟩ : Req).unpack .BigEndian out = .ok (0, ⟨params⟩)) ∧
    ((∃ r, (⟨[]⟩ : Req).unpack .BigEndian [0, 0, 0, 1, 255, 255, 255, 254] = .ok (0, r) ∧
        ∀ array : Bytes, array.length = 8 →
          r.pack .BigEndian array = .ok (0, [0, 0, 0, 1, 255, 255, 255, 254])) ∨
      ¬ 4 ∣ 8 ∧ (⟨[]⟩ : Req).unpack .BigEndian [0, 0, 0, 1, 255, 255, 255, 254] = .ok (-1, ⟨[]⟩)) :=
  req_roundTrip .BigEndian ⟨[]⟩ [0, 0, 0, 1, 255, 255, 255, 254] (by decide)

/-! ### The sum -/

/-- The sum of numbers. -/
def total (params : List Int32) : ℤ := (params.map Int32.toInt).sum

theorem total_append (a b : List Int32) : total (a ++ b) = total a + total b := by
  rw [total, List.map_append, List.sum_append]
  rfl

/-- A sum of `n` numbers of 32 bits. -/
theorem total_bounds (params : List Int32) :
    -(2 ^ 31 * params.length) ≤ total params ∧ total params ≤ 2 ^ 31 * params.length := by
  induction params with
  | nil => exact ⟨le_refl 0, le_refl 0⟩
  | cons param params ih =>
    have hlow := param.le_toInt
    have hhigh := param.toInt_lt
    have htotal : total (param :: params) = param.toInt + total params := List.sum_cons
    rw [htotal, List.length_cons]
    push_cast
    omega

theorem toInt_total {params : List Int32} (h : params.length < 2 ^ 31) :
    (Int64.ofInt (total params)).toInt = total params := by
  obtain ⟨hlow, hhigh⟩ := total_bounds params
  exact Int64.toInt_ofInt_of_le (by omega) (by omega)

theorem foldlM_addInt64 (before params : List Int32) (h : (before ++ params).length < 2 ^ 31) :
    params.foldlM addInt64 (.ofInt (total before)) = .ok (.ofInt (total (before ++ params))) := by
  induction params generalizing before with
  | nil =>
    rw [List.append_nil]
    rfl
  | cons param params ih =>
    have hlist : before ++ param :: params = before ++ [param] ++ params := by simp
    have hshort : (before ++ [param]).length < 2 ^ 31 := by
      rw [hlist, List.length_append] at h
      omega
    obtain ⟨hlow, hhigh⟩ := total_bounds (before ++ [param])
    have htotal : total (before ++ [param]) = total before + param.toInt := by
      rw [total_append]
      exact congrArg (total before + ·) (add_zero _)
    have hbefore : (Int64.ofInt (total before)).toInt = total before :=
      toInt_total (by rw [List.length_append] at hshort; omega)
    have hadd : addInt64 (.ofInt (total before)) param = .ok (.ofInt (total (before ++ [param]))) := by
      rw [addInt64, hbefore, ← htotal, if_pos ⟨by omega, by omega⟩]
    rw [List.foldlM_cons, hadd, hlist]
    exact ih (before ++ [param]) (hlist ▸ h)

/-- **The sum does not overflow**, whatever the numbers are. -/
theorem sum_eq (req : Req) (h : req.params.length < 2 ^ 31) :
    RpcServer.sum req = .ok ⟨.ofInt (total req.params)⟩ := by
  have hfold := foldlM_addInt64 [] req.params h
  rw [RpcServer.sum]
  exact congrArg (fun x : Exec Int64 => x >>= fun param => (.ok ⟨param⟩ : Exec Resp)) hfold

end UvCpp.Rpc
