import UvCpp.Packet.Stream

/-!
# Waiting for a packet

With a packet that has not arrived whole at the front of the buffer, `readFromBuffer` returns `-1`
and leaves it there, until it is whole. The size of a packet is announced in two bytes, the default
cycle buffer holds 32767 bytes: a packet announced to be longer than that never becomes whole, and
nothing behind it is ever read (`runAll_receive_of_oversized`).

What a call does depends on the bytes held. It goes to the first head byte. If the packet
announced there is not whole, the call stops. If it is whole and ends with the end byte, it is read.
If it does not, the call goes on three bytes at a time, still with the size announced first, since
the string into which it reads is not emptied (`readFromBuffer_cases`). From that follows for which
bytes a call leaves a packet that cannot become whole (`canProgress_iff`).
-/

namespace UvCpp

open UvCpp.Cpp UvCpp.Buffer UvCpp.Systems

/-- `GlobalConfig::CycleBufferSize`, as the program starts. -/
def GlobalConfig.CycleBufferSize : ℕ := 1024 <<< 5

namespace Packet

variable {β : Type} [PacketBuffer β] {c : Settings}

/-- The size announced behind a head byte. -/
def announced (c : Settings) (s : Bytes) : ℕ := UnpackNum c.Mode 2 ((s.drop 1).take 2)

open LawfulPacketBuffer

variable [LawfulPacketBuffer β] {b : β}

/-- A packet announced at the front, whole up to its end byte: it is read, or three bytes are
dropped. -/
theorem readFromBufferLoop_of_whole {m : ℕ} (hm : ReadsOnto β m) (hb : Valid b) {data : Bytes} {n : ℕ}
    (hlen : n + 4 ≤ (contents b).length)
    (h : Announces c n (data ++ (contents b).take 3)) (hdata : data.length + 3 < m) (fuel : ℕ)
    (out : Packet) :
    ∃ b', Valid b' ∧ contents b' = (contents b).drop 3 ∧
      readFromBufferLoop c (fuel + 1) b data out =
        if (contents b)[n + 3]? = some c.EndByte then
          .ok (0, (PacketBuffer.clearBufferN b' (n + 1)).2,
            (out.swap (data ++ (contents b).take (n + 4))).1)
        else readFromBufferLoop c fuel b' (data ++ (contents b).take (n + 4)) out := by
  obtain ⟨-, hb3, hc3⟩ := clearBufferN_eq (N := 3) hb
  refine ⟨_, hb3, hc3, ?_⟩
  have hread : PacketBuffer.readBufferN (PacketBuffer.clearBufferN b 3).2
      (data ++ (contents b).take 3) (n + 1) = .ok (0, data ++ (contents b).take (n + 4)) := by
    have hshort : (data ++ (contents b).take 3).length < m := by
      rw [List.length_append, List.length_take]
      omega
    rw [hm hb3 (by rw [hc3, List.length_drop]; omega) hshort, hc3, List.append_assoc,
      ← List.take_add, Nat.add_comm 3]
  have hlt : n + 3 < (contents b).length := by omega
  have hback : (data ++ (contents b).take (n + 4)).getLast? = some (contents b)[n + 3] := by
    rw [List.take_succ_eq_append_getElem hlt, ← List.append_assoc, List.getLast?_concat]
  rw [readFromBufferLoop_of_announces hm hb (by omega) (by omega) h, if_neg (by omega)]
  simp only [hread, Except.bind, hback, List.getElem?_eq_getElem hlt, Option.some.injEq]

/-- The sum of an announced size above 65531 and the four other bytes wraps. Such a packet counts as
whole, but is not read: three bytes are dropped, and the last of them is taken for its end byte. -/
theorem readFromBufferLoop_of_overlong {m : ℕ} (hm : ReadsOnto β m) (hb : Valid b) {data : Bytes} {n : ℕ}
    (hn : 65532 ≤ n) (hn' : n < 2 ^ 16) (h4 : 4 ≤ (contents b).length) (hlen : (contents b).length < n + 4)
    (h : Announces c n (data ++ (contents b).take 3)) (hdata : data.length + 3 < m) (fuel : ℕ)
    (out : Packet) :
    ∃ b', Valid b' ∧ contents b' = (contents b).drop 3 ∧
      readFromBufferLoop c (fuel + 1) b data out =
        if (contents b)[2]? = some c.EndByte then
          .ok (0, (PacketBuffer.clearBufferN b' (n + 1)).2, (out.swap (data ++ (contents b).take 3)).1)
        else readFromBufferLoop c fuel b' (data ++ (contents b).take 3) out := by
  obtain ⟨-, hb3, hc3⟩ := clearBufferN_eq (N := 3) hb
  refine ⟨_, hb3, hc3, ?_⟩
  have hread : PacketBuffer.readBufferN (PacketBuffer.clearBufferN b 3).2
      (data ++ (contents b).take 3) (n + 1) = .ok (-1, data ++ (contents b).take 3) :=
    readBufferN_of_lt hb3 (by rw [hc3, List.length_drop]; omega)
  have hlt : 2 < (contents b).length := by omega
  have hback : (data ++ (contents b).take 3).getLast? = some (contents b)[2] := by
    rw [List.take_succ_eq_append_getElem hlt, ← List.append_assoc, List.getLast?_concat]
  rw [readFromBufferLoop_of_announces hm hb h4 (by omega) h, if_neg (by omega)]
  simp only [hread, Except.bind, hback, List.getElem?_eq_getElem hlt, Option.some.injEq]

/-- With fewer than four bytes nothing is read. -/
theorem readFromBufferLoop_of_lt (hb : Valid b) (h : (contents b).length < 4) (fuel : ℕ) (data : Bytes)
    (out : Packet) : readFromBufferLoop c (fuel + 1) b data out = .ok (-1, b, out) := by
  rw [readFromBufferLoop, readSize_eq hb, if_pos (show _ < PacketMinSize from h)]

/-- A packet that is not whole is waited for. -/
theorem readFromBufferLoop_of_waiting {m : ℕ} (hm : ReadsOnto β m) (hb : Valid b)
    (h4 : 4 ≤ (contents b).length) {data : Bytes} {n : ℕ}
    (hlen : (contents b).length < (n + 4) % 2 ^ 16) (h : Announces c n (data ++ (contents b).take 3))
    (hdata : data.length < m) (fuel : ℕ) (out : Packet) :
    readFromBufferLoop c (fuel + 1) b data out = .ok (-1, b, out) := by
  rw [readFromBufferLoop_of_announces hm hb h4 hdata h, if_pos hlen]

/-- A byte that begins no packet is dropped. -/
theorem readFromBufferLoop_of_skipped (hb : Valid b) (h4 : 4 ≤ (contents b).length) {x : UInt8} {s : Bytes}
    (h : contents b = x :: s) (hx : x ≠ c.HeadByte) (fuel : ℕ) (out : Packet) :
    ∃ b', Valid b' ∧ contents b' = s ∧
      readFromBufferLoop c (fuel + 1) b [] out = readFromBufferLoop c fuel b' [] out := by
  obtain ⟨-, hb1, hc1⟩ := clearBufferN_eq (N := 1) hb
  refine ⟨_, hb1, by rw [hc1, h, List.drop_one, List.tail_cons], ?_⟩
  have hread : PacketBuffer.readBufferN b [] 3 = .ok (0, (contents b).take 3) :=
    readBufferN_of_le hb (by omega) (by decide)
  have hhead : ((contents b).take 3).headD 0 = x := by rw [h]; rfl
  rw [readFromBufferLoop]
  simp only [readSize_eq hb, PacketMinSize, not_lt.mpr h4, if_false, hread, Exec.ok_bind, hhead, ne_eq, hx,
    not_false_eq_true, if_true]

/-! ### What a call does -/

/-- No end byte stands where the end of a packet of the size `n` is looked for: behind the size and
the data, and from there on every three bytes. -/
def Unended (c : Settings) (n : ℕ) (s : Bytes) : Prop := ∀ j, 0 < j → s[n + 3 * j]? ≠ some c.EndByte

/-- The bytes at which the call stops if it finds no end byte. -/
def unread (n : ℕ) (s : Bytes) : Bytes := s.drop (3 * ((s.length - 1 - n) / 3))

theorem unended_iff_of_le {n : ℕ} {s : Bytes} :
    Unended c n s ↔ s[n + 3]? ≠ some c.EndByte ∧ Unended c n (s.drop 3) := by
  constructor
  · intro h
    refine ⟨h 1 (by decide), fun j hj => ?_⟩
    rw [List.getElem?_drop, show 3 + (n + 3 * j) = n + 3 * (j + 1) by omega]
    exact h (j + 1) (Nat.succ_pos j)
  · rintro ⟨hone, h⟩ j hj
    cases j with
    | zero => exact absurd hj (lt_irrefl 0)
    | succ j =>
      rcases Nat.eq_zero_or_pos j with rfl | hj
      · exact hone
      · have := h j hj
        rwa [List.getElem?_drop, show 3 + (n + 3 * j) = n + 3 * (j + 1) by omega] at this

theorem unread_drop {n : ℕ} {s : Bytes} (h : n + 4 ≤ s.length) : unread n (s.drop 3) = unread n s := by
  rw [unread, unread, List.drop_drop, List.length_drop]
  congr 1
  omega

theorem unended_of_lt {n : ℕ} {s : Bytes} (h : s.length < n + 4) : Unended c n s := by
  intro j hj
  rw [List.getElem?_eq_none (by omega)]
  exact Option.some_ne_none _ ∘ Eq.symm

theorem unread_of_lt {n : ℕ} {s : Bytes} (h : s.length < n + 4) : unread n s = s := by
  rw [unread, show 3 * ((s.length - 1 - n) / 3) = 0 by omega, List.drop_zero]

/-- Three bytes dropped make room for what is read in their round. -/
theorem room_le {l k : ℕ} (h : 3 ≤ l) (hk : k ≤ l) : k + (l - 3) * (l - 3 + 3) ≤ l * (l + 3) := by
  obtain ⟨m, rfl⟩ := Nat.exists_eq_add_of_le' h
  rw [Nat.add_sub_cancel]
  nlinarith

/-- Once a size is announced, the call reads a packet that ends with an end byte, or stops. -/
theorem readFromBufferLoop_cases (hb : Valid b) {data : Bytes} {n : ℕ} (hn : n ≤ 65531)
    (h : 4 ≤ (contents b).length → Announces c n (data ++ (contents b).take 3))
    (hdata : data.length + (contents b).length * ((contents b).length + 3) + 3 < 2 ^ 31) {fuel : ℕ}
    (hfuel : (contents b).length < fuel) (out : Packet) :
    ∃ code b' p, readFromBufferLoop c fuel b data out = .ok (code, b', p) ∧ Valid b' ∧
      (code = 0 ∧ (contents b').length < (contents b).length ∧ ¬ Unended c n (contents b) ∨
        code = -1 ∧ contents b' = unread n (contents b) ∧ Unended c n (contents b)) := by
  induction fuel generalizing b data with
  | zero => exact absurd hfuel (Nat.not_lt_zero _)
  | succ fuel ih =>
    by_cases hlen : n + 4 ≤ (contents b).length
    · obtain ⟨b', hb', hc', hloop⟩ := readFromBufferLoop_of_whole readsOnto_int hb hlen (h (by omega))
        (by omega) fuel out
      by_cases hend : (contents b)[n + 3]? = some c.EndByte
      · obtain ⟨-, hb'', hc''⟩ := clearBufferN_eq (N := n + 1) hb'
        rw [hloop, if_pos hend]
        refine ⟨0, _, _, rfl, hb'', .inl ⟨rfl, ?_, fun hun => hun 1 (by decide) hend⟩⟩
        rw [hc'', hc', List.length_drop, List.length_drop]
        omega
      · have hlen' : (contents b').length = (contents b).length - 3 := by rw [hc', List.length_drop]
        -- the size announced first is still in front of what was read
        have hann : Announces c n (data ++ (contents b).take (n + 4) ++ (contents b').take 3) := by
          rw [show n + 4 = 3 + (n + 1) by omega, List.take_add, ← List.append_assoc]
          exact ((h (by omega)).append _).append _
        have hroom : (data ++ (contents b).take (n + 4)).length +
            (contents b').length * ((contents b').length + 3) + 3 < 2 ^ 31 := by
          have := room_le (show 3 ≤ (contents b).length by omega) hlen
          rw [List.length_append, List.length_take_of_le hlen, hlen']
          omega
        obtain ⟨code, b'', p, hrun, hb'', hcase⟩ := ih hb' (fun _ => hann) hroom (by omega)
        rw [hloop, if_neg hend]
        refine ⟨code, b'', p, hrun, hb'', ?_⟩
        rw [hc', unread_drop hlen] at hcase
        rw [unended_iff_of_le]
        rcases hcase with ⟨rfl, hlt, hun⟩ | ⟨rfl, hc'', hun⟩
        · refine .inl ⟨rfl, ?_, fun hun' => hun hun'.2⟩
          rw [List.length_drop] at hlt
          omega
        · exact .inr ⟨rfl, hc'', hend, hun⟩
    · have hstop : readFromBufferLoop c (fuel + 1) b data out = .ok (-1, b, out) := by
        by_cases h4 : 4 ≤ (contents b).length
        · exact readFromBufferLoop_of_waiting readsOnto_int hb h4 (by omega) (h h4) (by omega) fuel out
        · exact readFromBufferLoop_of_lt hb (by omega) fuel data out
      refine ⟨-1, b, out, hstop, hb, .inr ⟨rfl, ?_, unended_of_lt (by omega)⟩⟩
      rw [unread_of_lt (by omega)]

/-- With a size announced that wraps, the call returns a packet of what it has read, or stops with
fewer than four bytes. -/
theorem readFromBufferLoop_wraps (hb : Valid b) {data : Bytes} {n : ℕ} (hn : 65532 ≤ n) (hn' : n < 2 ^ 16)
    (hlen : (contents b).length < n + 4)
    (h : 4 ≤ (contents b).length → Announces c n (data ++ (contents b).take 3))
    (hdata : data.length + (contents b).length + 3 < 2 ^ 31) {fuel : ℕ}
    (hfuel : (contents b).length < fuel) (out : Packet) :
    ∃ code b' p, readFromBufferLoop c fuel b data out = .ok (code, b', p) ∧ Valid b' ∧
      (code = 0 ∧ (contents b').length < (contents b).length ∨
        code = -1 ∧ (contents b').length < 4) := by
  induction fuel generalizing b data with
  | zero => exact absurd hfuel (Nat.not_lt_zero _)
  | succ fuel ih =>
    by_cases h4 : 4 ≤ (contents b).length
    · obtain ⟨b', hb', hc', hloop⟩ := readFromBufferLoop_of_overlong readsOnto_int hb hn hn' h4 hlen (h h4)
        (by omega) fuel out
      have hlen' : (contents b').length = (contents b).length - 3 := by rw [hc', List.length_drop]
      by_cases hend : (contents b)[2]? = some c.EndByte
      · obtain ⟨-, hb'', hc''⟩ := clearBufferN_eq (N := n + 1) hb'
        rw [hloop, if_pos hend]
        refine ⟨0, _, _, rfl, hb'', .inl ⟨rfl, ?_⟩⟩
        rw [hc'', List.length_drop]
        omega
      · have hread : (data ++ (contents b).take 3).length = data.length + 3 := by
          rw [List.length_append, List.length_take_of_le (by omega)]
        obtain ⟨code, b'', p, hrun, hb'', hcase⟩ := ih hb' (by omega)
          (fun _ => (h h4).append _) (by omega) (by omega)
        rw [hloop, if_neg hend]
        refine ⟨code, b'', p, hrun, hb'', ?_⟩
        rcases hcase with ⟨rfl, hlt⟩ | hstop
        · exact .inl ⟨rfl, by omega⟩
        · exact .inr hstop
    · have hlt : (contents b).length < 4 := by omega
      exact ⟨-1, b, out, readFromBufferLoop_of_lt hb hlt fuel data out, hb, .inr ⟨rfl, hlt⟩⟩

/-- The bytes from the first head byte on. -/
def fromHead (c : Settings) (s : Bytes) : Bytes := s.dropWhile fun x => x ≠ c.HeadByte

/-- A head byte and a size stand at the front, of a packet longer than the bytes that the default cycle
buffer can hold. -/
structure Oversized (c : Settings) (s : Bytes) : Prop where
  /-- There are four bytes. -/
  long : 4 ≤ s.length
  /-- The first one is a head byte. -/
  head : s.head? = some c.HeadByte
  /-- The packet announced is too long. -/
  tooLong : GlobalConfig.CycleBufferSize - 1 < announced c s + 4
  /-- Its length is a 16-bit number. -/
  lt : announced c s + 4 < 2 ^ 16

/-- The call that finds these bytes, a head byte first, leaves the beginning of a packet that is too
long. Mostly that is the packet announced here; it is another one if this one is whole and no end byte
stands behind it. -/
structure Blocked (c : Settings) (s : Bytes) : Prop where
  /-- No packet is read. -/
  unended : Unended c (announced c s) s
  /-- What is left begins a packet that is too long. -/
  oversized : Oversized c (unread (announced c s) s)

theorem announced_lt (c : Settings) (s : Bytes) : announced c s < 2 ^ 16 := unpackNum_lt c.Mode 2 _

theorem announces_of_head? {s : Bytes} (h4 : 4 ≤ s.length) (hhead : s.head? = some c.HeadByte) :
    Announces c (announced c s) (s.take 3) := by
  match s, h4, hhead with
  | x :: y :: z :: s, _, hhead =>
    obtain rfl : x = c.HeadByte := Option.some.inj hhead
    exact ⟨[y, z], [], rfl, rfl, rfl⟩

theorem not_oversized_of_lt {s : Bytes} (h : s.length < 4) : ¬ Oversized c s :=
  fun hover => absurd hover.long (by omega)

theorem not_blocked_of_lt {s : Bytes} (h : s.length < 4) : ¬ Blocked c s := by
  intro hblocked
  refine not_oversized_of_lt ?_ hblocked.oversized
  rw [unread, List.length_drop]
  omega

theorem not_blocked_of_wraps {s : Bytes} (h : 65532 ≤ announced c s) (hlen : s.length ≤ announced c s) :
    ¬ Blocked c s := by
  intro hblocked
  have hover := hblocked.oversized
  rw [unread_of_lt (by omega)] at hover
  have := hover.lt
  omega

theorem length_fromHead_le (c : Settings) (s : Bytes) : (fromHead c s).length ≤ s.length :=
  (List.dropWhile_suffix _).length_le

/-- How a call can end that holds so many bytes, these from the first head byte on: the return code,
and the bytes that are left. -/
inductive Outcome (c : Settings) (held : ℕ) (s : Bytes) : ℤ → Bytes → Prop where
  /-- A packet is read. -/
  | read {left : Bytes} : left.length < held → ¬ Blocked c s → Outcome c held s 0 left
  /-- Fewer bytes are left than there are in the shortest packet. -/
  | short {left : Bytes} : left.length < 4 → ¬ Blocked c s → Outcome c held s (-1) left
  /-- The packet announced is not whole, or no end byte stands behind it. -/
  | waiting : Unended c (announced c s) s → Outcome c held s (-1) (unread (announced c s) s)

theorem Outcome.mono {held held' : ℕ} {s left : Bytes} {code : ℤ} (h : Outcome c held s code left)
    (hle : held ≤ held') : Outcome c held' s code left := by
  cases h with
  | read hlt hblocked => exact .read (hlt.trans_le hle) hblocked
  | short hlt hblocked => exact .short hlt hblocked
  | waiting hun => exact .waiting hun

/-- The call ends with the packet announced at the front of the buffer. -/
theorem readFromBufferLoop_of_head (hb : Valid b) (h4 : 4 ≤ (contents b).length)
    (hlen : (contents b).length ≤ 32767) (hhead : (contents b).head? = some c.HeadByte) {fuel : ℕ}
    (hfuel : (contents b).length < fuel) (out : Packet) :
    ∃ code b' p, readFromBufferLoop c fuel b [] out = .ok (code, b', p) ∧ Valid b' ∧
      Outcome c (contents b).length (contents b) code (contents b') := by
  have hann : Announces c (announced c (contents b)) ([] ++ (contents b).take 3) :=
    announces_of_head? h4 hhead
  by_cases hn : announced c (contents b) ≤ 65531
  · have hroom : (contents b).length * ((contents b).length + 3) ≤ 32767 * 32770 :=
      Nat.mul_le_mul hlen (Nat.add_le_add_right hlen 3)
    obtain ⟨code, b', p, hrun, hb', hcase⟩ := readFromBufferLoop_cases hb hn (fun _ => hann)
      (by rw [List.length_nil]; omega) hfuel out
    refine ⟨code, b', p, hrun, hb', ?_⟩
    rcases hcase with ⟨rfl, hlt, hun⟩ | ⟨rfl, hstop, hun⟩
    · exact .read hlt fun hblocked => hun hblocked.unended
    · rw [hstop]
      exact .waiting hun
  · have hblocked : ¬ Blocked c (contents b) := not_blocked_of_wraps (by omega) (by omega)
    obtain ⟨code, b', p, hrun, hb', hcase⟩ := readFromBufferLoop_wraps hb (by omega) (announced_lt c _)
      (by omega) (fun _ => hann) (by rw [List.length_nil]; omega) hfuel out
    refine ⟨code, b', p, hrun, hb', ?_⟩
    rcases hcase with ⟨rfl, hlt⟩ | ⟨rfl, hlt⟩
    · exact .read hlt hblocked
    · exact .short hlt hblocked

/-- A call goes to the first head byte, or to where fewer than four bytes are left. -/
theorem readFromBufferLoop_fromHead (hb : Valid b) {fuel : ℕ} (hfuel : (contents b).length < fuel)
    (out : Packet) :
    ∃ b' fuel', Valid b' ∧ (contents b').length ≤ (contents b).length ∧ (contents b').length < fuel' ∧
      readFromBufferLoop c fuel b [] out = readFromBufferLoop c fuel' b' [] out ∧
      ((contents b').length < 4 ∧ (fromHead c (contents b)).length < 4 ∨
        4 ≤ (contents b').length ∧ contents b' = fromHead c (contents b) ∧
          (contents b').head? = some c.HeadByte) := by
  induction fuel generalizing b with
  | zero => exact absurd hfuel (Nat.not_lt_zero _)
  | succ fuel ih =>
    by_cases h4 : 4 ≤ (contents b).length
    · obtain ⟨x, s, hs⟩ := List.exists_cons_of_length_pos (show 0 < (contents b).length by omega)
      by_cases hx : x = c.HeadByte
      · have hfrom : fromHead c (contents b) = contents b := by
          rw [fromHead, hs, List.dropWhile_cons_of_neg (by simpa using hx)]
        exact ⟨b, fuel + 1, hb, le_rfl, hfuel, rfl, .inr ⟨h4, hfrom.symm, by rw [hs, hx]; rfl⟩⟩
      · obtain ⟨b₁, hb₁, hc₁, hloop⟩ := readFromBufferLoop_of_skipped hb h4 hs hx fuel out
        have hfrom : fromHead c (contents b) = fromHead c (contents b₁) := by
          rw [fromHead, hs, List.dropWhile_cons_of_pos (by simpa using hx), hc₁, fromHead]
        have hlen₁ : (contents b).length = (contents b₁).length + 1 := by rw [hs, hc₁, List.length_cons]
        obtain ⟨b', fuel', hb', hle, hlt, hrun, hcase⟩ := ih hb₁ (by omega)
        exact ⟨b', fuel', hb', by omega, hlt, hloop.trans hrun, hfrom ▸ hcase⟩
    · have hlt : (contents b).length < 4 := by omega
      exact ⟨b, fuel + 1, hb, le_rfl, hfuel, rfl, .inl ⟨hlt, (length_fromHead_le c _).trans_lt hlt⟩⟩

/-- **What a call does.** It reads, or it stops with fewer than four bytes, or it stops where a packet
is announced that is not whole. -/
theorem readFromBuffer_cases (hb : Valid b) (hlen : (contents b).length ≤ 32767) (out : Packet) :
    ∃ code b' p, readFromBuffer c b out = .ok (code, b', p) ∧ Valid b' ∧
      Outcome c (contents b).length (fromHead c (contents b)) code (contents b') := by
  rw [readFromBuffer, readSize_eq hb]
  obtain ⟨b₁, fuel, hb₁, hle, hfuel, hloop, ⟨hlt, hshort⟩ | ⟨h4, hfrom, hhead⟩⟩ :=
    readFromBufferLoop_fromHead (c := c) hb (Nat.lt_succ_self _) out
  · obtain ⟨fuel, rfl⟩ := Nat.exists_eq_add_one_of_ne_zero (Nat.ne_zero_of_lt hfuel)
    rw [hloop]
    exact ⟨-1, b₁, out, readFromBufferLoop_of_lt hb₁ hlt fuel [] out, hb₁, .short hlt (not_blocked_of_lt hshort)⟩
  · obtain ⟨code, b', p, hrun, hb', hout⟩ := readFromBufferLoop_of_head hb₁ h4 (hle.trans hlen) hhead hfuel out
    rw [hloop, ← hfrom]
    exact ⟨code, b', p, hrun, hb', hout.mono hle⟩

/-! ### Waiting -/

/-- The bytes are the beginning of a packet with data of the size `n`, by the test the loop makes. -/
structure Awaits (c : Settings) (s : Bytes) (n : ℕ) : Prop where
  /-- There are four bytes. -/
  long : 4 ≤ s.length
  /-- The first one is a head byte. -/
  head : s.head? = some c.HeadByte
  /-- The size is announced. -/
  size : announced c s = n
  /-- The packet is not whole: the test is made with 16-bit numbers. -/
  lt : s.length < (n + 4) % 2 ^ 16

/-- Whether the reader can go on from these bytes: they are fewer than four, or what it waits for can
be held by the default cycle buffer. -/
def CanProgress (c : Settings) (s : Bytes) : Prop :=
  s.length < 4 ∨ ∀ n, Awaits c s n → n + 4 ≤ GlobalConfig.CycleBufferSize - 1

/-- As long as a packet is awaited, a call changes nothing. -/
theorem readFromBuffer_of_awaits (hb : Valid b) {n : ℕ} (h : Awaits c (contents b) n) (out : Packet) :
    readFromBuffer c b out = .ok (-1, b, out) := by
  have hann : Announces c n ([] ++ (contents b).take 3) := h.size ▸ announces_of_head? h.long h.head
  exact readFromBufferLoop_of_waiting readsOnto_int hb h.long h.lt hann (by decide) _ out

theorem Oversized.awaits {s : Bytes} (h : Oversized c s) (hlen : s.length ≤ 32767) :
    Awaits c s (announced c s) := by
  have hlt := h.lt
  have htoo := h.tooLong
  rw [GlobalConfig.CycleBufferSize] at htoo
  exact ⟨h.long, h.head, rfl, by omega⟩

theorem Oversized.append {s : Bytes} (h : Oversized c s) (t : Bytes) : Oversized c (s ++ t) := by
  obtain ⟨long, head, tooLong, lt⟩ := h
  have hann : announced c (s ++ t) = announced c s := by
    rw [announced, announced, List.drop_append_of_le_length (by omega),
      List.take_append_of_le_length (by rw [List.length_drop]; omega)]
  refine ⟨by rw [List.length_append]; omega, ?_, hann.symm ▸ tooLong, hann.symm ▸ lt⟩
  rw [List.head?_append, head]
  rfl

/-- The reader cannot go on exactly if a packet that is too long stands at the front. -/
theorem canProgress_iff_not_oversized {s : Bytes} (hlen : s.length ≤ 32767) :
    CanProgress c s ↔ ¬ Oversized c s := by
  constructor
  · rintro (hlt | hfits) hover
    · exact not_oversized_of_lt hlt hover
    · exact absurd (hfits _ (hover.awaits hlen)) (not_le.mpr hover.tooLong)
  · intro hover
    by_cases h4 : s.length < 4
    · exact .inl h4
    · refine .inr fun n h => not_lt.mp fun htoo => hover ?_
      have hlt := h.lt
      have hlong := h.long
      have hn : n < 2 ^ 16 := h.size ▸ announced_lt c s
      exact ⟨h.long, h.head, h.size ▸ htoo, by rw [h.size]; omega⟩

/-- A call can leave a packet that is too long only if the bytes it finds are such. -/
theorem Outcome.progresses_iff {held : ℕ} {s left : Bytes} {code : ℤ} (h : Outcome c held s code left)
    (hlen : left.length ≤ 32767) : (code = -1 → CanProgress c left) ↔ ¬ Blocked c s := by
  cases h with
  | read _ hblocked => exact iff_of_true (fun hcode => absurd hcode (by decide)) hblocked
  | short hlt hblocked => exact iff_of_true (fun _ => .inl hlt) hblocked
  | waiting hun =>
    rw [canProgress_iff_not_oversized hlen]
    exact ⟨fun h hblocked => h rfl hblocked.oversized, fun h _ hover => h ⟨hun, hover⟩⟩

/-! ### Reading until there is none -/

/-- Reading packets until there is none comes to an end. -/
theorem exists_readPackets (hb : Valid b) (hlen : (contents b).length ≤ 32767) {fuel : ℕ}
    (hfuel : (contents b).length < fuel) :
    ∃ b' packets, readPackets c fuel b = .ok (b', packets) ∧ Valid b' := by
  induction fuel generalizing b with
  | zero => exact absurd hfuel (Nat.not_lt_zero _)
  | succ fuel ih =>
    obtain ⟨code, b₁, p, hread, hb₁, hout⟩ := readFromBuffer_cases (c := c) hb hlen Packet.new
    rw [readPackets, hread, Exec.ok_bind]
    generalize hleft : contents b₁ = left at hout
    cases hout with
    | read hlt _ =>
      obtain ⟨b', packets, hreads, hb'⟩ := ih hb₁ (by rw [hleft]; omega) (by rw [hleft]; omega)
      exact ⟨b', p :: packets, by simp [hreads], hb'⟩
    | short _ _ => exact ⟨b₁, [], rfl, hb₁⟩
    | waiting _ => exact ⟨b₁, [], rfl, hb₁⟩

/-- An append leaves a buffer, and what it held at the front. -/
theorem exists_append (hb : Valid b) (data : Bytes) : ∃ code b', PacketBuffer.append b data = .ok (code, b') ∧
    Valid b' ∧ ∃ t, contents b' = contents b ++ t := by
  by_cases hfit : Fits β ((contents b).length + data.length)
  · obtain ⟨b', happ, hb', hcont⟩ := append_of_fits hb hfit
    exact ⟨0, b', happ, hb', data, hcont⟩
  · exact ⟨-1, b, append_of_not_fits hb hfit, hb, [], (List.append_nil _).symm⟩

section Bounded

variable (hcap : ∀ b : β, Valid b → (contents b).length ≤ 32767)

include hcap

/-- Whatever a chunk is, its arrival comes to an end. -/
theorem exists_receive (hb : Valid b) (chunk : Bytes) :
    ∃ b' packets, receive c b chunk = .ok (b', packets) ∧ Valid b' := by
  obtain ⟨code, b₁, happ, hb₁, -⟩ := exists_append hb chunk
  have hfuel : (contents b₁).length < PacketBuffer.readSize b₁ + 1 := by
    rw [readSize_eq hb₁]
    exact Nat.lt_succ_self _
  obtain ⟨b', packets, hreads, hb'⟩ := exists_readPackets (c := c) hb₁ (hcap b₁ hb₁) hfuel
  exact ⟨b', packets, by simp [receive, happ, hreads], hb'⟩

/-- **A packet that is too long is waited for forever**: whatever comes, nothing is read any more. -/
theorem runAll_receive_of_oversized (hb : Valid b) (hover : Oversized c (contents b))
    (chunks : List Bytes) :
    ∃ b', runAll (receive c) b chunks = .ok (b', List.replicate chunks.length []) ∧ Valid b' ∧
      Oversized c (contents b') := by
  induction chunks generalizing b with
  | nil => exact ⟨b, rfl, hb, hover⟩
  | cons chunk chunks ih =>
    obtain ⟨code, b₁, happ, hb₁, t, hcont⟩ := exists_append hb chunk
    have hover₁ : Oversized c (contents b₁) := hcont ▸ hover.append t
    have hread := readFromBuffer_of_awaits hb₁ (hover₁.awaits (hcap b₁ hb₁)) Packet.new
    have hrec : receive c b chunk = .ok (b₁, []) := by simp [receive, happ, readPackets, hread]
    obtain ⟨b', hrun, hb', hover'⟩ := ih hb₁ hover₁
    exact ⟨b', runAll_cons_of hrec hrun, hb', hover'⟩

end Bounded

/-! ### The receiver -/

/-- `EchoServer::newMessage` with a buffer: what the connection's buffer holds, and whether the loop
that reads packets is running. -/
structure Receiver (β : Type) where
  /-- The packet buffer. -/
  packetbuf : β
  /-- Whether `readPacket` is called next. -/
  reading : Bool

/-- What happens to a receiver. -/
inductive Receiver.Event where
  /-- A chunk arrives and is appended; the return code is not looked at. -/
  | newMessage (buf : Bytes)
  /-- `readPacket(packet)`. -/
  | readPacket (packet : Packet)

/-- The next state: the loop runs until `readPacket` returns something other than zero. -/
def Receiver.next (c : Settings) {β : Type} [PacketBuffer β] (x : Receiver β) : Event → Option (Receiver β)
  | .newMessage buf =>
    if x.reading then none
    else
      match PacketBuffer.append x.packetbuf buf with
      | .ok (_, packetbuf) => some ⟨packetbuf, true⟩
      | .error _ => none
  | .readPacket packet =>
    if x.reading then
      match readFromBuffer c x.packetbuf packet with
      | .ok (code, packetbuf, _) => some ⟨packetbuf, code = 0⟩
      | .error _ => none
    else none

/-- The buffer of a receiver stays one. -/
theorem Receiver.valid_next (hcap : ∀ b : β, Valid b → (contents b).length ≤ 32767) {x y : Receiver β}
    {e : Event} (hx : Valid x.packetbuf) (h : x.next c e = some y) : Valid y.packetbuf := by
  cases e with
  | newMessage buf =>
    obtain ⟨code, b', happ, hb', -⟩ := exists_append hx buf
    simp only [next, happ] at h
    split at h
    · cases h
    · cases h
      exact hb'
  | readPacket packet =>
    obtain ⟨code, b', p, hread, hb', -⟩ := readFromBuffer_cases (c := c) hx (hcap _ hx) packet
    simp only [next, hread] at h
    split at h
    · cases h
      exact hb'
    · cases h

theorem Receiver.valid_of_run (hcap : ∀ b : β, Valid b → (contents b).length ≤ 32767) {x y : Receiver β}
    {events : List Event} (hx : Valid x.packetbuf)
    (h : Run (fun x e y => next c x e = some y) x events y) : Valid y.packetbuf := by
  induction h with
  | nil => exact hx
  | snoc _ hnext ih => exact valid_next hcap ih hnext

/-- **When the reader is stuck.** In every run of a receiver with a cycle buffer of the default size,
under any settings, `readPacket` returns, and if it returns `-1` the reader can go on, exactly if the
bytes from the first head byte on, where the call finds them, do not lead it to a packet that is too
long. -/
theorem canProgress_iff (c : Settings) (array : {a : Bytes // a.length = GlobalConfig.CycleBufferSize})
    (events : List Receiver.Event) (x : Receiver (CycleBuffer GlobalConfig.CycleBufferSize))
    (h : Run (fun x e y => Receiver.next c x e = some y) ⟨CycleBuffer.new array, false⟩ events x)
    (packet : Packet) :
    ∃ code packetbuf p, readFromBuffer c x.packetbuf packet = .ok (code, packetbuf, p) ∧
      ((code = -1 → CanProgress c packetbuf.contents) ↔
        ¬ Blocked c (fromHead c x.packetbuf.contents)) := by
  have hcap (b : CycleBuffer GlobalConfig.CycleBufferSize) (hb : Valid b) : (contents b).length ≤ 32767 :=
    Nat.le_of_lt_succ (CycleBuffer.Valid.length_contents_lt hb)
  have hx : Valid x.packetbuf := Receiver.valid_of_run hcap (CycleBuffer.valid_new array (by decide)) h
  obtain ⟨code, b', p, hread, hb', hout⟩ := readFromBuffer_cases (c := c) hx (hcap _ hx) packet
  exact ⟨code, b', p, hread, hout.progresses_iff (hcap _ hb')⟩

/-- What a packet with data begins with. -/
theorem isPrefix_packed_cons (c : Settings) (x : UInt8) (d : Bytes) :
    c.HeadByte :: (PackNum c.Mode 2 (d.length + 1) ++ [x]) <+: packed c (x :: d) :=
  ⟨d ++ [c.EndByte], by simp [packed]⟩

/-- A receiver that has been sent four bytes. -/
theorem exists_run_four (array : {a : Bytes // a.length = GlobalConfig.CycleBufferSize})
    (w x y z : UInt8) :
    ∃ b, Run (fun x e y => Receiver.next Settings.initial x e = some y)
        ⟨CycleBuffer.new array, false⟩ [.newMessage [w, x, y, z]] ⟨b, true⟩ ∧
      b.Valid ∧ b.contents = [w, x, y, z] := by
  have hnew := CycleBuffer.valid_new array (by decide)
  have hnil := CycleBuffer.contents_new array
  have hfit : (CycleBuffer.new array).contents.length + [w, x, y, z].length <
      GlobalConfig.CycleBufferSize := by
    rw [hnil]
    show 4 < 32768
    decide
  obtain ⟨b, happ, hb, hcont⟩ := hnew.append_of_fits hfit
  refine ⟨b, .snoc (.nil _) ?_, hb, by rw [hcont, hnil]; rfl⟩
  have happ' : PacketBuffer.append (CycleBuffer.new array) [w, x, y, z] = .ok (0, b) := happ
  simp [Receiver.next, happ']

/-- An array of the default size. -/
def defaultArray : {a : Bytes // a.length = GlobalConfig.CycleBufferSize} :=
  ⟨List.replicate GlobalConfig.CycleBufferSize 0, List.length_replicate⟩

/-- The beginning of a packet with one byte of data. -/
theorem canProgress_iff_sample :
    ∃ b, Run (fun x e y => Receiver.next Settings.initial x e = some y)
        ⟨CycleBuffer.new defaultArray, false⟩ [.newMessage [0x7e, 1, 0, 5]] ⟨b, true⟩ ∧
      ∃ code packetbuf p, readFromBuffer Settings.initial b Packet.new = .ok (code, packetbuf, p) ∧
        (code = -1 → CanProgress Settings.initial packetbuf.contents) := by
  obtain ⟨b, hrun, -, hcont⟩ := exists_run_four defaultArray 0x7e 1 0 5
  obtain ⟨code, packetbuf, p, hread, hiff⟩ := canProgress_iff _ _ _ _ hrun Packet.new
  refine ⟨b, hrun, code, packetbuf, p, hread, hiff.mpr fun hblocked => ?_⟩
  rw [show b.contents = [0x7e, 1, 0, 5] from hcont] at hblocked
  exact absurd hblocked.oversized.tooLong (by decide)

/-- The first four bytes of the packet that `pack` makes of 32764 zeros, and which would fill the array,
leave the reader stuck. -/
theorem not_canProgress :
    [0x7e, 0xfc, 0x7f, 0] <+: packed Settings.initial (List.replicate 32764 0) ∧
      ∃ b, Run (fun x e y => Receiver.next Settings.initial x e = some y)
          ⟨CycleBuffer.new defaultArray, false⟩ [.newMessage [0x7e, 0xfc, 0x7f, 0]] ⟨b, true⟩ ∧
        readFromBuffer Settings.initial b Packet.new = .ok (-1, b, Packet.new) ∧
          ¬ CanProgress Settings.initial b.contents := by
  refine ⟨?_, ?_⟩
  · have hfirst := isPrefix_packed_cons Settings.initial 0 (List.replicate 32763 0)
    rw [List.length_replicate, ← List.replicate_succ] at hfirst
    exact hfirst
  · obtain ⟨b, hrun, hb, hcont⟩ := exists_run_four defaultArray 0x7e 0xfc 0x7f 0
    have hover : Oversized Settings.initial b.contents := by
      rw [hcont]
      exact ⟨by decide, by decide, by decide, by decide⟩
    have hlen : b.contents.length ≤ 32767 := by rw [hcont]; decide
    have hawaits := hover.awaits hlen
    exact ⟨b, hrun, readFromBuffer_of_awaits (b := b) hb hawaits _,
      fun hcan => (canProgress_iff_not_oversized hlen).mp hcan hover⟩

end Packet

end UvCpp
