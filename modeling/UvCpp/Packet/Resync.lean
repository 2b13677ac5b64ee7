import UvCpp.Packet.Progress

/-!
# After a corrupted packet

The string into which `readFromBuffer` reads is emptied when a byte is skipped, but not when the byte
behind the data is not the end byte. So a call that skips bytes up to a packet reads it
(`Ends.packet`). One that meets a packet with a wrong end byte does not look for a head byte any
more: it goes on three bytes at a time, with the size announced first, and what it returns in the end is
no part of the stream (`Ends.patched`).

From that follows which bytes lead to a packet that is one of the stream (`readsGenuine_iff`), and that a
call finds the packet behind bytes that begin none, but not behind a corrupted one
(`resynchronises_iff`).

The length of a packet is a 16-bit number: for data of more than 65531 bytes it wraps, and a part of
the packet is taken for a whole one (`keeps_iff`).
-/

namespace UvCpp.Packet

open UvCpp.Cpp UvCpp.Buffer UvCpp.Systems

variable {c : Settings}

/-- The byte that round `j` of the loop, counted from the head byte, takes for the end byte of a packet
with data of the size `n`; none if the loop ends there. The sum of a size above 65531 and the four other
bytes wraps: then the round goes on although the bytes are missing, with the last one it has. -/
def lastRead (n j : ℕ) (s : Bytes) : Option UInt8 :=
  if n + 3 * j < s.length then s[n + 3 * j]?
  else if 65532 ≤ n ∧ 3 * j < s.length then s[3 * j - 1]?
  else none

theorem lastRead_drop {n j : ℕ} (hj : 0 < j) (s : Bytes) : lastRead n j (s.drop 3) = lastRead n (j + 1) s := by
  simp only [lastRead, List.length_drop, List.getElem?_drop]
  rw [show 3 + (n + 3 * j) = n + 3 * (j + 1) by omega, show 3 + (3 * j - 1) = 3 * (j + 1) - 1 by omega]
  exact if_congr (by omega) rfl (if_congr (by omega) rfl rfl)

theorem lastRead_one_of_le {n : ℕ} {s : Bytes} (h : n + 4 ≤ s.length) : lastRead n 1 s = s[n + 3]? :=
  if_pos (by omega)

theorem lastRead_one_of_lt {n : ℕ} {s : Bytes} (hn : 65532 ≤ n) (h4 : 4 ≤ s.length) (h : s.length < n + 4) :
    lastRead n 1 s = s[2]? := by
  rw [lastRead, if_neg (by omega), if_pos (by omega)]

theorem lastRead_of_stops {n j : ℕ} {s : Bytes} (hn : n < 2 ^ 16) (hj : 0 < j)
    (h : s.length < 4 ∨ s.length < (n + 4) % 2 ^ 16) : lastRead n j s = none := by
  rw [lastRead, if_neg (by omega), if_neg (by omega)]

/-- An end byte is found in this round or a later one. -/
theorem exists_lastRead_iff {n : ℕ} {s : Bytes} : (∃ j, 0 < j ∧ lastRead n j s = some c.EndByte) ↔
    lastRead n 1 s = some c.EndByte ∨ ∃ j, 0 < j ∧ lastRead n j (s.drop 3) = some c.EndByte := by
  constructor
  · rintro ⟨j, hj, h⟩
    obtain rfl | ⟨i, hi, rfl⟩ : j = 1 ∨ ∃ i, 0 < i ∧ j = i + 1 := by
      obtain rfl | hlt := Nat.eq_or_lt_of_le hj
      · exact .inl rfl
      · exact .inr ⟨j - 1, by omega, by omega⟩
    · exact .inl h
    · exact .inr ⟨i, hi, by rwa [lastRead_drop hi]⟩
  · rintro (h | ⟨j, hj, h⟩)
    · exact ⟨1, one_pos, h⟩
    · exact ⟨j + 1, Nat.succ_pos j, by rwa [← lastRead_drop hj]⟩

theorem Announces.announced_eq {n : ℕ} {s : Bytes} (h : Announces c n s) : announced c s = n := by
  obtain ⟨field, t, rfl, hlen, hnum⟩ := h
  rw [announced, List.drop_one, List.tail_cons, List.take_left' hlen, hnum]

theorem Announces.three_le {n : ℕ} {s : Bytes} (h : Announces c n s) : 3 ≤ s.length := by
  obtain ⟨field, t, rfl, hlen, -⟩ := h
  rw [List.length_cons, List.length_append, hlen]
  omega

/-! ### What a call returns -/

/-- How a call ends that finds these bytes, a head byte first: the return code, the packet, and the
bytes left. -/
inductive Ends (c : Settings) (s : Bytes) : ℤ → Packet → Bytes → Prop where
  /-- The packet announced is read. -/
  | packet : s[announced c s + 3]? = some c.EndByte →
      Ends c s 0 ⟨s.take (announced c s + 4), announced c s⟩ (s.drop (announced c s + 4))
  /-- The packet announced does not end with the end byte. What is returned begins as it does, but is not
  as long as it says. -/
  | patched {p : Packet} {left : Bytes} : s[announced c s + 3]? ≠ some c.EndByte →
      (∃ j, 0 < j ∧ lastRead (announced c s) j s = some c.EndByte) →
      announced c p.buffer_ = announced c s → p.buffer_.length ≠ announced c s + 4 → Ends c s 0 p left
  /-- No packet is read. -/
  | nothing {p : Packet} {left : Bytes} :
      (∀ j, 0 < j → lastRead (announced c s) j s ≠ some c.EndByte) → Ends c s (-1) p left

open LawfulPacketBuffer

variable {β : Type} [PacketBuffer β] [LawfulPacketBuffer β] {b : β} {m : ℕ}

/-- So many bytes are read in a round that finds these. -/
def taken (n : ℕ) (s : Bytes) : ℕ := if n + 4 ≤ s.length then n + 4 else 3

theorem taken_le {n : ℕ} {s : Bytes} (h : 4 ≤ s.length) : taken n s ≤ s.length := by
  rw [taken]
  split
  · assumption
  · omega

theorem three_le_taken (n : ℕ) (s : Bytes) : 3 ≤ taken n s := by
  rw [taken]
  split <;> omega

/-- What has been read is the packet announced, or will not be as long with all that is there. -/
theorem taken_far {n : ℕ} {s : Bytes} (h : 3 ≤ s.length) :
    n + 4 ≤ taken n s ∨ taken n s + (s.length - 3) < n + 4 := by
  rw [taken]
  split <;> omega

theorem Announces.take_taken {n : ℕ} {s : Bytes} (h : Announces c n (s.take 3)) :
    Announces c n (s.take (taken n s)) := by
  obtain ⟨k, hk⟩ := Nat.exists_eq_add_of_le (three_le_taken n s)
  rw [hk, List.take_add]
  exact h.append _

/-- A round with a size announced that does not stop. -/
theorem readFromBufferLoop_of_goes (hm : ReadsOnto β m) (hb : Valid b) {data : Bytes} {n : ℕ}
    (hn : n < 2 ^ 16) (hgoes : ¬ ((contents b).length < 4 ∨ (contents b).length < (n + 4) % 2 ^ 16))
    (h : Announces c n (data ++ (contents b).take 3)) (hdata : data.length + 3 < m) (fuel : ℕ) (out : Packet) :
    ∃ b' b'', Valid b' ∧ contents b' = (contents b).drop 3 ∧ Valid b'' ∧ contents b'' = (contents b).drop (n + 4) ∧
      readFromBufferLoop c (fuel + 1) b data out =
        if lastRead n 1 (contents b) = some c.EndByte then
          .ok (0, b'', (out.swap (data ++ (contents b).take (taken n (contents b)))).1)
        else readFromBufferLoop c fuel b' (data ++ (contents b).take (taken n (contents b))) out := by
  have hdrop {b' : β} (hb' : Valid b') (hc' : contents b' = (contents b).drop 3) :
      Valid (PacketBuffer.clearBufferN b' (n + 1)).2 ∧
        contents (PacketBuffer.clearBufferN b' (n + 1)).2 = (contents b).drop (n + 4) := by
    obtain ⟨-, hb'', hc''⟩ := clearBufferN_eq (N := n + 1) hb'
    exact ⟨hb'', by rw [hc'', hc', List.drop_drop, Nat.add_comm 3]⟩
  by_cases hlen : n + 4 ≤ (contents b).length
  · obtain ⟨b', hb', hc', hloop⟩ := readFromBufferLoop_of_whole hm hb hlen h hdata fuel out
    refine ⟨b', _, hb', hc', (hdrop hb' hc').1, (hdrop hb' hc').2, ?_⟩
    rw [hloop, lastRead_one_of_le hlen, taken, if_pos hlen]
  · obtain ⟨b', hb', hc', hloop⟩ := readFromBufferLoop_of_overlong hm hb (by omega) hn (by omega) (by omega) h
      hdata fuel out
    refine ⟨b', _, hb', hc', (hdrop hb' hc').1, (hdrop hb' hc').2, ?_⟩
    rw [hloop, lastRead_one_of_lt (by omega) (by omega) (by omega), taken, if_neg hlen]

/-- A round that stops. -/
theorem readFromBufferLoop_of_stops (hm : ReadsOnto β m) (hb : Valid b) {data : Bytes} {n : ℕ}
    (hstops : (contents b).length < 4 ∨ (contents b).length < (n + 4) % 2 ^ 16)
    (h : 4 ≤ (contents b).length → Announces c n (data ++ (contents b).take 3)) (hdata : data.length < m)
    (fuel : ℕ) (out : Packet) : readFromBufferLoop c (fuel + 1) b data out = .ok (-1, b, out) := by
  by_cases h4 : (contents b).length < 4
  · exact readFromBufferLoop_of_lt hb h4 fuel data out
  · exact readFromBufferLoop_of_waiting hm hb (by omega) (by omega) (h (by omega)) hdata fuel out

/-- The rounds after one that did not find the end byte. What has been read is either longer than the
packet announced or, where the length of that wraps, never will be as long. -/
theorem readFromBufferLoop_of_failed (hm : ReadsOnto β m) (hb : Valid b) {data : Bytes} {n : ℕ}
    (hn : n < 2 ^ 16) (h : Announces c n data)
    (hfar : n + 4 ≤ data.length ∨ data.length + (contents b).length < n + 4)
    (hdata : data.length + (contents b).length * ((contents b).length + 3) + 3 < m) {fuel : ℕ}
    (hfuel : (contents b).length < fuel) (out : Packet) :
    ∃ code b' p, readFromBufferLoop c fuel b data out = .ok (code, b', p) ∧ Valid b' ∧
      (code = 0 ∧ (∃ j, 0 < j ∧ lastRead n j (contents b) = some c.EndByte) ∧
          announced c p.buffer_ = n ∧ p.buffer_.length ≠ n + 4 ∨
        code = -1 ∧ ¬ ∃ j, 0 < j ∧ lastRead n j (contents b) = some c.EndByte) := by
  induction fuel generalizing b data with
  | zero => exact absurd hfuel (Nat.not_lt_zero _)
  | succ fuel ih =>
    by_cases hstops : (contents b).length < 4 ∨ (contents b).length < (n + 4) % 2 ^ 16
    · have hloop := readFromBufferLoop_of_stops hm hb hstops (fun _ => h.append _) (by omega) fuel out
      refine ⟨-1, b, out, hloop, hb, .inr ⟨rfl, ?_⟩⟩
      rintro ⟨j, hj, hlast⟩
      rw [lastRead_of_stops hn hj hstops] at hlast
      cases hlast
    · obtain ⟨b', b'', hb', hc', hb'', -, hloop⟩ :=
        readFromBufferLoop_of_goes hm hb hn hstops (h.append _) (by omega) fuel out
      have hpos := h.three_le
      have htaken := taken_le (n := n) (show 4 ≤ (contents b).length by omega)
      generalize hread : data ++ (contents b).take (taken n (contents b)) = read at hloop
      have hlen : read.length = data.length + taken n (contents b) := by
        rw [← hread, List.length_append, List.length_take_of_le htaken]
      have hlen' : (contents b').length = (contents b).length - 3 := by rw [hc', List.length_drop]
      have hann : Announces c n read := hread ▸ h.append _
      have hstep : taken n (contents b) = 3 ∧ (contents b).length < n + 4 ∨ taken n (contents b) = n + 4 := by
        rw [taken]
        split <;> omega
      rw [exists_lastRead_iff, ← hc', hloop]
      by_cases hlast : lastRead n 1 (contents b) = some c.EndByte
      · rw [if_pos hlast]
        exact ⟨0, b'', _, rfl, hb'', .inl ⟨rfl, .inl hlast, hann.announced_eq, by
          show read.length ≠ n + 4
          omega⟩⟩
      · have hroom := room_le (show 3 ≤ (contents b).length by omega) htaken
        rw [if_neg hlast, or_iff_right hlast]
        exact ih hb' hann (by omega) (by rw [hlen']; omega) (by omega)

/-- What a call does that finds a head byte at the front. -/
theorem readFromBufferLoop_ends (hm : ReadsOnto β m) (hb : Valid b) (h4 : 4 ≤ (contents b).length)
    (hhead : (contents b).head? = some c.HeadByte)
    (hroom : (contents b).length * ((contents b).length + 3) + 3 < m) {fuel : ℕ}
    (hfuel : (contents b).length < fuel) (out : Packet) :
    ∃ code b' p, readFromBufferLoop c fuel b [] out = .ok (code, b', p) ∧ Valid b' ∧
      Ends c (contents b) code p (contents b') := by
  obtain ⟨fuel, rfl⟩ := Nat.exists_eq_add_one_of_ne_zero (Nat.ne_zero_of_lt hfuel)
  obtain ⟨n, hsize⟩ : ∃ n, announced c (contents b) = n := ⟨_, rfl⟩
  have hn : n < 2 ^ 16 := hsize ▸ announced_lt c (contents b)
  have hann : Announces c n ((contents b).take 3) := hsize ▸ announces_of_head? h4 hhead
  by_cases hstops : (contents b).length < 4 ∨ (contents b).length < (n + 4) % 2 ^ 16
  · have hloop := readFromBufferLoop_of_stops hm hb hstops (fun _ => hann) (by rw [List.length_nil]; omega) fuel out
    refine ⟨-1, b, out, hloop, hb, .nothing fun j hj => ?_⟩
    rw [hsize, lastRead_of_stops hn hj hstops]
    exact (Option.some_ne_none _).symm
  · obtain ⟨b', b'', hb', hc', hb'', hc'', hloop⟩ :=
      readFromBufferLoop_of_goes hm hb hn hstops hann (by rw [List.length_nil]; omega) fuel out
    have htaken := taken_le (n := n) h4
    rw [hloop, List.nil_append]
    by_cases hend : (contents b)[n + 3]? = some c.EndByte
    · have hle : n + 4 ≤ (contents b).length := (List.getElem?_eq_some_iff.mp hend).1
      have hsize' : usub ((contents b).take (n + 4)).length PacketMinSize % 2 ^ 16 = n := by
        rw [List.length_take_of_le hle, PacketMinSize, usub_of_le (Nat.le_add_left _ _), Nat.add_sub_cancel]
        exact Nat.mod_eq_of_lt hn
      rw [lastRead_one_of_le hle, if_pos hend, taken, if_pos hle, swap, hsize']
      subst hsize
      exact ⟨0, b'', _, rfl, hb'', hc'' ▸ .packet hend⟩
    · by_cases hlast : lastRead n 1 (contents b) = some c.EndByte
      · -- the length wraps: three bytes are returned
        have hlt : ¬ n + 4 ≤ (contents b).length := fun hle => hend (lastRead_one_of_le hle ▸ hlast)
        have hshort : ((contents b).take (taken n (contents b))).length ≠ n + 4 := by
          rw [List.length_take_of_le htaken, taken, if_neg hlt]
          omega
        rw [if_pos hlast]
        subst hsize
        exact ⟨0, b'', _, rfl, hb'', .patched hend ⟨1, one_pos, hlast⟩ hann.take_taken.announced_eq hshort⟩
      · have hlen' : (contents b').length = (contents b).length - 3 := by rw [hc', List.length_drop]
        have hroom' := room_le (show 3 ≤ (contents b).length by omega) htaken
        obtain ⟨code, b₁, p, hrun, hb₁, hcase⟩ := readFromBufferLoop_of_failed hm hb' hn hann.take_taken
          (by rw [List.length_take_of_le htaken, hlen']; exact taken_far (by omega))
          (by rw [List.length_take_of_le htaken, hlen']; omega) (show (contents b').length < fuel by omega) out
        rw [if_neg hlast]
        refine ⟨code, b₁, p, hrun, hb₁, ?_⟩
        rw [hc', ← or_iff_right (b := ∃ j, 0 < j ∧ _) hlast, ← exists_lastRead_iff] at hcase
        subst hsize
        rcases hcase with ⟨rfl, hlater, hsame, hlen⟩ | ⟨rfl, hnone⟩
        · exact .patched hend hlater hsame hlen
        · exact .nothing fun j hj h => hnone ⟨j, hj, h⟩

/-- **What a call returns.** -/
theorem readFromBuffer_ends (hm : ReadsOnto β m) (hb : Valid b)
    (hroom : (contents b).length * ((contents b).length + 3) + 3 < m) (out : Packet) :
    ∃ code b' p, readFromBuffer c b out = .ok (code, b', p) ∧ Valid b' ∧
      Ends c (fromHead c (contents b)) code p (contents b') := by
  rw [readFromBuffer, readSize_eq hb]
  obtain ⟨b₁, fuel, hb₁, hle, hfuel, hloop, ⟨hlt, hshort⟩ | ⟨h4, hfrom, hhead⟩⟩ :=
    readFromBufferLoop_fromHead (c := c) hb (Nat.lt_succ_self _) out
  · obtain ⟨fuel, rfl⟩ := Nat.exists_eq_add_one_of_ne_zero (Nat.ne_zero_of_lt hfuel)
    rw [hloop]
    refine ⟨-1, b₁, out, readFromBufferLoop_of_lt hb₁ hlt fuel [] out, hb₁, .nothing fun j hj => ?_⟩
    rw [lastRead_of_stops (announced_lt c _) hj (.inl hshort)]
    exact (Option.some_ne_none _).symm
  · have hroom₁ := Nat.mul_le_mul hle (Nat.add_le_add_right hle 3)
    rw [hloop, ← hfrom]
    exact readFromBufferLoop_ends hm hb₁ h4 hhead (by omega) hfuel out

/-! ### Packets of the stream -/

/-- A packet returned, and the bytes left, are a packet of the stream and what followed it there. -/
structure Genuine (c : Settings) (s : Bytes) (p : Packet) (left : Bytes) : Prop where
  /-- The bytes of the packet stand in the stream, those left behind them. -/
  segment : ∃ before, s = before ++ (p.Buffer ++ left)
  /-- The first one is the head byte. -/
  head : p.Buffer.head? = some c.HeadByte
  /-- The last one is the end byte. -/
  last : p.Buffer.getLast? = some c.EndByte
  /-- The size of the data is the one announced. -/
  size : announced c p.Buffer = p.DataSize
  /-- The other bytes are four. -/
  length : p.DataSize + PacketMinSize = p.Buffer.length

/-- The call returns, and a packet that it returns is one of the stream. -/
def ReadsGenuine (c : Settings) (b : β) (out : Packet) : Prop :=
  ∃ code b' p, readFromBuffer c b out = .ok (code, b', p) ∧
    (code = 0 → Genuine c (contents b) p (contents b'))

/-- Of these bytes, a head byte first, the end byte stands where the packet announced ends, or at none of
the places where it is looked for later. -/
def EndsRight (c : Settings) (s : Bytes) : Prop :=
  s[announced c s + 3]? = some c.EndByte ∨ ∀ j, 0 < j → lastRead (announced c s) j s ≠ some c.EndByte

theorem head?_fromHead {s : Bytes} (h : fromHead c s ≠ []) : (fromHead c s).head? = some c.HeadByte := by
  have hnot := List.head?_dropWhile_not (fun x => decide (x ≠ c.HeadByte)) s
  obtain ⟨x, t, ht⟩ := List.exists_cons_of_ne_nil h
  rw [fromHead] at ht
  rw [ht] at hnot
  rw [fromHead, ht, List.head?_cons, not_not.mp (of_decide_eq_false hnot)]

theorem announced_take {s : Bytes} {n : ℕ} (h : 3 ≤ n) : announced c (s.take n) = announced c s := by
  rw [announced, announced, List.drop_take, List.take_take, min_eq_left (by omega)]

/-- A packet that is read as it was announced is one of the stream. -/
theorem genuine_take {s : Bytes} (h : (fromHead c s)[announced c (fromHead c s) + 3]? = some c.EndByte) :
    Genuine c s ⟨(fromHead c s).take (announced c (fromHead c s) + 4), announced c (fromHead c s)⟩
      ((fromHead c s).drop (announced c (fromHead c s) + 4)) := by
  obtain ⟨hlt, hend⟩ := List.getElem?_eq_some_iff.mp h
  have hle : announced c (fromHead c s) + 4 ≤ (fromHead c s).length := hlt
  refine ⟨⟨s.takeWhile fun x => x ≠ c.HeadByte, ?_⟩, ?_, ?_, ?_, ?_⟩
  · simp only [Packet.Buffer]
    rw [List.take_append_drop, fromHead, List.takeWhile_append_dropWhile]
  · rw [Packet.Buffer, List.head?_take, if_neg (by omega), head?_fromHead]
    exact List.ne_nil_of_length_pos (by omega)
  · rw [Packet.Buffer, List.take_succ_eq_append_getElem hlt, List.getLast?_concat, hend]
  · exact announced_take (by omega)
  · simp only [DataSize, PacketMinSize, Packet.Buffer]
    rw [List.length_take_of_le hle]

theorem Ends.genuine_iff {s : Bytes} {code : ℤ} {p : Packet} {left : Bytes}
    (h : Ends c (fromHead c s) code p left) : (code = 0 → Genuine c s p left) ↔ EndsRight c (fromHead c s) := by
  generalize hy : fromHead c s = y at h
  cases h with
  | packet hend =>
    subst hy
    exact iff_of_true (fun _ => genuine_take hend) (.inl hend)
  | patched hend hlater hsame hlen =>
    refine iff_of_false (fun h => ?_) ?_
    · obtain ⟨-, -, -, hsize, hlength⟩ := h rfl
      rw [Packet.Buffer, hsame] at hsize
      rw [← hsize, Packet.Buffer, PacketMinSize] at hlength
      exact hlen hlength.symm
    · rintro (hend' | hnone)
      · exact hend hend'
      · obtain ⟨j, hj, hlast⟩ := hlater
        exact hnone j hj hlast
  | nothing hnone => exact iff_of_true (fun h => absurd h (by decide)) (.inr hnone)

theorem readsGenuine_iff_endsRight (hm : ReadsOnto β m) (hb : Valid b)
    (hroom : (contents b).length * ((contents b).length + 3) + 3 < m) (out : Packet) :
    ReadsGenuine c b out ↔ EndsRight c (fromHead c (contents b)) := by
  obtain ⟨code, b', p, hread, -, hends⟩ := readFromBuffer_ends (c := c) hm hb hroom out
  rw [← hends.genuine_iff]
  constructor
  · rintro ⟨code, b', p, hread', h⟩
    cases hread.symm.trans hread'
    exact h
  · intro h
    exact ⟨code, b', p, hread, h⟩

/-- What the default cycle buffer holds leaves room for what a call reads. -/
theorem room_of_le {n : ℕ} (h : n ≤ 32767) : n * (n + 3) + 3 < 2 ^ 31 := by
  have : n * (n + 3) ≤ 32767 * 32770 := Nat.mul_le_mul h (Nat.add_le_add_right h 3)
  omega

theorem room_cycleBuffer {b : CycleBuffer GlobalConfig.CycleBufferSize} (hb : b.Valid) :
    b.contents.length * (b.contents.length + 3) + 3 < 2 ^ 31 :=
  room_of_le (Nat.le_of_lt_succ hb.length_contents_lt)

/-- **When a packet returned is one of the stream**: from the first head byte on, the end byte stands
where the packet announced ends, or at none of the places where it is looked for later. -/
theorem readsGenuine_iff (c : Settings) (out : Packet) :
    (∀ b : ListBuffer, ReadsGenuine c b out ↔ EndsRight c (fromHead c b.buffer_)) ∧
      ∀ b : CycleBuffer GlobalConfig.CycleBufferSize, b.Valid →
        (ReadsGenuine c b out ↔ EndsRight c (fromHead c b.contents)) :=
  ⟨fun b => readsGenuine_iff_endsRight (b := b) (ListBuffer.readsOnto _) trivial (Nat.lt_succ_self _) out,
    fun b hb => readsGenuine_iff_endsRight (b := b) readsOnto_int hb (room_cycleBuffer hb) out⟩

theorem readsGenuine_iff_sample : ReadsGenuine Settings.initial (⟨[1, 0x7e, 1, 0, 5, 0xe7, 2]⟩ : ListBuffer) new ∧
    ReadsGenuine Settings.initial (CycleBuffer.new defaultArray) new := by
  obtain ⟨hlist, hcycle⟩ := readsGenuine_iff Settings.initial new
  refine ⟨(hlist _).mpr (.inl (by decide)), (hcycle _ (CycleBuffer.valid_new _ (by decide))).mpr ?_⟩
  rw [CycleBuffer.contents_new]
  exact .inr fun j hj => by rw [lastRead_of_stops (by decide) hj (.inl (by decide))]; exact nofun

/-- **A packet returned that is not in the stream**: behind one with a wrong end byte, ten bytes are
returned of eight. -/
theorem not_readsGenuine :
    ¬ ReadsGenuine Settings.initial (⟨[0x7e, 1, 0, 5, 6, 0, 0, 0xe7]⟩ : ListBuffer) new := by
  have hreturns : readFromBuffer Settings.initial (⟨[0x7e, 1, 0, 5, 6, 0, 0, 0xe7]⟩ : ListBuffer) new =
      .ok (0, ⟨[]⟩, ⟨[0x7e, 1, 0, 5, 6, 5, 6, 0, 0, 0xe7], 6⟩) := rfl
  rintro ⟨code, b', p, hread, h⟩
  cases hreturns.symm.trans hread
  obtain ⟨before, hsegment⟩ := (h rfl).segment
  have hlen := congrArg List.length hsegment
  simp [contents, Packet.Buffer] at hlen

/-! ### Bytes in front of a packet -/

/-- What can stand in front of a packet. -/
inductive Piece (c : Settings) where
  /-- Noise: bytes without a head byte. -/
  | noise (g : Bytes) (h : c.HeadByte ∉ g)
  /-- A corrupted packet: a wrong byte stands where the end byte should. -/
  | corrupted (field payload : Bytes) (trailer : UInt8) (hfield : field.length = 2)
      (hsize : UnpackNum c.Mode 2 field = payload.length) (htrailer : trailer ≠ c.EndByte)
      (h : c.HeadByte ∉ field ++ (payload ++ [trailer]))

/-- The bytes of a piece. -/
def Piece.bytes : Piece c → Bytes
  | noise g _ => g
  | corrupted field payload trailer _ _ _ _ => c.HeadByte :: (field ++ (payload ++ [trailer]))

/-- Whether a piece is noise. -/
def Piece.isNoise : Piece c → Bool
  | noise _ _ => true
  | corrupted .. => false

/-- The call reads this packet, and leaves the buffer empty. -/
def ReadsLast (c : Settings) (b : β) (packet out : Packet) : Prop :=
  ∃ b', readFromBuffer c b out = .ok (0, b', packet) ∧ contents b' = []

theorem announced_packed {d : Bytes} (hd : d.length < 2 ^ 16) : announced c (packed c d) = d.length := by
  have h := (announces_packed (c := c) (s := packed c d) hd rfl).announced_eq
  rwa [List.nil_append, announced_take (by decide)] at h

/-- The call that finds a whole packet reads it. -/
theorem Ends.of_packed {d : Bytes} (hd : d.length < 2 ^ 16) {code : ℤ} {p : Packet} {left : Bytes}
    (h : Ends c (packed c d) code p left) : code = 0 ∧ p = ⟨packed c d, d.length⟩ ∧ left = [] := by
  have hsize := announced_packed (c := c) hd
  have hend : (packed c d)[announced c (packed c d) + 3]? = some c.EndByte := by
    have hlen : (c.HeadByte :: PackNum c.Mode 2 d.length ++ d).length = d.length + 3 := by
      simp
      omega
    rw [hsize, packed, List.getElem?_append_right hlen.le, hlen, Nat.sub_self, List.getElem?_cons_zero]
  generalize hy : packed c d = y at h
  cases h with
  | packet _ =>
    subst hy
    rw [hsize, List.take_of_length_le (length_packed d).le, List.drop_of_length_le (length_packed d).le]
    exact ⟨rfl, rfl, rfl⟩
  | patched hnot =>
    subst hy
    exact absurd hend hnot
  | nothing hnone =>
    subst hy
    refine absurd ?_ (hnone 1 one_pos)
    rwa [lastRead_one_of_le (by rw [hsize, length_packed])]

/-- The call that finds a corrupted packet reads no packet that was packed. -/
theorem Ends.of_corrupted {field payload rest : Bytes} {trailer : UInt8} (hfield : field.length = 2)
    (hsize : UnpackNum c.Mode 2 field = payload.length) (htrailer : trailer ≠ c.EndByte) {code : ℤ}
    {p : Packet} {left : Bytes}
    (h : Ends c (c.HeadByte :: (field ++ (payload ++ trailer :: rest))) code p left) {d : Bytes}
    (hd : d.length < 2 ^ 16) : ¬ (code = 0 ∧ p = ⟨packed c d, d.length⟩) := by
  have hann : announced c (c.HeadByte :: (field ++ (payload ++ trailer :: rest))) = payload.length :=
    Announces.announced_eq ⟨field, _, rfl, hfield, hsize⟩
  have hlast : (c.HeadByte :: (field ++ (payload ++ trailer :: rest)))[payload.length + 3]? = some trailer := by
    rw [List.getElem?_cons_succ, List.getElem?_append_right (by omega), hfield,
      show payload.length + 2 - 2 = payload.length by omega, List.getElem?_append_right le_rfl, Nat.sub_self,
      List.getElem?_cons_zero]
  generalize c.HeadByte :: (field ++ (payload ++ trailer :: rest)) = y at h hann hlast
  cases h with
  | packet hend =>
    rw [hann, hlast] at hend
    exact absurd (Option.some.inj hend) htrailer
  | patched _ _ hsame hlen =>
    rintro ⟨-, rfl⟩
    rw [announced_packed hd] at hsame
    rw [← hsame, length_packed] at hlen
    exact hlen rfl
  | nothing _ => exact fun h => absurd h.1 (by decide)

theorem fromHead_of_not_mem {g : Bytes} (h : c.HeadByte ∉ g) (s : Bytes) : fromHead c (g ++ s) = fromHead c s := by
  refine List.dropWhile_append_of_pos fun x hx => decide_eq_true ?_
  rintro rfl
  exact h hx

theorem fromHead_cons_head (s : Bytes) : fromHead c (c.HeadByte :: s) = c.HeadByte :: s :=
  List.dropWhile_cons_of_neg (by simp)

/-- Noise is skipped; the first corrupted packet is not. -/
theorem fromHead_pieces (pieces : List (Piece c)) (s : Bytes) :
    (∀ piece ∈ pieces, piece.isNoise) ∧ fromHead c ((pieces.map Piece.bytes).flatten ++ s) = fromHead c s ∨
      (¬ ∀ piece ∈ pieces, piece.isNoise) ∧ ∃ field payload trailer rest, field.length = 2 ∧
        UnpackNum c.Mode 2 field = payload.length ∧ trailer ≠ c.EndByte ∧
          fromHead c ((pieces.map Piece.bytes).flatten ++ s) =
            c.HeadByte :: (field ++ (payload ++ trailer :: rest)) := by
  induction pieces with
  | nil => exact .inl ⟨nofun, rfl⟩
  | cons piece pieces ih =>
    rw [List.map_cons, List.flatten_cons, List.append_assoc, List.forall_mem_cons]
    cases piece with
    | noise g h =>
      rw [Piece.bytes, fromHead_of_not_mem h, Piece.isNoise, and_iff_right rfl]
      exact ih
    | corrupted field payload trailer hfield hsize htrailer _ =>
      refine .inr ⟨fun h => absurd h.1 (by simp [Piece.isNoise]), field, payload, trailer,
        (pieces.map Piece.bytes).flatten ++ s, hfield, hsize, htrailer, ?_⟩
      rw [Piece.bytes, List.cons_append, fromHead_cons_head, List.append_assoc, List.append_assoc,
        List.singleton_append]

theorem readsLast_iff (hm : ReadsOnto β m) (hb : Valid b)
    (hroom : (contents b).length * ((contents b).length + 3) + 3 < m) (pieces : List (Piece c)) {d : Bytes}
    (hd : d.length < 2 ^ 16) (h : contents b = (pieces.map Piece.bytes).flatten ++ packed c d) (out : Packet) :
    ReadsLast c b ⟨packed c d, d.length⟩ out ↔ ∀ piece ∈ pieces, piece.isNoise := by
  obtain ⟨code, b', p, hread, -, hends⟩ := readFromBuffer_ends (c := c) hm hb hroom out
  rw [h] at hends
  rcases fromHead_pieces pieces (packed c d) with ⟨hnoise, hfrom⟩ |
    ⟨hnoise, field, payload, trailer, rest, hfield, hsize, htrailer, hfrom⟩
  · rw [hfrom, packed, List.append_assoc, List.cons_append, fromHead_cons_head] at hends
    obtain ⟨rfl, rfl, hleft⟩ := Ends.of_packed hd (by rwa [packed, List.append_assoc, List.cons_append])
    exact iff_of_true ⟨b', hread, hleft⟩ hnoise
  · rw [hfrom] at hends
    refine iff_of_false ?_ hnoise
    rintro ⟨b'', hread', -⟩
    cases hread.symm.trans hread'
    exact hends.of_corrupted hfield hsize htrailer hd ⟨rfl, rfl⟩

/-- `pack` takes data whose packet has a size of 16 bits. -/
theorem size_lt_of_le {n : ℕ} (h : n ≤ 65531) : n < 2 ^ 16 := by omega

/-- **When a call finds the packet behind other bytes**: there is no corrupted packet among them. -/
theorem resynchronises_iff (c : Settings) (pieces : List (Piece c)) (d : {d : Bytes // d.length ≤ 65531})
    (out : Packet) :
    ∃ packet, new.pack c ⟨d.1, size_lt_of_le d.2⟩ = .ok packet ∧ packet.data = .ok d.1 ∧
      (∀ b : ListBuffer, b.buffer_ = (pieces.map Piece.bytes).flatten ++ packet.Buffer →
        (ReadsLast c b packet out ↔ ∀ piece ∈ pieces, piece.isNoise)) ∧
      ∀ b : CycleBuffer GlobalConfig.CycleBufferSize, b.Valid →
        b.contents = (pieces.map Piece.bytes).flatten ++ packet.Buffer →
          (ReadsLast c b packet out ↔ ∀ piece ∈ pieces, piece.isNoise) := by
  have hd := size_lt_of_le d.2
  refine ⟨_, pack_eq _ _, data_packed _, fun b h => ?_, fun b hb h => ?_⟩
  · exact readsLast_iff (b := b) (ListBuffer.readsOnto _) trivial (Nat.lt_succ_self _) pieces hd h out
  · exact readsLast_iff (b := b) readsOnto_int hb (room_cycleBuffer hb) pieces hd h out

/-- Five bytes of noise. -/
theorem resynchronises_iff_sample : ReadsLast Settings.initial
    (⟨[1, 2, 3, 4, 5, 0x7e, 1, 0, 9, 0xe7]⟩ : ListBuffer) ⟨[0x7e, 1, 0, 9, 0xe7], 1⟩ new := by
  obtain ⟨packet, hpack, -, hlist, -⟩ := resynchronises_iff Settings.initial [.noise [1, 2, 3, 4, 5] (by decide)]
    ⟨[9], by decide⟩ new
  cases hpack
  exact (hlist ⟨[1, 2, 3, 4, 5, 0x7e, 1, 0, 9, 0xe7]⟩ rfl).mpr (by decide)

/-- **A corrupted packet hides the one behind it**: of `7e 01 00 05 06`, where the last byte should be
`e7`, and a packet six bytes are dropped, and no packet is read. -/
theorem not_resynchronises : ∃ piece : Piece Settings.initial,
    ¬ ReadsLast Settings.initial (⟨piece.bytes ++ packed Settings.initial [9]⟩ : ListBuffer)
      ⟨packed Settings.initial [9], 1⟩ new := by
  refine ⟨.corrupted [1, 0] [5] 6 rfl rfl (by decide) (by decide), ?_⟩
  have hreturns : readFromBuffer Settings.initial
      (⟨[0x7e, 1, 0, 5, 6, 0x7e, 1, 0, 9, 0xe7]⟩ : ListBuffer) new = .ok (-1, ⟨[1, 0, 9, 0xe7]⟩, new) := rfl
  rintro ⟨b', hread, -⟩
  cases hreturns.symm.trans hread

/-! ### Packets that have not arrived whole -/

/-- A part of a packet is kept, and with the missing bytes the packet is read. -/
def Keeps (c : Settings) (packet : Packet) (s t : Bytes) (out : Packet) : Prop :=
  readFromBuffer c (⟨s⟩ : ListBuffer) out = .ok (-1, ⟨s⟩, out) ∧
    ∃ b, PacketBuffer.append (⟨s⟩ : ListBuffer) t = .ok (0, b) ∧
      ∀ out, readFromBuffer c b out = .ok (0, ⟨[]⟩, packet)

theorem append_reads {d s t : Bytes} (hd : d.length < 2 ^ 16) (h : s ++ t = packed c d) :
    ∃ b, PacketBuffer.append (⟨s⟩ : ListBuffer) t = .ok (0, b) ∧
      ∀ out, readFromBuffer c b out = .ok (0, ⟨[]⟩, ⟨packed c d, d.length⟩) := by
  obtain ⟨b, happ, -, hcont⟩ : ∃ b, PacketBuffer.append (⟨s⟩ : ListBuffer) t = .ok (0, b) ∧ Valid b ∧
      contents b = s ++ t := append_of_fits trivial rfl
  refine ⟨b, happ, fun out => ?_⟩
  have hwhole : contents b = packed c d ++ [] := by rw [hcont, h, List.append_nil]
  obtain ⟨b', hread, -, hnil⟩ := readFromBuffer_packed trivial hd hwhole out
  obtain rfl : b' = ⟨[]⟩ := ListBuffer.ext hnil
  exact hread

/-- **When a part of a packet is kept**: the packet has at most 65531 bytes of data, or not four bytes have
arrived. -/
theorem keeps_iff (c : Settings) (d : {d : Bytes // d.length < 2 ^ 16}) (out : Packet) :
    ∃ packet, new.pack c d = .ok packet ∧ packet.data = .ok d.1 ∧
      ∀ s t, s ++ t = packet.Buffer → t ≠ [] →
        (Keeps c packet s t out ↔ d.1.length ≤ 65531 ∨ s.length < 4) := by
  refine ⟨_, pack_eq _ _, data_packed _, fun s t h ht => ?_⟩
  simp only [Packet.Buffer] at h
  have hlt : s.length < (packed c d.1).length := by
    have := List.length_pos_iff.mpr ht
    rw [← h, List.length_append]
    omega
  constructor
  · rintro ⟨hkept, -⟩
    by_contra hnot
    rw [not_or, not_le, not_lt] at hnot
    obtain ⟨hlong, h4⟩ := hnot
    rw [length_packed] at hlt
    have hpre : (packed c d.1).take 3 = s.take 3 := by
      rw [← h, List.take_append_of_le_length (by omega)]
    have hd := d.2
    -- its length wraps, and the call drops bytes or returns some
    obtain ⟨code, b', p, hread, -, hcase⟩ := readFromBufferLoop_wraps (b := (⟨s⟩ : ListBuffer)) trivial
      (show 65532 ≤ d.1.length by omega) d.2 hlt (fun _ => announces_packed d.2 hpre)
      (show [].length + s.length + 3 < 2 ^ 31 by rw [List.length_nil]; omega) (Nat.lt_succ_self _) out
    cases hkept.symm.trans hread
    rcases hcase with ⟨hcode, -⟩ | ⟨-, hshort⟩
    · exact absurd hcode (by decide)
    · exact absurd hshort (not_lt.mpr h4)
  · intro hkept
    refine ⟨?_, append_reads d.2 h⟩
    by_cases h4 : s.length < 4
    · exact readFromBufferLoop_of_lt (b := (⟨s⟩ : ListBuffer)) trivial h4 _ [] out
    · exact readFromBuffer_partial (b := (⟨s⟩ : ListBuffer)) trivial (hkept.resolve_right h4) ⟨t, h⟩ hlt out

/-- Four bytes of a packet with one byte of data. -/
theorem keeps_iff_sample : Keeps Settings.initial ⟨[0x7e, 1, 0, 9, 0xe7], 1⟩ [0x7e, 1, 0, 9] [0xe7] new := by
  obtain ⟨packet, hpack, -, hiff⟩ := keeps_iff Settings.initial ⟨[9], by decide⟩ new
  cases hpack
  exact (hiff [0x7e, 1, 0, 9] [0xe7] rfl (by decide)).mpr (.inl (by decide))

/-- **A packet with 65532 bytes of data is not kept**: of its first four bytes three are dropped. -/
theorem not_keeps :
    [0x7e, 0xfc, 0xff, 0] <+: packed Settings.initial (List.replicate 65532 0) ∧
      readFromBuffer Settings.initial (⟨[0x7e, 0xfc, 0xff, 0]⟩ : ListBuffer) new = .ok (-1, ⟨[0]⟩, new) := by
  refine ⟨?_, rfl⟩
  have hfirst := isPrefix_packed_cons Settings.initial 0 (List.replicate 65531 0)
  rw [List.length_replicate, ← List.replicate_succ] at hfirst
  exact hfirst

end UvCpp.Packet
