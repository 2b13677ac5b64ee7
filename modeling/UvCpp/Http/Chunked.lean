import UvCpp.Http.Completed

/-!
# Chunked contents

With `Transfer-Encoding: chunked` a content is sent in chunks, each behind a line with its
size in hexadecimal; a chunk of size zero ends it (`Coding`).

`isCompletedChunked` puts the chunks together. When it says that a content is whole, the line
of the last chunk has come and the result is the chunks before it (`coding_of_isCompletedChunked`),
unless a size is negative: `stoi` reads a sign, and the code takes the number as unsigned.
-/

namespace UvCpp.Http

open UvCpp.Cpp

/-! ### Chunks -/

/-- The line before a chunk, with its size as `stoi` reads it. The CRLF behind the chunk before,
if there is one, begins the line; so a CRLF ends it only from its second byte on. -/
structure IsSizeLine (l : Bytes) (z : ℤ) : Prop where
  /-- It is not empty. -/
  nonempty : l ≠ []
  /-- Nothing ends it before its end. -/
  oneLine : search [13, 10] l.tail = none
  /-- The size. -/
  size : stoi 16 l = .ok z

/-- The size of a chunk is an `int`. -/
theorem IsSizeLine.isInt {l : Bytes} {z : ℤ} (h : IsSizeLine l z) : IsInt z := by
  obtain hz | ⟨z', hint, hz⟩ := stoi_cases 16 l
  · rw [h.size] at hz
    cases hz
  · rw [h.size, Except.ok.injEq] at hz
    rwa [hz]

/-- A size that is not negative is less than `2³¹`. -/
theorem IsSizeLine.lt {l : Bytes} {n : ℕ} (h : IsSizeLine l n) : n < 2 ^ 31 := by
  have hint := h.isInt.2
  omega

/-- Chunks, and how they are sent: behind a line with its size, each. -/
inductive Chunks : List Bytes → Bytes → Prop where
  /-- No chunk. -/
  | nil : Chunks [] []
  /-- One chunk more. -/
  | snoc {ds : List Bytes} {w l d : Bytes} : Chunks ds w → IsSizeLine l d.length → d ≠ [] →
      Chunks (ds ++ [d]) (w ++ (l ++ 13 :: 10 :: d))

/-- Chunks, and how they are sent when no more follow: the last line has the size zero. -/
inductive Coding : List Bytes → Bytes → Prop where
  /-- The last line. -/
  | last {ds : List Bytes} {w l : Bytes} : Chunks ds w → IsSizeLine l 0 → Coding ds (w ++ (l ++ [13, 10]))

/-- No chunk in a content has a negative size. -/
def NonnegSizes (content : Bytes) : Prop :=
  ∀ ds w l z, Chunks ds w → IsSizeLine l z → w ++ (l ++ [13, 10]) <+: content → 0 ≤ z

/-- As many bytes as the size says are one chunk more. -/
theorem Chunks.snoc_take {ds : List Bytes} {w l u : Bytes} {n : ℕ} (h : Chunks ds w) (hl : IsSizeLine l n)
    (h0 : n ≠ 0) (hle : n ≤ u.length) : Chunks (ds ++ [u.take n]) (w ++ (l ++ 13 :: 10 :: u.take n)) := by
  have htake : (u.take n).length = n := List.length_take_of_le hle
  refine .snoc h ?_ ?_
  · rwa [htake]
  · apply List.ne_nil_of_length_pos
    omega

/-- A coding is longer than what it codes. -/
theorem Chunks.length_le {ds : List Bytes} {w : Bytes} (h : Chunks ds w) : ds.flatten.length ≤ w.length := by
  induction h with
  | nil => exact le_refl _
  | snoc _ _ _ ih =>
    simp only [List.flatten_append, List.flatten_cons, List.flatten_nil, List.append_nil,
      List.length_append, List.length_cons]
    omega

theorem Coding.length_lt {ds : List Bytes} {w : Bytes} (h : Coding ds w) : ds.flatten.length < w.length := by
  cases h with
  | last hchunks hl =>
    have hle := hchunks.length_le
    rw [List.length_append, List.length_append]
    exact Nat.lt_of_le_of_lt hle (by simp)

namespace Response

/-! ### A round of the loop -/

variable {content l u : Bytes} {p1 : ℕ}

/-- A line, its CRLF and what follows. -/
theorem length_of_line (h : content.drop p1 = l ++ 13 :: 10 :: u) :
    p1 + l.length + 2 + u.length = content.length := by
  have hp1 : p1 ≤ content.length := le_length_of_drop h (by simp)
  have htotal := congrArg List.length h
  rw [List.length_drop, List.length_append, List.length_cons, List.length_cons] at htotal
  omega

/-- Where the line of a chunk ends. -/
theorem find_line (hne : l ≠ []) (hone : search [13, 10] l.tail = none)
    (h : content.drop p1 = l ++ 13 :: 10 :: u) : find content [13, 10] (p1 + 1) = some (p1 + l.length) := by
  obtain ⟨c, x, rfl⟩ := List.exists_cons_of_ne_nil hne
  have hdrop : content.drop (p1 + 1) = x ++ 13 :: 10 :: u := by
    rw [← List.drop_drop, h]
    rfl
  rw [find_pair_of_drop (by decide) hdrop, show search [13, 10] x = none from hone, List.length_cons]
  simp only [Option.getD_none, Option.some.injEq]
  omega

/-- What there is when the end of a line is found. -/
theorem exists_line {p2 : ℕ} (h : find content [13, 10] (p1 + 1) = some p2) :
    ∃ l u, content.drop p1 = l ++ 13 :: 10 :: u ∧ l ≠ [] ∧ search [13, 10] l.tail = none := by
  rw [find, Option.map_eq_some_iff, ← List.drop_drop] at h
  obtain ⟨k, hk, -⟩ := h
  cases hdrop : content.drop p1 with
  | nil => simp [hdrop, search] at hk
  | cons c t =>
    rw [hdrop, List.drop_succ_cons, List.drop_zero] at hk
    obtain ⟨⟨u, hu⟩, -⟩ := (search_eq_some_iff (by simp)).mp hk
    refine ⟨c :: t.take k, u, ?_, by simp, ?_⟩
    · rw [List.cons_append, show 13 :: 10 :: u = t.drop k from hu, List.take_append_drop]
    · apply search_eq_none_of_isPrefix (by simp) (List.take_prefix k t) hk
      have hle : (t.take k).length ≤ k := List.length_take_le k t
      exact Nat.lt_of_le_of_lt hle (by simp)

/-- A round on the line of a chunk. -/
theorem chunkStep_of_line {z : ℤ} (hl : IsSizeLine l z) (h : content.drop p1 = l ++ 13 :: 10 :: u)
    (temp : Bytes) : chunkStep content p1 temp =
      if toUInt64 z = 0 then .ok (.done .Success temp)
      else if content.length < (p1 + l.length + 2 + toUInt64 z) % 2 ^ 64 then .ok (.done .Fail content)
      else if temp.length + (u.take (toUInt64 z)).length < 2 ^ 63 then
        .ok (.next ((p1 + l.length + 2 + toUInt64 z) % 2 ^ 64) (temp ++ u.take (toUInt64 z)))
      else .ok (.done .Error content) := by
  have hp1 : p1 ≤ content.length := le_length_of_drop h (by simp)
  have hu : content.drop (p1 + l.length + 2) = u := by
    rw [← List.drop_drop, ← List.drop_drop, h, List.drop_left]
    rfl
  have hsub : substr content p1 (usub (p1 + l.length) p1) = .ok l := by
    rw [usub_of_le (Nat.le_add_right _ _), Nat.add_sub_cancel_left]
    exact substr_of_drop h hp1
  have hlen : p1 + l.length + 2 ≤ content.length := (Nat.le_add_right _ _).trans (length_of_line h).le
  have hchunk : substr content (p1 + l.length + 2) (toUInt64 z) = .ok (u.take (toUInt64 z)) := by
    rw [substr, if_pos hlen, hu]
  rw [chunkStep, bytes_crlf, find_line hl.nonempty hl.oneLine h]
  simp only [hsub, hl.size, hchunk, plusAssign, Exec.ok_bind]
  split
  · rfl
  · split
    · rfl
    · split <;> rfl

/-- A round on a line that is not one of a chunk. -/
theorem chunkStep_of_thrown (hne : l ≠ []) (hone : search [13, 10] l.tail = none)
    (h : content.drop p1 = l ++ 13 :: 10 :: u) (hz : stoi 16 l = .error .thrown) (temp : Bytes) :
    chunkStep content p1 temp = .ok (.done .Error content) := by
  have hsub : substr content p1 (usub (p1 + l.length) p1) = .ok l := by
    rw [usub_of_le (Nat.le_add_right _ _), Nat.add_sub_cancel_left]
    exact substr_of_drop h (le_length_of_drop h (by simp))
  rw [chunkStep, bytes_crlf, find_line hne hone h]
  simp only [hsub, hz, Exec.ok_bind, Exec.error_bind, Exec.catchAll_thrown]

/-- A round on the line of a chunk whose size is not negative, when no more is put together than has
been passed. -/
theorem chunkStep_of_size {n : ℕ} (hl : IsSizeLine l n) (h : content.drop p1 = l ++ 13 :: 10 :: u)
    (hlen : content.length < 2 ^ 63) {temp : Bytes} (htemp : temp.length ≤ p1) : chunkStep content p1 temp =
      if n = 0 then .ok (.done .Success temp)
      else if u.length < n then .ok (.done .Fail content)
      else .ok (.next (p1 + l.length + 2 + n) (temp ++ u.take n)) := by
  have htotal := length_of_line h
  have hn := hl.lt
  have hmod : (p1 + l.length + 2 + n) % 2 ^ 64 = p1 + l.length + 2 + n := Nat.mod_eq_of_lt (by omega)
  have hlt : content.length < p1 + l.length + 2 + n ↔ u.length < n := by omega
  have htake := List.length_take_le n u
  rw [chunkStep_of_line hl h, toUInt64_natCast, hmod]
  simp only [hlt]
  split
  · rfl
  · split
    · rfl
    · next hle => rw [if_pos (by rw [List.length_take] at htake ⊢; omega)]

/-! ### What is put together -/

/-- **What the loop puts together is the chunks**, when their sizes are not negative. -/
theorem coding_of_chunkLoop (hlen : content.length < 2 ^ 63) (hsizes : NonnegSizes content) {fuel : ℕ}
    {ds : List Bytes} {w out : Bytes} (hchunks : Chunks ds w) (hw : w <+: content)
    (h : chunkLoop content fuel w.length ds.flatten = .ok (.Success, out)) :
    ∃ ds' w', Coding ds' w' ∧ w' <+: content ∧ out = ds'.flatten := by
  induction fuel generalizing ds w with
  | zero => cases h
  | succ fuel ih =>
    obtain ⟨rest, rfl⟩ := hw
    have hrest : (w ++ rest).drop w.length = rest := List.drop_left
    cases hfind : find (w ++ rest) [13, 10] (w.length + 1) with
    | none =>
      rw [chunkLoop, chunkStep, bytes_crlf, hfind] at h
      simp at h
    | some p2 =>
      obtain ⟨l, u, hl, hne, hone⟩ := exists_line hfind
      rw [hrest] at hl
      subst hl
      obtain hz | ⟨z, -, hz⟩ := stoi_cases 16 l
      · rw [chunkLoop, chunkStep_of_thrown hne hone hrest hz] at h
        simp at h
      · have hline : IsSizeLine l z := ⟨hne, hone, hz⟩
        have hpre : w ++ (l ++ [13, 10]) <+: w ++ (l ++ 13 :: 10 :: u) := ⟨u, by simp⟩
        obtain ⟨n, rfl⟩ := Int.eq_ofNat_of_zero_le (hsizes ds w l z hchunks hline hpre)
        rw [chunkLoop, chunkStep_of_size hline hrest hlen hchunks.length_le] at h
        split at h
        · next h0 =>
          subst h0
          simp only [Exec.ok_bind, Except.ok.injEq, Prod.mk.injEq, true_and] at h
          exact ⟨ds, _, .last hchunks hline, hpre, h.symm⟩
        · split at h
          · simp at h
          · next hn0 hle =>
            have htake : (u.take n).length = n := List.length_take_of_le (Nat.not_lt.mp hle)
            apply ih (hchunks.snoc_take hline hn0 (Nat.not_lt.mp hle))
            · exact ⟨u.drop n, by simp⟩
            · simpa [htake, Nat.add_assoc, Nat.add_comm 2 n] using h

/-- Only the content is touched. -/
theorem isCompletedChunked_eq_ok {r r' : Response} {rst : ParseResult}
    (h : isCompletedChunked r = .ok (rst, r')) : ∃ content,
      chunkLoop r.content_ (chunkRounds r.content_) 0 [] = .ok (rst, content) ∧
        r' = { r with content_ := content } := by
  rw [isCompletedChunked, Exec.bind_eq_ok_iff] at h
  obtain ⟨⟨rst', content⟩, hloop, h⟩ := h
  simp only [Except.ok.injEq, Prod.mk.injEq] at h
  obtain ⟨rfl, rfl⟩ := h
  exact ⟨content, hloop, rfl⟩

/-- **A content that is whole is its chunks**, when their sizes are not negative. -/
theorem coding_of_isCompletedChunked {r r' : Response} (h : isCompletedChunked r = .ok (.Success, r'))
    (hlen : r.content_.length < 2 ^ 63) (hsizes : NonnegSizes r.content_) :
    ∃ ds w, Coding ds w ∧ w <+: r.content_ ∧ r'.content_ = ds.flatten := by
  obtain ⟨content, hloop, rfl⟩ := isCompletedChunked_eq_ok h
  exact coding_of_chunkLoop hlen hsizes .nil List.nil_prefix hloop

/-! ### Whole responses -/

/-- A response that is whole has the length its headers give, or its last chunk has come. -/
theorem unpackAndCompleted_success {r₀ r : Response} {data : Bytes}
    (h : unpackAndCompleted r₀ data = .ok (.Success, r)) : ∃ m, unpack r₀ data = .ok (.Success, m) ∧
      ((∃ value z, m.contentLength = some value ∧ stoi 10 value = .ok z ∧
        toUInt64 z = m.content_.length ∧ r = m) ∨
      (m.contentLength = none ∧ m.heads_[bytes "Transfer-Encoding"]? = some (bytes "chunked") ∧
        isCompletedChunked m = .ok (.Success, r))) := by
  have hbind := h
  rw [unpackAndCompleted, Exec.bind_eq_ok_iff] at hbind
  obtain ⟨⟨rst, m⟩, hm, -⟩ := hbind
  by_cases hrst : rst = .Success
  · subst hrst
    refine ⟨m, hm, ?_⟩
    cases hvalue : m.contentLength with
    | some value =>
      rw [unpackAndCompleted_of_length hm hvalue, Except.ok.injEq, Prod.mk.injEq] at h
      obtain ⟨z, hz, hlen⟩ := measured_fail_eq_success_iff.mp h.1
      exact .inl ⟨value, z, rfl, hz, hlen, h.2.symm⟩
    | none =>
      rw [unpackAndCompleted_of_none hm hvalue] at h
      split at h
      · next hchunked => exact .inr ⟨rfl, hchunked, h⟩
      · cases h
  · rw [unpackAndCompleted_of_ne hm hrst] at h
    cases h

end Response

end UvCpp.Http
