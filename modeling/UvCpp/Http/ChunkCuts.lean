import UvCpp.Http.Chunked

/-!
# Chunked contents, cut anywhere

A content that is sent in chunks arrives in parts. `isCompletedChunked` looks at all that has come
each time: whole chunks are put together, and what is behind the last of them is a line that does not
end yet, or a chunk that is shorter than its line says. So it waits until the line of the last chunk
has ended, and then has what was sent (`isCompletedChunked_packChunks`), whatever bytes the chunks
hold, and however their sizes are written.
-/

namespace UvCpp.Http

open UvCpp.Cpp

/-- A chunk, with its size as `hex` writes it. -/
def packChunk (hex : ℕ → Bytes) (d : Bytes) : Bytes := hex d.length ++ 13 :: 10 :: (d ++ [13, 10])

/-- Chunks, and the last one. -/
def packChunks (hex : ℕ → Bytes) (ds : List Bytes) : Bytes := ds.flatMap (packChunk hex) ++ bytes "0\r\n\r\n"

/-! ### Lines and chunks -/

/-- No line ends in what is shorter than a line with its CRLF. -/
theorem IsSizeLine.search_cut {l x u : Bytes} {z : ℤ} (h : IsSizeLine l z) (hx : x <+: l ++ 13 :: 10 :: u)
    (hlt : x.length < l.length + 2) : search [13, 10] x.tail = none := by
  cases x with
  | nil => rfl
  | cons c x =>
    obtain ⟨c', l, rfl⟩ := List.exists_cons_of_ne_nil h.nonempty
    rw [List.cons_append, List.cons_prefix_cons] at hx
    have hfound := search_pair_append (by decide : (13 : UInt8) ≠ 10) l u
    rw [show search [13, 10] l = none from h.oneLine, Option.getD_none] at hfound
    apply search_eq_none_of_isPrefix (by decide) hx.2 hfound
    simp only [List.length_cons, List.length_nil] at hlt ⊢
    omega

/-- Every chunk has a byte. -/
theorem Chunks.length_list_le {ds : List Bytes} {w : Bytes} (h : Chunks ds w) : ds.length ≤ w.length := by
  induction h with
  | nil => exact le_rfl
  | snoc _ _ _ ih =>
    simp only [List.length_append, List.length_cons, List.length_nil]
    omega

/-- A part that reaches past the first of two strings has a part of the second. -/
theorem exists_of_isPrefix_append {x a b : Bytes} (h : x <+: a ++ b) (hle : a.length ≤ x.length) :
    ∃ y, x = a ++ y ∧ y <+: b := by
  obtain ⟨y, rfl⟩ := List.prefix_of_prefix_length_le (List.prefix_append a b) h hle
  exact ⟨y, rfl, (List.prefix_append_right_inj a).mp h⟩

namespace Response

variable {content w : Bytes} {ds : List Bytes}

/-- Whole chunks are put together. -/
theorem chunkLoop_of_chunks (hchunks : Chunks ds w) (hw : w <+: content) (hlen : content.length < 2 ^ 63)
    (fuel : ℕ) : chunkLoop content (ds.length + fuel) 0 [] = chunkLoop content fuel w.length ds.flatten := by
  induction hchunks generalizing fuel with
  | nil => rw [List.length_nil, Nat.zero_add]; rfl
  | @snoc ds w l d hchunks hline hne ih =>
    obtain ⟨u, rfl⟩ := hw
    have hdrop : (w ++ (l ++ 13 :: 10 :: d) ++ u).drop w.length = l ++ 13 :: 10 :: (d ++ u) := by
      rw [List.append_assoc, List.drop_left]
      simp
    have hstep := chunkStep_of_size hline hdrop hlen hchunks.length_le
    rw [if_neg (List.length_pos_of_ne_nil hne).ne', if_neg (by simp), List.take_left] at hstep
    have hrounds : (ds ++ [d]).length + fuel = ds.length + (fuel + 1) := by
      rw [List.length_append, List.length_singleton]
      omega
    have hplace : (w ++ (l ++ 13 :: 10 :: d)).length = w.length + l.length + 2 + d.length := by
      simp only [List.length_append, List.length_cons]
      omega
    rw [hrounds, ih ⟨l ++ 13 :: 10 :: d ++ u, by simp⟩, chunkLoop, hstep, Exec.ok_bind, hplace]
    simp

/-- After the whole chunks there are rounds left. -/
theorem exists_chunkLoop (hchunks : Chunks ds w) (hw : w <+: content) (hlen : content.length < 2 ^ 63) :
    ∃ fuel, chunkLoop content (chunkRounds content) 0 [] =
      chunkLoop content (fuel + 1) w.length ds.flatten := by
  have hle := hchunks.length_list_le.trans hw.length_le
  refine ⟨chunkRounds content - 1 - ds.length, ?_⟩
  rw [← chunkLoop_of_chunks hchunks hw hlen]
  congr 1
  rw [chunkRounds]
  omega

/-- Whole chunks, and behind them a line that does not end. -/
theorem chunkLoop_of_line (hchunks : Chunks ds w) {x : Bytes} (hx : search [13, 10] x.tail = none)
    (hcontent : content = w ++ x) (hlen : content.length < 2 ^ 63) :
    chunkLoop content (chunkRounds content) 0 [] = .ok (.Fail, content) := by
  obtain ⟨fuel, hloop⟩ := exists_chunkLoop hchunks ⟨x, hcontent.symm⟩ hlen
  have hfind : find content [13, 10] (w.length + 1) = none := by
    rw [find, ← List.drop_drop, hcontent, List.drop_left, List.drop_one, hx]
    rfl
  rw [hloop, chunkLoop, chunkStep, bytes_crlf, hfind]
  rfl

/-- Whole chunks, and behind them one that is shorter than its line says. -/
theorem chunkLoop_of_chunk (hchunks : Chunks ds w) {l d : Bytes} {n : ℕ} (hline : IsSizeLine l n)
    (hd : d.length < n) (hcontent : content = w ++ (l ++ 13 :: 10 :: d)) (hlen : content.length < 2 ^ 63) :
    chunkLoop content (chunkRounds content) 0 [] = .ok (.Fail, content) := by
  obtain ⟨fuel, hloop⟩ := exists_chunkLoop hchunks ⟨_, hcontent.symm⟩ hlen
  have hdrop : content.drop w.length = l ++ 13 :: 10 :: d := by rw [hcontent, List.drop_left]
  rw [hloop, chunkLoop, chunkStep_of_size hline hdrop hlen hchunks.length_le, if_neg (by omega), if_pos hd]
  rfl

/-- **Chunks that are cut are waited for.** -/
theorem chunkLoop_of_isPrefix (hchunks : Chunks ds w) (h : content <+: w) (hlen : content.length < 2 ^ 63) :
    chunkLoop content (chunkRounds content) 0 [] = .ok (.Fail, content) := by
  induction hchunks with
  | nil => exact chunkLoop_of_line .nil (x := []) rfl (List.prefix_nil.mp h) hlen
  | @snoc ds w l d hchunks hline hne ih =>
    by_cases hw : content.length ≤ w.length
    · exact ih (List.prefix_of_prefix_length_le h (List.prefix_append w _) hw)
    obtain ⟨x, hx, hpre⟩ := exists_of_isPrefix_append h (not_le.mp hw).le
    by_cases hline' : x.length < l.length + 2
    · exact chunkLoop_of_line hchunks (hline.search_cut hpre hline') hx hlen
    have hpre' : x <+: (l ++ [13, 10]) ++ d := by simpa using hpre
    obtain ⟨y, rfl, hy⟩ := exists_of_isPrefix_append hpre' (by simpa using hline')
    by_cases hshort : y.length < d.length
    · exact chunkLoop_of_chunk hchunks hline hshort (by simpa using hx) hlen
    · obtain rfl := hy.eq_of_length (le_antisymm hy.length_le (not_lt.mp hshort))
      exact chunkLoop_of_line (.snoc hchunks hline hne) (x := []) rfl (by simpa using hx) hlen

/-- **Until the last line has ended, the rest is waited for.** -/
theorem chunkLoop_of_cut (h : Coding ds w) (hcut : content <+: w) (hlt : content.length < w.length)
    (hlen : content.length < 2 ^ 63) :
    chunkLoop content (chunkRounds content) 0 [] = .ok (.Fail, content) := by
  cases h with
  | @last w l hchunks hline =>
    by_cases hw : content.length ≤ w.length
    · have hpre := List.prefix_of_prefix_length_le hcut (List.prefix_append w _) hw
      exact chunkLoop_of_isPrefix hchunks hpre hlen
    · obtain ⟨x, rfl, hpre⟩ := exists_of_isPrefix_append hcut (not_le.mp hw).le
      refine chunkLoop_of_line hchunks (hline.search_cut hpre ?_) rfl hlen
      simp only [List.length_append, List.length_cons, List.length_nil] at hlt
      omega

/-- **What has been sent whole is put together**, whatever comes behind it. -/
theorem chunkLoop_of_coding (h : Coding ds w) (hw : w <+: content) (hlen : content.length < 2 ^ 63) :
    chunkLoop content (chunkRounds content) 0 [] = .ok (.Success, ds.flatten) := by
  cases h with
  | @last w l hchunks hline =>
    obtain ⟨u, rfl⟩ := hw
    obtain ⟨fuel, hloop⟩ := exists_chunkLoop hchunks ⟨l ++ [13, 10] ++ u, by simp⟩ hlen
    have hdrop : (w ++ (l ++ [13, 10]) ++ u).drop w.length = l ++ 13 :: 10 :: u := by
      rw [List.append_assoc, List.drop_left]
      simp
    have hstep := chunkStep_of_size (n := 0) hline hdrop hlen hchunks.length_le
    rw [hloop, chunkLoop, hstep, if_pos rfl]
    rfl

/-- **The contents that are whole are those that begin with a coding**, when no size is negative. -/
theorem isCompletedChunked_success_iff {r r' : Response} (hlen : r.content_.length < 2 ^ 63)
    (hsizes : NonnegSizes r.content_) : isCompletedChunked r = .ok (.Success, r') ↔
      ∃ ds w, Coding ds w ∧ w <+: r.content_ ∧ r' = { r with content_ := ds.flatten } := by
  constructor
  · intro h
    obtain ⟨out, hloop, rfl⟩ := isCompletedChunked_eq_ok h
    obtain ⟨ds, w, hcoding, hw, rfl⟩ := coding_of_chunkLoop hlen hsizes .nil List.nil_prefix hloop
    exact ⟨ds, w, hcoding, hw, rfl⟩
  · rintro ⟨ds, w, hcoding, hw, rfl⟩
    rw [isCompletedChunked, chunkLoop_of_coding hcoding hw hlen]
    rfl

end Response

/-! ### What is sent -/

/-- What stands before the size of the next chunk: the CRLF behind the chunk before. -/
def crlfBefore : List Bytes → Bytes
  | [] => []
  | _ :: _ => [13, 10]

/-- The line of a chunk that is sent. -/
theorem isSizeLine_crlfBefore (ds : List Bytes) {num : Bytes} {n : ℕ} (h : IsNumeral 16 num n)
    (hn : n < 2 ^ 31) : IsSizeLine (crlfBefore ds ++ num) n := by
  have hnum : (13 : UInt8) ∉ num := fun hmem => absurd (h.digits 13 hmem) (by decide)
  have hsp : ∀ c ∈ crlfBefore ds, isSpace c := by
    cases ds with
    | nil => simp [crlfBefore]
    | cons d ds => simp [crlfBefore, isSpace]
  refine ⟨List.append_ne_nil_of_right_ne_nil _ h.nonempty, ?_, ?_⟩
  · apply search_eq_none
    intro hmem
    cases ds with
    | nil => exact hnum (List.mem_of_mem_tail hmem)
    | cons d ds => exact hnum (by simpa [crlfBefore] using hmem)
  · have hread := h.stoi_append (by decide) hsp (s := []) rfl (by simp)
    rwa [List.append_nil, if_pos hn] at hread

variable {hex : ℕ → Bytes} {ds : List Bytes}

/-- Chunks as they are sent are chunks. -/
theorem exists_chunks_of_packChunk (hhex : ∀ n, IsNumeral 16 (hex n) n)
    (hds : ∀ d ∈ ds, d ≠ [] ∧ d.length < 2 ^ 31) :
    ∃ w, Chunks ds w ∧ ds.flatMap (packChunk hex) = w ++ crlfBefore ds := by
  induction ds using List.reverseRecOn with
  | nil => exact ⟨[], .nil, rfl⟩
  | append_singleton ds d ih =>
    obtain ⟨w, hchunks, hw⟩ := ih fun d' hd' => hds d' (List.mem_append_left _ hd')
    obtain ⟨hne, hlt⟩ := hds d (by simp)
    refine ⟨_, .snoc hchunks (isSizeLine_crlfBefore ds (hhex d.length) hlt) hne, ?_⟩
    have hbefore : crlfBefore (ds ++ [d]) = [13, 10] := by cases ds <;> rfl
    rw [List.flatMap_append, hw, hbefore]
    simp [packChunk]

namespace Response

/-- **Chunked contents, cut anywhere, are waited for until the line of the last chunk has ended, and
then are what was sent.** -/
theorem isCompletedChunked_packChunks (r : Response) (hhex : ∀ n, IsNumeral 16 (hex n) n)
    (hds : ∀ d ∈ ds, d ≠ [] ∧ d.length < 2 ^ 31) {data more : Bytes}
    (hdata : data <+: packChunks hex ds ++ more) (hlen : data.length < 2 ^ 63) :
    isCompletedChunked { r with content_ := data } =
      if data.length + 2 < (packChunks hex ds).length then .ok (.Fail, { r with content_ := data })
      else .ok (.Success, { r with content_ := ds.flatten }) := by
  obtain ⟨w, hchunks, hw⟩ := exists_chunks_of_packChunk hhex hds
  have hline : IsSizeLine (crlfBefore ds ++ [48]) 0 := by
    have hzero : IsNumeral 16 [48] 0 := ⟨by simp, by simp [digitVal], rfl⟩
    exact isSizeLine_crlfBefore ds hzero (by decide)
  have hpack : packChunks hex ds = w ++ (crlfBefore ds ++ [48] ++ [13, 10]) ++ [13, 10] := by
    rw [packChunks, hw]
    simp [bytes]
  have hcoding : Coding ds (w ++ (crlfBefore ds ++ [48] ++ [13, 10])) := .last hchunks hline
  generalize w ++ (crlfBefore ds ++ [48] ++ [13, 10]) = whole at hpack hcoding
  rw [hpack, List.append_assoc] at hdata
  have hlt : data.length + 2 < (packChunks hex ds).length ↔ data.length < whole.length := by
    rw [hpack, List.length_append]
    simp
  simp only [hlt]
  split
  · next hcut =>
    have hpre := List.prefix_of_prefix_length_le hdata (List.prefix_append whole _) hcut.le
    rw [isCompletedChunked, chunkLoop_of_cut hcoding hpre hcut hlen]
    rfl
  · next hwhole =>
    have hpre := List.prefix_of_prefix_length_le (List.prefix_append whole _) hdata (not_lt.mp hwhole)
    rw [isCompletedChunked, chunkLoop_of_coding hcoding hpre hlen]
    rfl

/-- A chunk that looks like a size and its line, and one that looks like the last line. -/
def sampleChunks : List Bytes := [bytes "5\r\n", bytes "\r\n0\r\n\r\n"]

/-- They are waited for as long as the last line has no LF. -/
theorem isCompletedChunked_packChunks_sample :
    isCompletedChunked { new with content_ := (packChunks (numeral 16) sampleChunks).take 22 } =
      .ok (.Fail, { new with content_ := (packChunks (numeral 16) sampleChunks).take 22 }) := by
  have hhex : ∀ n, IsNumeral 16 (numeral 16 n) n := isNumeral_numeral (by decide) (by decide)
  have hdata : (packChunks (numeral 16) sampleChunks).take 22 <+:
      packChunks (numeral 16) sampleChunks ++ [] := by
    rw [List.append_nil]
    exact List.take_prefix _ _
  rw [isCompletedChunked_packChunks new hhex (by decide) hdata (by decide), if_pos (by decide)]

end Response

end UvCpp.Http
