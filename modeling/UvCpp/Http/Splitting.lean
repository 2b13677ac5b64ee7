import UvCpp.Http.Heads

/-!
# What the two splitters accept

`SplitHttpOfCRLF` and `SplitStrOfSpace` are described here without the way they take through a string.
The first cuts the bytes before the first blank line at each CRLF: joined again, its lines are these bytes
(`splitHttpOfCRLF_exact`). The second accepts the strings of `ThreeWords` and no others, and its return code
says what the size of its output says (`splitStrOfSpace_exact`).
-/

namespace UvCpp.Http

open UvCpp.Cpp Exec

/-! ### Lines -/

/-- Joining lines. -/
theorem intercalate_crlf (line : Bytes) (lines : List Bytes) :
    Crlf.intercalate (line :: lines) = joinLines line lines := by
  induction lines generalizing line with
  | nil => simp [joinLines]
  | cons l lines ih =>
    rw [List.intercalate_cons_cons, ih, joinLines_cons, Crlf, bytes_crlf]
    simp

/-- What a search does not find does not occur. -/
theorem not_isInfix_of_search {p s : Bytes} (hp : p ≠ []) (h : search p s = none) : ¬ p <:+: s := by
  intro hin
  have hself := search_eq_none_of_isInfix hp hin h
  rw [search_of_isPrefix List.prefix_rfl] at hself
  cases hself

/-- An empty line stands between two CRLFs, if there is one before the lines and one behind them. -/
theorem isInfix_of_nil_mem_cutLines {x : Bytes} (h : [] ∈ cutLines x) :
    [13, 10, 13, 10] <:+: 13 :: 10 :: (x ++ [13, 10]) := by
  induction hn : x.length using Nat.strongRecOn generalizing x with
  | ind n ih =>
    cases hs : search [13, 10] x with
    | none =>
      rw [cutLines_of_search_eq_none hs, List.mem_singleton] at h
      rw [← h]
      exact List.infix_rfl
    | some p =>
      rw [cutLines_of_search_eq_some hs] at h
      obtain ⟨u, hu⟩ := ((search_eq_some_iff (by simp)).mp hs).1
      have hrest : x.drop (p + 2) = u := by
        rw [← List.drop_drop, ← hu]
        rfl
      obtain hempty | h := List.mem_cons.mp h
      · -- the first line is the empty one
        have hx : x = 13 :: 10 :: u := by
          rw [← List.take_append_drop p x, ← hempty, ← hu]
          rfl
        rw [hx]
        exact ⟨[], u ++ [13, 10], by simp⟩
      · have hle : p + 2 ≤ x.length := search_add_length_le (by simp) hs
        have hin := ih (x.drop (p + 2)).length (by rw [List.length_drop]; omega) h rfl
        rw [hrest] at hin
        refine hin.trans ⟨13 :: 10 :: x.take p, [], ?_⟩
        conv_rhs => rw [← List.take_append_drop p x, ← hu]
        simp

/-- The lines of a head are not empty, if the first blank line is the one behind it. -/
theorem ne_nil_of_mem_headLines {h l : Bytes} (hfirst : search [13, 10, 13, 10] (h ++ [13, 10]) = none)
    (hl : l ∈ headLines h) : l ≠ [] := by
  rintro rfl
  cases h with
  | nil => exact absurd hl List.not_mem_nil
  | cons c t =>
    apply not_isInfix_of_search (by decide) hfirst
    rw [headLines] at hl
    cases hs : search [13, 10] t with
    | none =>
      rw [cutLines_of_search_eq_none hs, List.modifyHead_cons, List.mem_singleton] at hl
      cases hl
    | some p =>
      rw [cutLines_of_search_eq_some hs, List.modifyHead_cons, List.mem_cons] at hl
      obtain ⟨u, hu⟩ := ((search_eq_some_iff (by simp)).mp hs).1
      have hrest : t.drop (p + 2) = u := by
        rw [← List.drop_drop, ← hu]
        rfl
      have hin := isInfix_of_nil_mem_cutLines (hl.resolve_left (List.cons_ne_nil c _).symm)
      rw [hrest] at hin
      refine hin.trans ⟨c :: t.take p, [], ?_⟩
      conv_rhs => rw [← List.take_append_drop p t, ← hu]
      simp

/-- No CRLF is in the lines of a head that does not begin with one. -/
theorem not_isInfix_of_mem_headLines {h l : Bytes} (hpre : ¬ Crlf <+: h) (hl : l ∈ headLines h) :
    ¬ Crlf <:+: l := by
  rw [Crlf, bytes_crlf] at *
  cases h with
  | nil => exact absurd hl List.not_mem_nil
  | cons c t =>
    rw [headLines_of_not_isPrefix (List.cons_ne_nil c t) hpre] at hl
    exact not_isInfix_of_search (by simp) (search_of_mem_cutLines hl)

/-- **`SplitHttpOfCRLF` cuts the head exactly.** If the first blank line is at `b`, it returns `b` and the
lines of the first `b` bytes, none of them empty; if there is no blank line, -1. -/
theorem splitHttpOfCRLF_exact (str : Bytes) :
    (∀ b : ℕ, find str (Crlf ++ Crlf) 0 = some b → 1 ≤ b → b < 2 ^ 31 →
      ∃ out, SplitHttpOfCRLF str = .ok (b, out) ∧ Crlf.intercalate out = str.take b ∧ (∀ l ∈ out, l ≠ []) ∧
        (¬ Crlf <+: str → ∀ l ∈ out, ¬ Crlf <:+: l)) ∧
      (find str (Crlf ++ Crlf) 0 = none → SplitHttpOfCRLF str = .ok (-1, [])) := by
  have hsplit := splitHttpOfCRLF_eq str
  rw [show bytes "\r\n\r\n" = Crlf ++ Crlf by decide] at hsplit
  refine ⟨fun b hb hpos hshort => ?_, fun hnone => by rw [hsplit, hnone]⟩
  rw [hb] at hsplit
  simp only at hsplit
  rw [toInt32_of_lt hshort] at hsplit
  have hle : b + 4 ≤ str.length := find_add_length_le (by decide) hb
  obtain ⟨-, hblank, hbefore⟩ := (find_eq_some_iff (by decide)).mp hb
  have hne : str.take b ≠ [] := List.ne_nil_of_length_pos (by rw [List.length_take]; omega)
  refine ⟨headLines (str.take b), hsplit, ?_, fun l hl => ?_, fun hpre l hl => ?_⟩
  · obtain ⟨first, rest, hlines⟩ := List.exists_cons_of_ne_nil (mt headLines_eq_nil_iff.mp hne)
    rw [hlines, intercalate_crlf, joinLines_of_headLines hlines]
  · refine ne_nil_of_mem_headLines ?_ hl
    -- the blank line at `b` is the first one
    obtain ⟨u, hu⟩ := hblank
    have hstr : str = str.take b ++ (Crlf ++ Crlf ++ u) := by rw [hu, List.take_append_drop]
    have hprefix : str.take b ++ [13, 10] <+: str := by
      refine ⟨Crlf ++ u, ?_⟩
      conv_rhs => rw [hstr]
      rw [List.append_assoc]
      rfl
    have hsearch : search (Crlf ++ Crlf) str = some b := by simpa [find] using hb
    refine search_eq_none_of_isPrefix (by decide) hprefix hsearch ?_
    simp only [List.length_append, List.length_take, List.length_cons, List.length_nil]
    omega
  · exact not_isInfix_of_mem_headLines (fun h => hpre (h.trans (List.take_prefix b str))) hl

/-- A head of two lines, the second of which begins with a line feed. -/
theorem splitHttpOfCRLF_exact_two : ∃ out, SplitHttpOfCRLF (bytes "a\r\n\nb\r\n\r\nc") = .ok (5, out) ∧
    Crlf.intercalate out = (bytes "a\r\n\nb\r\n\r\nc").take 5 ∧ (∀ l ∈ out, l ≠ []) ∧
      (¬ Crlf <+: bytes "a\r\n\nb\r\n\r\nc" → ∀ l ∈ out, ¬ Crlf <:+: l) :=
  (splitHttpOfCRLF_exact (bytes "a\r\n\nb\r\n\r\nc")).1 5 (by decide) (by decide) (by decide)

/-! ### Words -/

/-- **`SplitStrOfSpace` accepts exactly its grammar.** On every string it returns; it returns 0 on three
words, with these words, and -1 on any other string, with fewer than three. -/
theorem splitStrOfSpace_exact (str : Bytes) : ∃ code out, SplitStrOfSpace str = .ok (code, out) ∧
    (code = 0 ↔ ∃ a b c, ThreeWords str a b c) ∧ (∀ a b c, ThreeWords str a b c → out = [a, b, c]) ∧
      ((¬ ∃ a b c, ThreeWords str a b c) → code = -1 ∧ out.length < 3) ∧ (out.length = 3 ↔ code = 0) := by
  obtain ⟨⟨code, out⟩, hsplit⟩ := returns_splitStrOfSpace str
  have hwords {a b c : Bytes} (h : ThreeWords str a b c) : code = 0 ∧ out = [a, b, c] := by
    have heq := hsplit.symm.trans (splitStrOfSpace_of_words h)
    cases heq
    exact ⟨rfl, rfl⟩
  refine ⟨code, out, hsplit, ?_⟩
  obtain ⟨a, b, c, rfl, rfl, h⟩ | ⟨rfl, hlen⟩ := splitStrOfSpace_cases hsplit
  · exact ⟨iff_of_true rfl ⟨a, b, c, h⟩, fun _ _ _ h' => (hwords h').2, fun hno => absurd ⟨a, b, c, h⟩ hno,
      iff_of_true rfl rfl⟩
  · have hno : ¬ ∃ a b c, ThreeWords str a b c := fun ⟨_, _, _, h⟩ => absurd (hwords h).1 (by decide)
    exact ⟨iff_of_false (by decide) hno, fun _ _ _ h => (hwords h).2, fun _ => ⟨rfl, hlen⟩,
      iff_of_false hlen.ne (by decide)⟩

end UvCpp.Http
