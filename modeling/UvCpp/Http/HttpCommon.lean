import UvCpp.Cpp.Numerals
import Std.Data.ExtTreeMap.Lemmas

/-!
# The common parts of HTTP messages

The head of a message is lines that end with CRLF, up to a blank line.
`SplitHttpOfCRLF` finds the blank line and cuts the head into its lines,
`SplitStrOfSpace` cuts a line into three words, and `AppendHead` reads a header.

The two splitters move an index through the string. What they compute is said without
indices: the lines of a string (`cutLines`), so that `splitHttpOfCRLF_eq` describes the
first on every string; and `splitStrOfSpace_words` for the second.
-/

namespace UvCpp.Http

open UvCpp.Cpp

/-- A `std::map` from strings to strings. -/
abbrev StringMap := Std.ExtTreeMap Bytes Bytes

/-- `uv::http::ParseResult`. -/
inductive ParseResult where
  /-- Parsed. -/
  | Success
  /-- Not whole yet. -/
  | Fail
  /-- Not a message. -/
  | Error
  deriving DecidableEq

/-- `uv::http::HttpVersion`. -/
inductive HttpVersion where
  | Unknown
  | Http1_0
  | Http1_1
  deriving DecidableEq

/-- `uv::http::Methon`: the request methods. -/
inductive Methon where
  | Get
  | Post
  | Head
  | Put
  | Delete
  | Connect
  | Options
  | Trace
  | Patch
  | Invalid
  deriving DecidableEq

/-- `Crlf`. -/
def Crlf : Bytes := bytes "\r\n"

/-- `HttpVersionToStr`. -/
def HttpVersionToStr : HttpVersion → Bytes
  | .Http1_0 => bytes "HTTP/1.0"
  | .Http1_1 => bytes "HTTP/1.1"
  | .Unknown => []

/-- `GetHttpVersion`. -/
def GetHttpVersion (str : Bytes) : HttpVersion :=
  if str = bytes "HTTP/1.0" then .Http1_0
  else if str = bytes "HTTP/1.1" then .Http1_1
  else .Unknown

/-- The loop of `SplitHttpOfCRLF`, for at most so many rounds: the lines cut off from `pos` on. -/
def splitHttpLoop (str : Bytes) (bodyPos : ℕ) : ℕ → ℕ → Exec (List Bytes)
  | 0, _ => .error .loops
  | fuel + 1, pos =>
    if pos < bodyPos then
      let last := pos
      match find str (bytes "\r\n") (pos + 1) with
      | none => .ok []
      | some pos => do
        let last := if 0 ≠ last then last + 2 else last
        let line ← substr str last (usub pos last)
        let lines ← splitHttpLoop str bodyPos fuel pos
        .ok (line :: lines)
    else .ok []

/-- `SplitHttpOfCRLF`, with an empty `out`. -/
def SplitHttpOfCRLF (str : Bytes) : Exec (ℤ × List Bytes) :=
  match find str (bytes "\r\n\r\n") 0 with
  | none => .ok (-1, [])
  | some bodyPos => do
    let out ← splitHttpLoop str bodyPos (bodyPos + 1) 0
    .ok (toInt32 bodyPos, out)

/-- `pos + 1`, where `none` is `npos`: its successor is `0`. -/
def nextPos : Option ℕ → ℕ
  | none => 0
  | some pos => pos + 1

/-- The loop of `SplitStrOfSpace`, for at most so many rounds, with `i` words cut off and
`last` the place of the space before: the last space found, or `none` if it returns -1, and
`out`. -/
def splitSpaceLoop (str : Bytes) : ℕ → ℕ → Option ℕ → List Bytes → Exec (Option ℕ × List Bytes)
  | 0, _, _, _ => .error .loops
  | fuel + 1, i, last, out =>
    if i < 2 then
      match find str (bytes " ") (nextPos last) with
      | none => .ok (none, out)
      | some pos =>
        if pos = nextPos last then splitSpaceLoop str fuel i (some pos) out
        else do
          let word ← substr str (nextPos last) (usub pos (nextPos last))
          splitSpaceLoop str fuel (i + 1) (some pos) (out ++ [word])
    else .ok (last, out)

/-- `SplitStrOfSpace`, with an empty `out`. -/
def SplitStrOfSpace (str : Bytes) : Exec (ℤ × List Bytes) := do
  let (pos, out) ← splitSpaceLoop str (str.length + 2) 0 none []
  match pos with
  | none => .ok (-1, out)
  | some pos =>
    if pos = usub str.length 1 then .ok (-1, out)
    else do
      let rest ← substr str (pos + 1) (usub (usub str.length pos) 1)
      .ok (0, out ++ [rest])

/-- `GetCommomStringLength`: how long a prefix two strings share. -/
def GetCommomStringLength : Bytes → Bytes → ℕ
  | c :: str1, d :: str2 => if c = d then GetCommomStringLength str1 str2 + 1 else 0
  | _, _ => 0

/-- `AppendHead`: the return code, and the headers. -/
def AppendHead (str : Bytes) (heads : StringMap) : Exec (ℤ × StringMap) :=
  match find str (bytes ": ") 0 with
  | none => .ok (-1, heads)
  | some pos => do
    let key ← substr str 0 pos
    let value ← substrFrom str (pos + 2)
    .ok (0, heads.insert key value)

/-! ### Versions -/

@[simp] theorem getHttpVersion_toStr (v : HttpVersion) : GetHttpVersion (HttpVersionToStr v) = v := by
  cases v <;> decide

theorem toStr_getHttpVersion {str : Bytes} (h : GetHttpVersion str ≠ .Unknown) :
    HttpVersionToStr (GetHttpVersion str) = str := by
  have hcases : GetHttpVersion str = .Unknown ∨ str = HttpVersionToStr (GetHttpVersion str) := by
    unfold GetHttpVersion
    split_ifs <;> first | exact .inl rfl | exact .inr ‹_›
  exact (hcases.resolve_left h).symm

/-- The text of a known version is a word. -/
theorem httpVersionToStr_word {v : HttpVersion} (h : v ≠ .Unknown) :
    HttpVersionToStr v ≠ [] ∧ 32 ∉ HttpVersionToStr v ∧ 13 ∉ HttpVersionToStr v := by
  cases v <;> first | decide | exact absurd rfl h

/-! ### Lines -/

@[simp] theorem bytes_crlf : bytes "\r\n" = [13, 10] := by decide

@[simp] theorem bytes_blank : bytes "\r\n\r\n" = [13, 10, 13, 10] := by decide

@[simp] theorem bytes_space : bytes " " = [32] := by decide

@[simp] theorem bytes_colonSpace : bytes ": " = [58, 32] := by decide

/-- A string, cut at each CRLF. -/
def cutLines : Bytes → List Bytes
  | [] => [[]]
  | [c] => [[c]]
  | c :: d :: t =>
    if c = 13 ∧ d = 10 then [] :: cutLines t else (cutLines (d :: t)).modifyHead (c :: ·)

theorem cutLines_cons {c : UInt8} {t : Bytes} (h : ¬ [13, 10] <+: c :: t) :
    cutLines (c :: t) = (cutLines t).modifyHead (c :: ·) := by
  cases t with
  | nil => rfl
  | cons d t =>
    rw [cutLines, if_neg]
    rintro ⟨rfl, rfl⟩
    exact h (List.prefix_append [13, 10] t)

/-- A string without CRLF is one line. -/
theorem cutLines_of_search_eq_none {h : Bytes} (hs : search [13, 10] h = none) : cutLines h = [h] := by
  induction h with
  | nil => rfl
  | cons c t ih =>
    have hpre : ¬ [13, 10] <+: c :: t := fun hp => by simp [search_of_isPrefix hp] at hs
    rw [search_cons_of_not_isPrefix hpre, Option.map_eq_none_iff] at hs
    rw [cutLines_cons hpre, ih hs]
    rfl

/-- The first line ends at the first CRLF. -/
theorem cutLines_of_search_eq_some {h : Bytes} {p : ℕ} (hs : search [13, 10] h = some p) :
    cutLines h = h.take p :: cutLines (h.drop (p + 2)) := by
  induction h generalizing p with
  | nil => simp [search] at hs
  | cons c t ih =>
    by_cases hpre : [13, 10] <+: c :: t
    · obtain ⟨u, hu⟩ := hpre
      rw [← hu, search_append_self, Option.some.injEq] at hs
      rw [← hu, ← hs]
      simp [cutLines]
    · rw [search_cons_of_not_isPrefix hpre, Option.map_eq_some_iff] at hs
      obtain ⟨q, hq, rfl⟩ := hs
      rw [cutLines_cons hpre, ih hq]
      rfl

/-- The lines of a head. The first byte belongs to the first line, whatever it is. -/
def headLines : Bytes → List Bytes
  | [] => []
  | c :: t => (cutLines t).modifyHead (c :: ·)

theorem headLines_of_not_isPrefix {h : Bytes} (hne : h ≠ []) (hpre : ¬ [13, 10] <+: h) :
    headLines h = cutLines h := by
  cases h with
  | nil => exact absurd rfl hne
  | cons c t => rw [headLines, cutLines_cons hpre]

theorem cutLines_ne_nil (h : Bytes) : cutLines h ≠ [] := by
  cases hs : search [13, 10] h with
  | none =>
    rw [cutLines_of_search_eq_none hs]
    exact List.cons_ne_nil _ _
  | some p =>
    rw [cutLines_of_search_eq_some hs]
    exact List.cons_ne_nil _ _

/-- No CRLF is left in a line. -/
theorem search_of_mem_cutLines {h l : Bytes} (hl : l ∈ cutLines h) : search [13, 10] l = none := by
  induction hn : h.length using Nat.strongRecOn generalizing h with
  | ind n ih =>
    cases hs : search [13, 10] h with
    | none =>
      rw [cutLines_of_search_eq_none hs, List.mem_singleton] at hl
      rwa [hl]
    | some p =>
      rw [cutLines_of_search_eq_some hs] at hl
      obtain rfl | hl := List.mem_cons.mp hl
      · exact search_eq_none_of_isPrefix (by simp) (List.take_prefix p h) hs
          (Nat.lt_of_le_of_lt (List.length_take_le p h) (by simp))
      · have hpos := List.length_pos_of_ne_nil (List.ne_nil_of_mem hl)
        refine ih (h.drop (p + 2)).length ?_ hl rfl
        have hle : p + 2 ≤ h.length := search_add_length_le (by simp) hs
        rw [List.length_drop]
        omega

/-- The lines of a head: no CRLF is left in them, but at the very beginning. -/
theorem search_of_headLines {h first : Bytes} {rest : List Bytes} (hlines : headLines h = first :: rest) :
    search [13, 10] first.tail = none ∧ ∀ l ∈ rest, search [13, 10] l = none := by
  cases h with
  | nil => cases hlines
  | cons c t =>
    rw [headLines] at hlines
    cases hcut : cutLines t with
    | nil => rw [hcut] at hlines; cases hlines
    | cons l ls =>
      rw [hcut, List.modifyHead_cons, List.cons.injEq] at hlines
      obtain ⟨rfl, rfl⟩ := hlines
      exact ⟨search_of_mem_cutLines (hcut ▸ List.mem_cons_self),
        fun x hx => search_of_mem_cutLines (hcut ▸ List.mem_cons_of_mem l hx)⟩

/-- The loop of `SplitHttpOfCRLF`, at a CRLF inside the head: it cuts the rest of the head into
lines. -/
theorem splitHttpLoop_eq {h t x : Bytes} {pos fuel : ℕ} (hpos : 0 < pos)
    (hx : h.drop pos = 13 :: 10 :: x) (hfuel : h.length - pos < fuel) :
    splitHttpLoop (h ++ 13 :: 10 :: t) h.length fuel pos = .ok (cutLines x) := by
  induction fuel generalizing pos x with
  | zero => omega
  | succ fuel ih =>
    have hlen : h.length = pos + 2 + x.length := by
      have := congrArg List.length hx
      simp only [List.length_drop, List.length_cons] at this
      omega
    have hdrop : (h ++ 13 :: 10 :: t).drop pos = [13, 10] ++ (x ++ 13 :: 10 :: t) := by
      rw [List.drop_append_of_le_length (by omega), hx]
      rfl
    have hdrop2 : (h ++ 13 :: 10 :: t).drop (pos + 2) = x ++ 13 :: 10 :: t := drop_add_of_drop hdrop
    have hfind : find (h ++ 13 :: 10 :: t) [13, 10] (pos + 1) =
        some (pos + 2 + (search [13, 10] x).getD x.length) := by
      rw [find, ← List.drop_drop, hdrop]
      simp only [List.cons_append, List.nil_append, List.drop_one, List.tail_cons]
      rw [search_cons_of_not_isPrefix (by simp [List.cons_prefix_cons]),
        search_pair_append (by decide)]
      simp only [Option.map_some, Option.some.injEq]
      omega
    have hline : ∀ g ≤ x.length, substr (h ++ 13 :: 10 :: t) (pos + 2) g = .ok (x.take g) := by
      intro g hg
      rw [substr, if_pos (by simp; omega), hdrop2, List.take_append_of_le_length hg]
    rw [splitHttpLoop, if_pos (by omega), bytes_crlf, hfind]
    simp only [if_pos (Nat.ne_of_lt hpos)]
    rw [usub_of_le (by omega), Nat.add_sub_cancel_left]
    cases hs : search [13, 10] x with
    | none =>
      -- the last line ends where the blank line begins
      rw [Option.getD_none, hline _ le_rfl, List.take_length, ← hlen]
      cases fuel with
      | zero => omega
      | succ fuel =>
        simp [splitHttpLoop, cutLines_of_search_eq_none hs]
    | some q =>
      have hq := ((search_eq_some_iff (by simp)).mp hs).1
      obtain ⟨y, hy⟩ := hq
      have hle : q + 2 ≤ x.length := search_add_length_le (by simp) hs
      rw [Option.getD_some, hline _ (by omega)]
      have hx' : h.drop (pos + 2 + q) = 13 :: 10 :: x.drop (q + 2) := by
        rw [← List.drop_drop, ← List.drop_drop, ← List.drop_drop, hx]
        simp [← hy]
      rw [ih (by omega) hx' (by omega), cutLines_of_search_eq_some hs]
      rfl

/-- The loop of `SplitHttpOfCRLF` cuts the whole head. -/
theorem splitHttpLoop_zero (h t : Bytes) :
    splitHttpLoop (h ++ 13 :: 10 :: t) h.length (h.length + 1) 0 = .ok (headLines h) := by
  cases h with
  | nil => rfl
  | cons c h =>
    have hdrop : (c :: h ++ 13 :: 10 :: t).drop 1 = h ++ 13 :: 10 :: t := rfl
    rw [splitHttpLoop, if_pos (by simp), bytes_crlf, find_pair_of_drop (by decide) hdrop]
    simp only [ne_eq, not_true_eq_false, if_false]
    have hline : ∀ g ≤ h.length, substr (c :: h ++ 13 :: 10 :: t) 0 (usub (0 + 1 + g) 0) =
        .ok (c :: h.take g) := by
      intro g hg
      rw [usub_of_le (by omega), substr, if_pos (Nat.zero_le _), List.drop_zero,
        List.take_append_of_le_length (by simp; omega), show 0 + 1 + g - 0 = g + 1 by omega]
      rfl
    cases hs : search [13, 10] h with
    | none =>
      rw [Option.getD_none, hline _ le_rfl, List.take_length, headLines,
        cutLines_of_search_eq_none hs]
      simp [splitHttpLoop, Nat.add_comm]
    | some q =>
      obtain ⟨y, hy⟩ := ((search_eq_some_iff (by simp)).mp hs).1
      have hq : q + 2 ≤ h.length := search_add_length_le (by simp) hs
      have hx : (c :: h).drop (0 + 1 + q) = 13 :: 10 :: h.drop (q + 2) := by
        rw [Nat.zero_add, Nat.add_comm, List.drop_succ_cons, ← List.drop_drop, ← hy]
        rfl
      rw [Option.getD_some, hline _ (by omega), splitHttpLoop_eq (by omega) hx (by simp),
        headLines, cutLines_of_search_eq_some hs]
      rfl

/-- **What `SplitHttpOfCRLF` computes**: where the first blank line is, and the lines of what
is before it. -/
theorem splitHttpOfCRLF_eq (str : Bytes) :
    SplitHttpOfCRLF str = match find str (bytes "\r\n\r\n") 0 with
      | none => .ok (-1, [])
      | some b => .ok (toInt32 b, headLines (str.take b)) := by
  unfold SplitHttpOfCRLF
  cases hb : find str (bytes "\r\n\r\n") 0 with
  | none => rfl
  | some b =>
    rw [bytes_blank] at hb
    obtain ⟨t, ht⟩ := ((find_eq_some_iff (by simp)).mp hb).2.1
    have hlen := find_add_length_le (by simp) hb
    have hstr : str = str.take b ++ 13 :: 10 :: (13 :: 10 :: t) := by
      conv_lhs => rw [← List.take_append_drop b str, ← ht]
      rfl
    have hloop := splitHttpLoop_zero (str.take b) (13 :: 10 :: t)
    rw [← hstr, List.length_take, min_eq_left (by omega)] at hloop
    simp [hloop]

/-- A head that was split is split in the same way when more bytes come. -/
theorem splitHttpOfCRLF_append {str : Bytes} {pos : ℤ} {out : List Bytes}
    (h : SplitHttpOfCRLF str = .ok (pos, out)) (hpos : pos ≠ -1) (more : Bytes) :
    SplitHttpOfCRLF (str ++ more) = .ok (pos, out) := by
  rw [splitHttpOfCRLF_eq, bytes_blank] at h ⊢
  cases hfind : find str [13, 10, 13, 10] 0 with
  | none =>
    rw [hfind] at h
    cases h
    exact absurd rfl hpos
  | some b =>
    have hle := find_add_length_le (by simp) hfind
    have htake : (str ++ more).take b = str.take b := List.take_append_of_le_length (by omega)
    rw [find_append (by simp) hfind]
    rw [hfind] at h
    exact (congrArg (fun l => (.ok (toInt32 b, headLines l) : Exec (ℤ × List Bytes))) htake).trans h

/-! ### Words -/

/-- A word that ends with a space is cut off. -/
theorem splitSpaceLoop_word {str a t : Bytes} {fuel i : ℕ} {last : Option ℕ} {out : List Bytes}
    (hi : i < 2) (h : str.drop (nextPos last) = a ++ 32 :: t) (ha : a ≠ []) (hs : 32 ∉ a) :
    splitSpaceLoop str (fuel + 1) i last out =
      splitSpaceLoop str fuel (i + 1) (some (nextPos last + a.length)) (out ++ [a]) := by
  have hfind : find str [32] (nextPos last) = some (nextPos last + a.length) :=
    find_of_drop h hs
  have hne : nextPos last + a.length ≠ nextPos last := by
    have := List.length_pos_of_ne_nil ha
    omega
  rw [splitSpaceLoop, if_pos hi, bytes_space, hfind]
  simp only [if_neg hne]
  rw [usub_of_le (by omega), Nat.add_sub_cancel_left,
    substr_of_drop h (le_length_of_drop h (by simp)), Exec.ok_bind]

/-- A space in front of a word is skipped. -/
theorem splitSpaceLoop_skip {str t : Bytes} {fuel i : ℕ} {last : Option ℕ} {out : List Bytes} (hi : i < 2)
    (h : str.drop (nextPos last) = 32 :: t) :
    splitSpaceLoop str (fuel + 1) i last out = splitSpaceLoop str fuel i (some (nextPos last)) out := by
  have hfind : find str [32] (nextPos last) = some (nextPos last) := find_of_drop (a := []) h (by simp)
  rw [splitSpaceLoop, if_pos hi, bytes_space, hfind]
  exact if_pos rfl

/-- So are any number of spaces. -/
theorem splitSpaceLoop_spaces {str t : Bytes} {m i : ℕ} (last : Option ℕ) (hi : i < 2)
    (h : str.drop (nextPos last) = List.replicate m 32 ++ t) (fuel : ℕ) (out : List Bytes) :
    ∃ last', splitSpaceLoop str (fuel + m) i last out = splitSpaceLoop str fuel i last' out ∧
      nextPos last' = nextPos last + m ∧ str.drop (nextPos last') = t := by
  induction m generalizing last with
  | zero => exact ⟨last, rfl, rfl, h⟩
  | succ m ih =>
    rw [List.replicate_succ, List.cons_append] at h
    have hnext : str.drop (nextPos (some (nextPos last))) = List.replicate m 32 ++ t :=
      drop_add_of_drop (a := [32]) h
    obtain ⟨last', hloop, hpos, hdrop⟩ := ih _ hnext
    refine ⟨last', (splitSpaceLoop_skip hi h).trans hloop, ?_, hdrop⟩
    rw [hpos, nextPos]
    omega

/-- The loop on a line that begins with two words, with any number of spaces before each. -/
theorem splitSpaceLoop_two {a b c : Bytes} (ha : a ≠ []) (ha' : 32 ∉ a) (hb : b ≠ []) (hb' : 32 ∉ b)
    {m n fuel : ℕ} (hfuel : m + n + 3 ≤ fuel) :
    splitSpaceLoop (List.replicate m 32 ++ (a ++ 32 :: (List.replicate n 32 ++ (b ++ 32 :: c)))) fuel 0 none [] =
      .ok (some (m + a.length + 1 + n + b.length), [a, b]) := by
  obtain ⟨fuel, rfl⟩ := Nat.exists_eq_add_of_le' hfuel
  rw [show fuel + (m + n + 3) = fuel + 2 + n + 1 + m by omega]
  obtain ⟨last, hloop, hpos, hdrop⟩ := splitSpaceLoop_spaces (i := 0) none (by decide)
    (show (List.replicate m 32 ++ _).drop (nextPos none) = _ from rfl) (fuel + 2 + n + 1) []
  rw [hloop, splitSpaceLoop_word (by decide) hdrop ha ha']
  have hnext := drop_add_of_drop (a := a ++ [32]) (hdrop.trans (List.append_cons a 32 _))
  rw [List.length_append, List.length_singleton, ← Nat.add_assoc] at hnext
  obtain ⟨last', hloop', hpos', hdrop'⟩ := splitSpaceLoop_spaces (i := 1)
    (some (nextPos last + a.length)) (by decide) hnext (fuel + 2) [a]
  rw [List.nil_append, hloop', splitSpaceLoop_word (by decide) hdrop' hb hb', splitSpaceLoop,
    if_neg (by decide), hpos', nextPos, hpos, nextPos, Nat.zero_add]
  rfl

/-- **A line that begins with two words**: they are cut off, and what is behind the space after them is the
third, if there is anything. -/
theorem splitStrOfSpace_spaces {a b : Bytes} (ha : a ≠ []) (ha' : 32 ∉ a) (hb : b ≠ []) (hb' : 32 ∉ b)
    (m n : ℕ) (c : Bytes) :
    SplitStrOfSpace (List.replicate m 32 ++ (a ++ 32 :: (List.replicate n 32 ++ (b ++ 32 :: c)))) =
      .ok (if c = [] then (-1, [a, b]) else (0, [a, b, c])) := by
  have hlen : (List.replicate m 32 ++ (a ++ 32 :: (List.replicate n 32 ++ (b ++ 32 :: c)))).length =
      m + a.length + 1 + n + b.length + 1 + c.length := by
    simp only [List.length_append, List.length_replicate, List.length_cons]
    omega
  rw [SplitStrOfSpace, splitSpaceLoop_two ha ha' hb hb' (by omega), hlen]
  simp only [Exec.ok_bind]
  by_cases hc : c = []
  · rw [if_pos hc, if_pos (by rw [hc, List.length_nil, usub_of_le (by omega)]; omega)]
  · have hpos := List.length_pos_of_ne_nil hc
    have hdrop : (List.replicate m 32 ++ (a ++ 32 :: (List.replicate n 32 ++ (b ++ 32 :: c)))).drop
        (m + a.length + 1 + n + b.length + 1) = c ++ [] := by
      rw [show List.replicate m 32 ++ (a ++ 32 :: (List.replicate n 32 ++ (b ++ 32 :: c))) =
        (List.replicate m 32 ++ (a ++ 32 :: (List.replicate n 32 ++ (b ++ [32])))) ++ c by simp, List.append_nil]
      exact List.drop_left' (by simp; omega)
    have hrest (k : ℕ) : usub (usub (k + 1 + c.length) k) 1 = c.length := by
      rw [usub_of_le (show k ≤ k + 1 + c.length by omega), usub_of_le (by omega)]
      omega
    have hlast : m + a.length + 1 + n + b.length ≠ usub (m + a.length + 1 + n + b.length + 1 + c.length) 1 := by
      rw [usub_of_le (by omega)]
      omega
    rw [if_neg hc, if_neg hlast, hrest, substr_of_drop hdrop (by rw [hlen]; omega)]
    rfl

/-- **A line of three words**, the last of which may contain spaces. -/
theorem splitStrOfSpace_words {a b c : Bytes} (ha : a ≠ []) (ha' : 32 ∉ a) (hb : b ≠ []) (hb' : 32 ∉ b)
    (hc : c ≠ []) : SplitStrOfSpace (a ++ 32 :: (b ++ 32 :: c)) = .ok (0, [a, b, c]) := by
  have hspaces := splitStrOfSpace_spaces ha ha' hb hb' 0 0 c
  rwa [if_neg hc] at hspaces

/-- A line of two words and a space at its end is refused. -/
theorem splitStrOfSpace_two {a b : Bytes} (ha : a ≠ []) (ha' : 32 ∉ a) (hb : b ≠ []) (hb' : 32 ∉ b) :
    SplitStrOfSpace (a ++ 32 :: (b ++ [32])) = .ok (-1, [a, b]) :=
  splitStrOfSpace_spaces ha ha' hb hb' 0 0 []

/-- If the loop does not fail, it cuts off a word next. -/
theorem exists_word {str : Bytes} {fuel i p : ℕ} {last : Option ℕ} {out out' : List Bytes} (hi : i < 2)
    (h : splitSpaceLoop str fuel i last out = .ok (some p, out')) :
    ∃ m w t k fuel', str.drop (nextPos last) = List.replicate m 32 ++ (w ++ 32 :: t) ∧ w ≠ [] ∧ 32 ∉ w ∧
      str.drop (k + 1) = t ∧ splitSpaceLoop str fuel' (i + 1) (some k) (out ++ [w]) = .ok (some p, out') := by
  induction fuel generalizing last with
  | zero => cases h
  | succ fuel ih =>
    by_cases hspace : 32 ∈ str.drop (nextPos last)
    · obtain ⟨w, t, hdrop, hw⟩ := List.eq_append_cons_of_mem hspace
      by_cases hne : w = []
      · subst hne
        have hnext : str.drop (nextPos last + 1) = t := drop_add_of_drop (a := [32]) hdrop
        rw [splitSpaceLoop_skip hi hdrop] at h
        obtain ⟨m, w, t', k, fuel', hdrop', hword⟩ := ih h
        refine ⟨m + 1, w, t', k, fuel', ?_, hword⟩
        rw [hdrop, ← hnext, List.nil_append, List.replicate_succ, List.cons_append, ← hdrop']
        rfl
      · rw [splitSpaceLoop_word hi hdrop hne hw] at h
        refine ⟨0, w, t, _, fuel, hdrop, hne, hw, ?_, h⟩
        rw [← List.drop_drop, ← List.drop_drop, hdrop, List.drop_left]
        rfl
    · rw [splitSpaceLoop, if_pos hi, bytes_space, find_of_drop_notMem rfl hspace] at h
      cases h

/-- The loop cuts off two words at most, and fewer if it fails. -/
theorem length_splitSpaceLoop {str : Bytes} {fuel i : ℕ} {last pos : Option ℕ} {out out' : List Bytes}
    (hi : i ≤ 2) (h : splitSpaceLoop str fuel i last out = .ok (pos, out')) :
    out'.length + i ≤ out.length + 2 := by
  induction fuel generalizing i last out with
  | zero => cases h
  | succ fuel ih =>
    rw [splitSpaceLoop] at h
    split at h
    · split at h
      · cases h
        omega
      · split at h
        · exact ih hi h
        · rw [Exec.bind_eq_ok_iff] at h
          obtain ⟨word, -, h⟩ := h
          have hle := ih (by omega) h
          rw [List.length_append, List.length_singleton] at hle
          omega
    · cases h
      omega

/-- A string of three words: spaces, a word, at least one space, a word, a space, and what is left. -/
structure ThreeWords (str a b c : Bytes) : Prop where
  /-- Between the words there are spaces. -/
  spaces : ∃ m n, str = List.replicate m 32 ++ (a ++ 32 :: (List.replicate n 32 ++ (b ++ 32 :: c)))
  /-- The first word. -/
  first : a ≠ [] ∧ 32 ∉ a
  /-- The second word. -/
  second : b ≠ [] ∧ 32 ∉ b
  /-- Something is left. -/
  rest : c ≠ []

/-- Three words are cut. -/
theorem splitStrOfSpace_of_words {str a b c : Bytes} (h : ThreeWords str a b c) :
    SplitStrOfSpace str = .ok (0, [a, b, c]) := by
  obtain ⟨m, n, rfl⟩ := h.spaces
  rw [splitStrOfSpace_spaces h.first.1 h.first.2 h.second.1 h.second.2 m n c, if_neg h.rest]

/-- **How `SplitStrOfSpace` ends**: with three words, or without a third. -/
theorem splitStrOfSpace_cases {str : Bytes} {code : ℤ} {out : List Bytes}
    (h : SplitStrOfSpace str = .ok (code, out)) :
    (∃ a b c, code = 0 ∧ out = [a, b, c] ∧ ThreeWords str a b c) ∨ code = -1 ∧ out.length < 3 := by
  have hstr := h
  rw [SplitStrOfSpace, Exec.bind_eq_ok_iff] at h
  obtain ⟨⟨pos, words⟩, hloop, h⟩ := h
  have hlen := length_splitSpaceLoop (Nat.zero_le 2) hloop
  rw [List.length_nil] at hlen
  cases pos with
  | none =>
    cases h
    exact .inr ⟨rfl, by omega⟩
  | some p =>
    obtain ⟨m, a, t, k, fuel, hdrop, ha, ha', ht, hloop⟩ := exists_word (by decide) hloop
    obtain ⟨n, b, c, k', fuel', hdrop', hb, hb', -, -⟩ := exists_word (by decide) hloop
    rw [nextPos, ht] at hdrop'
    rw [nextPos, List.drop_zero, hdrop'] at hdrop
    rw [hdrop, splitStrOfSpace_spaces ha ha' hb hb' m n c] at hstr
    by_cases hc : c = []
    · rw [if_pos hc] at hstr
      cases hstr
      exact .inr ⟨rfl, Nat.lt_succ_self 2⟩
    · rw [if_neg hc] at hstr
      cases hstr
      exact .inl ⟨a, b, c, rfl, rfl, ⟨m, n, hdrop⟩, ⟨ha, ha'⟩, ⟨hb, hb'⟩, hc⟩

/-- **What three words are cut from**: they stand there with a space behind the first and the second, which
hold no space, and with nothing but the third behind these. -/
theorem exists_of_splitStrOfSpace {str a b c : Bytes} {code : ℤ}
    (h : SplitStrOfSpace str = .ok (code, [a, b, c])) :
    ∃ s s', str = s ++ (a ++ 32 :: (s' ++ (b ++ 32 :: c))) ∧ (a ≠ [] ∧ 32 ∉ a) ∧ b ≠ [] ∧ 32 ∉ b := by
  obtain ⟨_, _, _, -, hout, hwords⟩ | ⟨-, hlen⟩ := splitStrOfSpace_cases h
  · cases hout
    obtain ⟨m, n, hstr⟩ := hwords.spaces
    exact ⟨_, _, hstr, hwords.first, hwords.second⟩
  · exact absurd hlen (Nat.lt_irrefl 3)

/-! ### Headers -/

/-- A header is read as it is written, as long as its name has no colon with a space behind it. -/
theorem appendHead_eq {key : Bytes} (hkey : search [58, 32] key = none) (value : Bytes)
    (heads : StringMap) :
    AppendHead (key ++ bytes ": " ++ value) heads = .ok (0, heads.insert key value) := by
  have hdrop : (key ++ [58, 32] ++ value).drop 0 = key ++ 58 :: 32 :: value := by simp
  have hvalue : (key ++ [58, 32] ++ value).drop (key.length + 2) = value :=
    List.drop_left' (by simp)
  rw [AppendHead, bytes_colonSpace, find_pair_of_drop (by decide) hdrop, hkey]
  simp only [Option.getD_none, Nat.zero_add]
  rw [substr_of_drop hdrop (Nat.zero_le _), substrFrom_of_drop hvalue (by simp)]
  rfl

/-- A line without a colon with a space behind it is refused. -/
theorem appendHead_of_notFound {str : Bytes} (h : search [58, 32] str = none) (heads : StringMap) :
    AppendHead str heads = .ok (-1, heads) := by
  rw [AppendHead, bytes_colonSpace, find, List.drop_zero, h]
  rfl

end UvCpp.Http
