import UvCpp.Http.HttpCommon

/-!
# Messages

Requests and responses are messages: a first line, headers and a content. What the classes
`Request` and `Response` do alike is here: writing a message (`Message.pack`), and reading
one (`Message.unpack`), which takes the reader of the first line as an argument.

`unpack_pack` is the round trip, up to the first line: a message whose lines hold no CR, and
whose header names hold no colon with a space behind it, is read as it was written.
-/

namespace UvCpp.Http

open UvCpp.Cpp

/-- The data of a message, with what its class keeps of the first line. -/
@[ext]
structure Message (Line : Type) where
  /-- The first line. -/
  line : Line
  /-- The headers. -/
  heads_ : StringMap
  /-- The content. -/
  content_ : Bytes

variable {Line : Type}

/-- The loop that reads the headers, and stops at one it cannot read. -/
def appendHeads : List Bytes → StringMap → Exec (ℤ × StringMap)
  | [], heads => .ok (0, heads)
  | str :: headList, heads => do
    let (rst, heads) ← AppendHead str heads
    if rst ≠ 0 then .ok (rst, heads) else appendHeads headList heads

namespace Message

/-- `pack`, from the text of the first line. -/
def pack (line : Bytes) (m : Message Line) : Bytes :=
  let data := line ++ Crlf
  let data := m.heads_.toList.foldl (fun data it => data ++ it.1 ++ bytes ": " ++ it.2 ++ Crlf) data
  let data := data ++ Crlf
  data ++ m.content_

/-- `unpack`, with the function that reads the first line. -/
def unpack (parse : Line → Bytes → Exec (ℤ × Line)) (m : Message Line) (data : Bytes) :
    Exec (ParseResult × Message Line) := do
  let (pos, headList) ← SplitHttpOfCRLF data
  if pos = -1 then .ok (.Fail, m)
  else
    match headList with
    | [] => .error .undefined
    | first :: headList => do
      let (rst, line) ← parse m.line first
      if rst ≠ 0 then .ok (.Error, { m with line })
      else do
        let (rst, heads) ← appendHeads headList m.heads_
        if rst ≠ 0 then .ok (.Error, { m with line, heads_ := heads })
        else do
          let start ← addInt pos 4
          let content ← substrFrom data (toUInt64 start)
          .ok (.Success, ⟨line, heads, content⟩)

/-- The value of `Content-Length` or, if there is none, of `content-length`. -/
def contentLength (m : Message Line) : Option Bytes :=
  match m.heads_[bytes "Content-Length"]? with
  | some value => some value
  | none => m.heads_[bytes "content-length"]?

end Message

/-! ### Heads -/

/-- Lines, with CRLF between them. -/
def joinLines (line : Bytes) (lines : List Bytes) : Bytes := line ++ lines.flatMap fun l => 13 :: 10 :: l

theorem joinLines_cons (line l : Bytes) (lines : List Bytes) :
    joinLines line (l :: lines) = line ++ 13 :: 10 :: joinLines l lines := by
  simp [joinLines]

theorem length_joinLines (line : Bytes) (lines : List Bytes) :
    (joinLines line lines).length = line.length + (lines.map fun l => l.length + 2).sum := by
  rw [joinLines, List.length_append, List.length_flatMap]
  rfl

/-- What was cut into lines is joined by them. -/
theorem joinLines_of_cutLines {h l : Bytes} {ls : List Bytes} (hcut : cutLines h = l :: ls) :
    joinLines l ls = h := by
  induction hn : h.length using Nat.strongRecOn generalizing h l ls with
  | ind n ih =>
    cases hs : search [13, 10] h with
    | none =>
      rw [cutLines_of_search_eq_none hs, List.cons.injEq] at hcut
      obtain ⟨rfl, rfl⟩ := hcut
      exact List.append_nil h
    | some p =>
      obtain ⟨⟨u, hu⟩, -⟩ := (search_eq_some_iff (by simp)).mp hs
      have hlen := congrArg List.length hu
      simp only [List.length_append, List.length_drop, List.length_cons, List.length_nil] at hlen
      have hrest : h.drop (p + 2) = u := by
        rw [← List.drop_drop, ← hu]
        rfl
      obtain ⟨l', ls', hcut'⟩ := List.exists_cons_of_ne_nil (cutLines_ne_nil u)
      rw [cutLines_of_search_eq_some hs, hrest, hcut', List.cons.injEq] at hcut
      obtain ⟨rfl, rfl⟩ := hcut
      rw [joinLines_cons, ih u.length (by omega) hcut' rfl]
      exact (congrArg (h.take p ++ ·) hu).trans (List.take_append_drop p h)

theorem joinLines_of_headLines {h first : Bytes} {rest : List Bytes} (hlines : headLines h = first :: rest) :
    joinLines first rest = h := by
  cases h with
  | nil => cases hlines
  | cons c t =>
    obtain ⟨l, ls, hcut⟩ := List.exists_cons_of_ne_nil (cutLines_ne_nil t)
    rw [headLines, hcut, List.modifyHead_cons, List.cons.injEq] at hlines
    obtain ⟨rfl, rfl⟩ := hlines
    exact congrArg (c :: ·) (joinLines_of_cutLines hcut)

/-- **What was split**: the lines, and then a blank line. -/
theorem isPrefix_of_split {data first : Bytes} {pos : ℤ} {rest : List Bytes}
    (h : SplitHttpOfCRLF data = .ok (pos, first :: rest)) : joinLines first rest ++ [13, 10, 13, 10] <+: data ∧
      search [13, 10] first.tail = none ∧ ∀ l ∈ rest, search [13, 10] l = none := by
  rw [splitHttpOfCRLF_eq, bytes_blank] at h
  cases hfind : find data [13, 10, 13, 10] 0 with
  | none =>
    rw [hfind] at h
    cases h
  | some b =>
    rw [hfind, Except.ok.injEq, Prod.mk.injEq] at h
    refine ⟨?_, search_of_headLines h.2⟩
    obtain ⟨u, hu⟩ := ((find_eq_some_iff (by simp)).mp hfind).2.1
    refine ⟨u, ?_⟩
    rw [joinLines_of_headLines h.2, List.append_assoc, hu, List.take_append_drop]

/-- Behind a line a CR follows. -/
theorem exists_joined (lines : List Bytes) (t : Bytes) :
    ∃ u, (lines.flatMap fun l => 13 :: 10 :: l) ++ 13 :: 10 :: t = 13 :: u := by
  cases lines with
  | nil => exact ⟨_, rfl⟩
  | cons l lines => exact ⟨_, rfl⟩

/-- Joined lines are cut where they were joined. -/
theorem cutLines_joinLines {line : Bytes} {lines : List Bytes} (hline : search [13, 10] line = none)
    (hlines : ∀ l ∈ lines, search [13, 10] l = none) : cutLines (joinLines line lines) = line :: lines := by
  induction lines generalizing line with
  | nil =>
    rw [show joinLines line [] = line from List.append_nil line]
    exact cutLines_of_search_eq_none hline
  | cons l lines ih =>
    have hsearch : search [13, 10] (joinLines line (l :: lines)) = some line.length := by
      rw [joinLines_cons, search_pair_append (by decide), hline]
      rfl
    rw [cutLines_of_search_eq_some hsearch, joinLines_cons, List.take_left, ← List.drop_drop,
      List.drop_left]
    simp only [List.drop_succ_cons, List.drop_zero]
    rw [ih (hlines l List.mem_cons_self) fun x hx => hlines x (List.mem_cons_of_mem l hx)]

/-- A line does not begin with CRLF, even if it ends with a CR. -/
theorem not_isPrefix_of_line {l t : Bytes} (hne : l ≠ []) (hl : search [13, 10] l = none)
    (ht : t = [] ∨ ∃ u, t = 13 :: u) : ¬ [13, 10] <+: l ++ t := by
  intro hpre
  match l with
  | [] => exact hne rfl
  | [c] =>
    obtain rfl | ⟨u, rfl⟩ := ht
    · simpa using hpre.length_le
    · simp [List.cons_prefix_cons] at hpre
  | c :: d :: l =>
    simp only [List.cons_append, List.cons_prefix_cons, List.nil_prefix, and_true] at hpre
    obtain ⟨rfl, rfl⟩ := hpre
    have h0 : search [13, 10] (13 :: 10 :: l) = some 0 := search_append_self [13, 10] l
    rw [h0] at hl
    cases hl

/-- The first blank line behind joined lines is the one that follows them. -/
theorem search_blank_joinLines {line : Bytes} {lines : List Bytes} (hline : search [13, 10] line = none)
    (hlines : ∀ l ∈ lines, search [13, 10] l = none ∧ l ≠ []) (t : Bytes) :
    search [13, 10, 13, 10] (joinLines line lines ++ 13 :: 10 :: 13 :: 10 :: t) =
      some (joinLines line lines).length := by
  induction lines generalizing line with
  | nil =>
    have h0 : search [13, 10, 13, 10] (13 :: 10 :: 13 :: 10 :: t) = some 0 :=
      search_append_self [13, 10, 13, 10] t
    rw [show joinLines line [] = line from List.append_nil line, search_append_of_pair (by decide) hline, h0]
    rfl
  | cons l lines ih =>
    obtain ⟨hl, hne⟩ := hlines l List.mem_cons_self
    have ih := ih hl fun x hx => hlines x (List.mem_cons_of_mem l hx)
    have hhead : ¬ [13, 10] <+: joinLines l lines ++ 13 :: 10 :: 13 :: 10 :: t := by
      rw [joinLines, List.append_assoc]
      exact not_isPrefix_of_line hne hl (.inr (exists_joined lines _))
    rw [joinLines_cons, List.append_assoc, List.cons_append, List.cons_append,
      search_append_of_pair (by decide) hline, search_cons_of_not_isPrefix, search_cons_of_not_isPrefix, ih]
    · simp
    · simp [List.cons_prefix_cons]
    · rw [List.cons_prefix_cons, List.cons_prefix_cons]
      exact fun h => hhead h.2.2

/-- **A head is split into its lines.** -/
theorem splitHttpOfCRLF_joinLines {line : Bytes} {lines : List Bytes} (hline : search [13, 10] line = none)
    (hne : line ≠ []) (hlines : ∀ l ∈ lines, search [13, 10] l = none ∧ l ≠ []) (t : Bytes) :
    SplitHttpOfCRLF (joinLines line lines ++ 13 :: 10 :: 13 :: 10 :: t) =
      .ok (toInt32 (joinLines line lines).length, line :: lines) := by
  have hpre : ¬ [13, 10] <+: joinLines line lines := by
    rw [joinLines]
    cases lines with
    | nil => exact not_isPrefix_of_line hne hline (.inl rfl)
    | cons l lines => exact not_isPrefix_of_line hne hline (.inr ⟨_, rfl⟩)
  have hnil : joinLines line lines ≠ [] := by simp [joinLines, hne]
  rw [splitHttpOfCRLF_eq, bytes_blank, find, List.drop_zero, search_blank_joinLines hline hlines]
  simp only [Option.map_some, Nat.zero_add, List.take_left]
  rw [headLines_of_not_isPrefix hnil hpre, cutLines_joinLines hline fun l hl => (hlines l hl).1]

/-! ### Headers -/

/-- A header, as it is written. -/
def headerLine (it : Bytes × Bytes) : Bytes := it.1 ++ bytes ": " ++ it.2

/-- The headers of a message can be read back: no CR or LF in them, and no colon with a space
behind it in a name. -/
def PlainHeads (heads : StringMap) : Prop :=
  ∀ it ∈ heads.toList, search [58, 32] it.1 = none ∧ (13 ∉ it.1 ∧ 10 ∉ it.1) ∧ 13 ∉ it.2 ∧ 10 ∉ it.2

instance (heads : StringMap) : Decidable (PlainHeads heads) :=
  inferInstanceAs (Decidable (∀ it ∈ heads.toList, _))

/-- Reading header lines puts the headers in the map, one by one. -/
theorem appendHeads_headerLines {its : List (Bytes × Bytes)} (h : ∀ it ∈ its, search [58, 32] it.1 = none)
    (heads : StringMap) :
    appendHeads (its.map headerLine) heads = .ok (0, its.foldl (fun m it => m.insert it.1 it.2) heads) := by
  induction its generalizing heads with
  | nil => rfl
  | cons it its ih =>
    rw [List.map_cons, appendHeads, headerLine, appendHead_eq (h it List.mem_cons_self)]
    exact ih (fun x hx => h x (List.mem_cons_of_mem it hx)) _

/-- A line with a colon and a space behind it is a header; the first such colon ends its name. -/
theorem exists_headerLine {l : Bytes} (h : search [58, 32] l ≠ none) :
    ∃ it, headerLine it = l ∧ search [58, 32] it.1 = none := by
  obtain ⟨k, hk⟩ := Option.ne_none_iff_exists'.mp h
  obtain ⟨value, hvalue⟩ := ((search_eq_some_iff (by simp)).mp hk).1
  refine ⟨(l.take k, value), ?_, ?_⟩
  · rw [headerLine, bytes_colonSpace, List.append_assoc, hvalue, List.take_append_drop]
  · exact search_eq_none_of_isPrefix (by simp) (List.take_prefix k l) hk
      (Nat.lt_of_le_of_lt (List.length_take_le k l) (by simp))

/-- There is a colon with a space behind it in every header. -/
theorem search_headerLine_ne_none (it : Bytes × Bytes) : search [58, 32] (headerLine it) ≠ none := by
  rw [headerLine, bytes_colonSpace, List.append_assoc]
  exact Option.ne_none_iff_exists'.mpr ⟨_, search_pair_append (by decide) it.1 it.2⟩

/-- The name of a header can be told from its value. -/
theorem headerLine_injective {it it' : Bytes × Bytes} (h : search [58, 32] it.1 = none)
    (h' : search [58, 32] it'.1 = none) (heq : headerLine it = headerLine it') : it = it' := by
  simp only [headerLine, bytes_colonSpace, List.append_assoc, List.cons_append, List.nil_append] at heq
  have hlen := search_pair_append (by decide : (58 : UInt8) ≠ 32) it.1 it.2
  rw [heq, search_pair_append (by decide), h, h', Option.getD_none, Option.getD_none, Option.some.injEq] at hlen
  obtain ⟨hname, hvalue⟩ := List.append_inj heq hlen.symm
  simp only [List.cons.injEq, true_and] at hvalue
  exact Prod.ext hname hvalue

/-- Lines that are all headers are the lines of a list of headers. -/
theorem exists_headerLines {lines : List Bytes} (h : ∀ l ∈ lines, search [58, 32] l ≠ none) :
    ∃ its : List (Bytes × Bytes), its.map headerLine = lines ∧ ∀ it ∈ its, search [58, 32] it.1 = none := by
  induction lines with
  | nil => exact ⟨[], rfl, by simp⟩
  | cons l lines ih =>
    obtain ⟨it, rfl, hit⟩ := exists_headerLine (h l List.mem_cons_self)
    obtain ⟨its, rfl, hits⟩ := ih fun x hx => h x (List.mem_cons_of_mem _ hx)
    exact ⟨it :: its, rfl, List.forall_mem_cons.mpr ⟨hit, hits⟩⟩

/-- Reading stops at a line that is no header. -/
theorem appendHeads_of_notFound {lines : List Bytes} {l : Bytes} (hl : l ∈ lines)
    (h : search [58, 32] l = none) (heads : StringMap) :
    ∃ heads', appendHeads lines heads = .ok (-1, heads') := by
  induction lines generalizing heads with
  | nil => cases hl
  | cons l' lines ih =>
    rw [appendHeads]
    by_cases hnone : search [58, 32] l' = none
    · rw [appendHead_of_notFound hnone]
      exact ⟨heads, rfl⟩
    · have hmem : l ∈ lines := (List.mem_cons.mp hl).resolve_left fun heq => hnone (heq ▸ h)
      obtain ⟨it, rfl, hit⟩ := exists_headerLine hnone
      rw [headerLine, appendHead_eq hit]
      exact ih hmem _

/-- **What the lines of the headers are**, if they are read. -/
theorem appendHeads_eq_zero_iff {lines : List Bytes} {heads heads' : StringMap} :
    appendHeads lines heads = .ok (0, heads') ↔
      ∃ its : List (Bytes × Bytes), its.map headerLine = lines ∧ (∀ it ∈ its, search [58, 32] it.1 = none) ∧
        heads' = its.foldl (fun m it => m.insert it.1 it.2) heads := by
  constructor
  · intro h
    have hlines : ∀ l ∈ lines, search [58, 32] l ≠ none := by
      intro l hl hnone
      obtain ⟨heads'', hrefused⟩ := appendHeads_of_notFound hl hnone heads
      rw [hrefused] at h
      simp at h
    obtain ⟨its, rfl, hits⟩ := exists_headerLines hlines
    rw [appendHeads_headerLines hits, Except.ok.injEq, Prod.mk.injEq] at h
    exact ⟨its, rfl, hits, h.2.symm⟩
  · rintro ⟨its, rfl, hits, rfl⟩
    exact appendHeads_headerLines hits heads

/-- A map is its entries, put into an empty map. -/
theorem foldl_insert_toList (m : StringMap) :
    m.toList.foldl (fun m it => m.insert it.1 it.2) (∅ : StringMap) = m := by
  rw [← Std.ExtTreeMap.ofList_eq_foldl]
  refine Std.ExtTreeMap.ext_getElem? fun {k} => ?_
  cases hk : m[k]? with
  | some v =>
    exact Std.ExtTreeMap.getElem?_ofList_of_mem Std.ReflCmp.compare_self
      Std.ExtTreeMap.distinct_keys_toList (Std.ExtTreeMap.mem_toList_iff_getElem?_eq_some.mpr hk)
  | none =>
    refine Std.ExtTreeMap.getElem?_ofList_of_contains_eq_false ?_
    rw [Std.ExtTreeMap.map_fst_toList_eq_keys, ← Bool.not_eq_true, List.contains_iff_mem,
      Std.ExtTreeMap.mem_keys, ← Std.ExtTreeMap.isSome_getElem?_iff_mem, hk]
    simp

/-- **What putting entries into a map does to a key**: it gets the value that was put in last, whatever the
map was, or keeps the one it has. -/
theorem getElem?_foldl_insert (its : List (Bytes × Bytes)) (k : Bytes) :
    (∃ v, (k, v) ∈ its ∧ ∀ m : StringMap, (its.foldl (fun m it => m.insert it.1 it.2) m)[k]? = some v) ∨
      (∀ v, (k, v) ∉ its) ∧ ∀ m : StringMap, (its.foldl (fun m it => m.insert it.1 it.2) m)[k]? = m[k]? := by
  induction its using List.reverseRecOn with
  | nil => exact .inr ⟨by simp, fun _ => rfl⟩
  | append_singleton its it ih =>
    obtain ⟨key, value⟩ := it
    simp only [List.foldl_append, List.foldl_cons, List.foldl_nil, Std.ExtTreeMap.getElem?_insert,
      Std.LawfulEqCmp.compare_eq_iff_eq]
    by_cases hk : key = k
    · subst hk
      exact .inl ⟨value, by simp, by simp⟩
    · simp only [if_neg hk, List.mem_append, List.mem_singleton, Prod.mk.injEq, Ne.symm hk, false_and, or_false]
      exact ih

/-- The entries of a map into which others were put. -/
theorem mem_of_mem_toList_foldl {its : List (Bytes × Bytes)} {it : Bytes × Bytes}
    (h : it ∈ (its.foldl (fun m it => m.insert it.1 it.2) (∅ : StringMap)).toList) : it ∈ its := by
  obtain ⟨k, v⟩ := it
  rw [Std.ExtTreeMap.mem_toList_iff_getElem?_eq_some] at h
  obtain ⟨v', hv', hget⟩ | ⟨-, hget⟩ := getElem?_foldl_insert its k
  · rw [hget, Option.some.injEq] at h
    exact h ▸ hv'
  · rw [hget, Std.ExtTreeMap.getElem?_empty] at h
    cases h

/-- What was in a map before makes no difference exactly if all of it is put in again. -/
theorem foldl_insert_eq_iff {its : List (Bytes × Bytes)} {m : StringMap} :
    its.foldl (fun m it => m.insert it.1 it.2) m = its.foldl (fun m it => m.insert it.1 it.2) ∅ ↔
      ∀ k ∈ m, ∃ v, (k, v) ∈ its := by
  constructor
  · intro heq k hk
    obtain ⟨v, hv, -⟩ | ⟨-, hget⟩ := getElem?_foldl_insert its k
    · exact ⟨v, hv⟩
    · have hm := hget m
      rw [heq, hget, Std.ExtTreeMap.getElem?_empty] at hm
      rw [← Std.ExtTreeMap.isSome_getElem?_iff_mem, ← hm] at hk
      cases hk
  · intro hkeys
    refine Std.ExtTreeMap.ext_getElem? fun {k} => ?_
    obtain ⟨v, -, hget⟩ | ⟨hnone, hget⟩ := getElem?_foldl_insert its k
    · rw [hget, hget]
    · have hk : m[k]? = none := by
        rw [← Option.not_isSome_iff_eq_none, Std.ExtTreeMap.isSome_getElem?_iff_mem]
        intro hk
        obtain ⟨v, hv⟩ := hkeys k hk
        exact hnone v hv
      rw [hget, hget, hk, Std.ExtTreeMap.getElem?_empty]

/-- Such headers are lines. -/
theorem headerLine_plain {heads : StringMap} (h : PlainHeads heads) :
    ∀ it ∈ heads.toList, search [58, 32] it.1 = none ∧ search [13, 10] (headerLine it) = none := by
  intro it hit
  obtain ⟨hkey, ⟨h1, -⟩, h2, -⟩ := h it hit
  refine ⟨hkey, search_eq_none ?_⟩
  simp [headerLine, h1, h2]

/-! ### The round trip -/

namespace Message

/-- The text of a message before its content, blank line included. -/
def head (line : Bytes) (m : Message Line) : Bytes :=
  joinLines line (m.heads_.toList.map headerLine) ++ [13, 10, 13, 10]

theorem pack_eq (line : Bytes) (m : Message Line) : m.pack line = m.head line ++ m.content_ := by
  have hfold (its : List (Bytes × Bytes)) (data : Bytes) :
      its.foldl (fun data it => data ++ it.1 ++ bytes ": " ++ it.2 ++ Crlf) (data ++ Crlf) =
        joinLines data (its.map headerLine) ++ Crlf := by
    induction its generalizing data with
    | nil => simp [joinLines]
    | cons it its ih =>
      have hdata : data ++ Crlf ++ it.1 ++ bytes ": " ++ it.2 = data ++ Crlf ++ headerLine it := by
        simp only [headerLine, List.append_assoc]
      rw [List.foldl_cons, hdata, ih, List.map_cons, joinLines_cons]
      simp [joinLines, Crlf]
  rw [pack]
  simp only [hfold, head]
  simp [Crlf]

/-- A message whose first line holds no CR and whose headers can be read back. -/
structure Readable (line : Bytes) (m : Message Line) : Prop where
  /-- The first line is one line. -/
  oneLine : 13 ∉ line
  /-- It is not empty. -/
  nonempty : line ≠ []
  /-- The headers can be read back. -/
  plainHeads : PlainHeads m.heads_
  /-- The content begins at a place that is an `int`. -/
  short : (m.head line).length < 2 ^ 31

/-- What `unpack` makes of the lines of a head: the return code, and the message. -/
def readHead (parse : Line → Bytes → Exec (ℤ × Line)) (m : Message Line) (first : Bytes)
    (headList : List Bytes) : Exec (ℤ × Message Line) := do
  let (rst, line) ← parse m.line first
  if rst ≠ 0 then .ok (rst, { m with line })
  else do
    let (rst, heads) ← appendHeads headList m.heads_
    .ok (rst, { m with line, heads_ := heads })

/-- `unpack` reads the lines, and then takes the content. -/
theorem unpack_of_split {parse : Line → Bytes → Exec (ℤ × Line)} {data first : Bytes} {pos : ℤ}
    {headList : List Bytes} (h : SplitHttpOfCRLF data = .ok (pos, first :: headList)) (hpos : pos ≠ -1)
    (m : Message Line) : unpack parse m data = (do
      let (rst, m') ← readHead parse m first headList
      if rst ≠ 0 then .ok (.Error, m')
      else do
        let start ← addInt pos 4
        let content ← substrFrom data (toUInt64 start)
        .ok (.Success, { m' with content_ := content })) := by
  rw [unpack, h, Exec.ok_bind, readHead]
  simp only [if_neg hpos]
  cases parse m.line first with
  | error e => rfl
  | ok result =>
    obtain ⟨rst, line⟩ := result
    simp only [Exec.ok_bind]
    by_cases hrst : rst ≠ 0
    · simp only [if_pos hrst, Exec.ok_bind]
    · simp only [if_neg hrst]
      cases appendHeads headList m.heads_ with
      | error e => rfl
      | ok result => rfl

/-- A message whose lines stay apart when it is written: no CRLF in them, and no colon with a space behind
it in the name of a header. -/
structure Legible (line : Bytes) (m : Message Line) : Prop where
  /-- The first line is one line. -/
  oneLine : search [13, 10] line = none
  /-- It is not empty. -/
  nonempty : line ≠ []
  /-- So are the headers, and their names can be told from their values. -/
  heads : ∀ it ∈ m.heads_.toList, search [58, 32] it.1 = none ∧ search [13, 10] (headerLine it) = none

theorem Readable.legible {line : Bytes} {m : Message Line} (h : m.Readable line) : m.Legible line :=
  ⟨search_eq_none h.oneLine, h.nonempty, headerLine_plain h.plainHeads⟩

theorem Legible.lines {line : Bytes} {m : Message Line} (h : m.Legible line) :
    ∀ l ∈ m.heads_.toList.map headerLine, search [13, 10] l = none ∧ l ≠ [] := by
  intro l hl
  obtain ⟨it, hit, rfl⟩ := List.mem_map.mp hl
  exact ⟨(h.heads it hit).2, by simp [headerLine]⟩

/-- It is split where it was put together. -/
theorem Legible.split_pack {line : Bytes} {m : Message Line} (h : m.Legible line) :
    SplitHttpOfCRLF (m.pack line) =
      .ok (toInt32 (joinLines line (m.heads_.toList.map headerLine)).length,
        line :: m.heads_.toList.map headerLine) := by
  rw [pack_eq, head, List.append_assoc]
  exact splitHttpOfCRLF_joinLines h.oneLine h.nonempty h.lines m.content_

/-- **The round trip, up to the first line**: if that is read, so is the message. -/
theorem Legible.unpack_pack {line : Bytes} {m : Message Line} (h : m.Legible line)
    (hshort : (m.head line).length < 2 ^ 31) {parse : Line → Bytes → Exec (ℤ × Line)} {line₀ line₁ : Line}
    {rst : ℤ} (hparse : parse line₀ line = .ok (rst, line₁)) (content : Bytes) :
    unpack parse ⟨line₀, ∅, content⟩ (m.pack line) =
      if rst ≠ 0 then .ok (.Error, ⟨line₁, ∅, content⟩)
      else .ok (.Success, ⟨line₁, m.heads_, m.content_⟩) := by
  have hsplit := h.split_pack
  have hpack := pack_eq line m
  rw [head] at hshort hpack
  set joined := joinLines line (m.heads_.toList.map headerLine) with hj
  have hshort : joined.length + 4 < 2 ^ 31 := by simpa using hshort
  have hpos : toInt32 joined.length = joined.length := toInt32_of_lt (by omega)
  have hstart : addInt joined.length 4 = .ok ((joined.length + 4 : ℕ) : ℤ) := addInt_natCast hshort
  have hcontent : substrFrom (m.pack line) (joined.length + 4) = .ok m.content_ := by
    rw [hpack, substrFrom, if_pos (by simp), List.drop_left' (by simp)]
  have happend := appendHeads_headerLines (fun it hit => (h.heads it hit).1) (∅ : StringMap)
  rw [foldl_insert_toList] at happend
  rw [hpos] at hsplit
  rw [unpack_of_split hsplit (by omega), readHead]
  by_cases hrst : rst = 0
  · simp only [hparse, hrst, happend, hstart, toUInt64_natCast, hcontent, ne_eq, not_true_eq_false, if_false,
      Exec.ok_bind]
  · simp only [hparse, ne_eq, hrst, not_false_eq_true, if_true, Exec.ok_bind]

/-- The round trip of a message whose lines hold no CR. -/
theorem unpack_pack {parse : Line → Bytes → Exec (ℤ × Line)} {line : Bytes} {m : Message Line}
    (h : m.Readable line) {line₀ line₁ : Line} {rst : ℤ} (hparse : parse line₀ line = .ok (rst, line₁))
    (content : Bytes) :
    unpack parse ⟨line₀, ∅, content⟩ (m.pack line) =
      if rst ≠ 0 then .ok (.Error, ⟨line₁, ∅, content⟩)
      else .ok (.Success, ⟨line₁, m.heads_, m.content_⟩) := h.legible.unpack_pack h.short hparse content

/-- Where a head of `2³¹` bytes or more ends is negative as an `int`, and reading the content
from there throws. -/
theorem unpack_pack_long {parse : Line → Bytes → Exec (ℤ × Line)} {line : Bytes} {m : Message Line}
    (hline : 13 ∉ line) (hne : line ≠ []) (hheads : PlainHeads m.heads_)
    (hlong : 2 ^ 31 + 4 ≤ (m.head line).length) (hlong' : (m.pack line).length < 2 ^ 32)
    {line₀ line₁ : Line} (hparse : parse line₀ line = .ok (0, line₁)) (content : Bytes) :
    unpack parse ⟨line₀, ∅, content⟩ (m.pack line) = .error .thrown := by
  have hlegible : m.Legible line := ⟨search_eq_none hline, hne, headerLine_plain hheads⟩
  have hsplit := hlegible.split_pack
  have hpack := pack_eq line m
  rw [head] at hlong hpack
  set joined := joinLines line (m.heads_.toList.map headerLine) with hj
  have hlen : (m.pack line).length = joined.length + 4 + m.content_.length := by
    rw [hpack, List.length_append, List.length_append]
    rfl
  have hlong : 2 ^ 31 ≤ joined.length := by simpa using hlong
  rw [toInt32_of_ge hlong (by omega)] at hsplit
  have happend := appendHeads_headerLines (fun it hit => (hheads it hit).1) (∅ : StringMap)
  have hstart : addInt ((joined.length : ℤ) - 2 ^ 32) 4 = .ok ((joined.length : ℤ) - 2 ^ 32 + 4) :=
    if_pos (by constructor <;> omega)
  have hcontent : substrFrom (m.pack line) (toUInt64 ((joined.length : ℤ) - 2 ^ 32 + 4)) =
      .error .thrown := by
    apply if_neg
    rw [toUInt64]
    split <;> omega
  rw [unpack_of_split hsplit (by omega), readHead]
  simp only [Exec.ok_bind, hparse, happend, hstart, hcontent, ne_eq, not_true_eq_false, if_false,
    Exec.error_bind]

/-- **Before its head is whole, a message cannot be read.** -/
theorem Legible.unpack_of_isPrefix {line data : Bytes} {m : Message Line} (h : m.Legible line)
    (hdata : data <+: m.pack line) (hlt : data.length < (m.head line).length)
    (parse : Line → Bytes → Exec (ℤ × Line)) (m₀ : Message Line) :
    unpack parse m₀ data = .ok (.Fail, m₀) := by
  have hsearch := search_blank_joinLines h.oneLine h.lines m.content_
  have hpack : joinLines line (m.heads_.toList.map headerLine) ++ 13 :: 10 :: 13 :: 10 :: m.content_ =
      m.pack line := by
    rw [pack_eq, head, List.append_assoc]
    rfl
  rw [hpack] at hsearch
  rw [head, List.length_append] at hlt
  have hfind : find data [13, 10, 13, 10] 0 = none := by
    rw [find, List.drop_zero, search_eq_none_of_isPrefix (by simp) hdata hsearch hlt]
    rfl
  rw [unpack, splitHttpOfCRLF_eq, bytes_blank, hfind]
  simp

/-- **The ways in which `unpack` can end.** -/
theorem unpack_cases {parse : Line → Bytes → Exec (ℤ × Line)} {m m' : Message Line} {data : Bytes}
    {rst : ParseResult} (h : unpack parse m data = .ok (rst, m')) :
    (rst = .Fail ∧ m' = m ∧ ∃ headList, SplitHttpOfCRLF data = .ok (-1, headList)) ∨
      ∃ pos first headList, SplitHttpOfCRLF data = .ok (pos, first :: headList) ∧ pos ≠ -1 ∧
        ((∃ code, code ≠ 0 ∧ readHead parse m first headList = .ok (code, m') ∧ rst = .Error) ∨
          ∃ m₁ start content, readHead parse m first headList = .ok (0, m₁) ∧ addInt pos 4 = .ok start ∧
            substrFrom data (toUInt64 start) = .ok content ∧ rst = .Success ∧
              m' = { m₁ with content_ := content }) := by
  cases hsplit : SplitHttpOfCRLF data with
  | error e =>
    rw [unpack, hsplit] at h
    cases h
  | ok split =>
    obtain ⟨pos, headList⟩ := split
    by_cases hpos : pos = -1
    · subst hpos
      rw [unpack, hsplit] at h
      cases h
      exact .inl ⟨rfl, rfl, headList, rfl⟩
    cases headList with
    | nil =>
      rw [unpack, hsplit] at h
      simp [hpos] at h
    | cons first headList =>
      refine .inr ⟨pos, first, headList, rfl, hpos, ?_⟩
      rw [unpack_of_split hsplit hpos, Exec.bind_eq_ok_iff] at h
      obtain ⟨⟨code, m₁⟩, hread, h⟩ := h
      simp only at h
      split at h
      · next hcode =>
        cases h
        exact .inl ⟨code, hcode, hread, rfl⟩
      · next hcode =>
        rw [not_not] at hcode
        subst hcode
        simp only [Exec.bind_eq_ok_iff, Except.ok.injEq, Prod.mk.injEq] at h
        obtain ⟨start, hstart, content, hcontent, hrst, hm⟩ := h
        exact .inr ⟨m₁, start, content, hread, hstart, hcontent, hrst.symm, hm.symm⟩

/-- What there is in a string that is read. -/
theorem unpack_eq_success_iff {parse : Line → Bytes → Exec (ℤ × Line)} {m₀ m : Message Line}
    {data : Bytes} : unpack parse m₀ data = .ok (.Success, m) ↔
      ∃ pos first headList start, SplitHttpOfCRLF data = .ok (pos, first :: headList) ∧ pos ≠ -1 ∧
        parse m₀.line first = .ok (0, m.line) ∧ appendHeads headList m₀.heads_ = .ok (0, m.heads_) ∧
        addInt pos 4 = .ok start ∧ substrFrom data (toUInt64 start) = .ok m.content_ := by
  constructor
  · intro h
    rw [unpack] at h
    simp only [Exec.bind_eq_ok_iff, Prod.exists] at h
    obtain ⟨pos, headList, hsplit, h⟩ := h
    split at h
    · simp at h
    next hpos =>
    cases headList with
    | nil => simp at h
    | cons first headList =>
      simp only [Exec.bind_eq_ok_iff, Prod.exists] at h
      obtain ⟨rst, line, hparse, h⟩ := h
      split at h
      · simp at h
      next hrst =>
      simp only [Exec.bind_eq_ok_iff, Prod.exists] at h
      obtain ⟨rst', heads, happend, h⟩ := h
      split at h
      · simp at h
      next hrst' =>
      simp only [Exec.bind_eq_ok_iff, Except.ok.injEq, Prod.mk.injEq, true_and] at h
      obtain ⟨start, hstart, content, hcontent, rfl⟩ := h
      rw [not_not] at hrst hrst'
      subst hrst hrst'
      exact ⟨pos, first, headList, start, hsplit, hpos, hparse, happend, hstart, hcontent⟩
  · rintro ⟨pos, first, headList, start, hsplit, hpos, hparse, happend, hstart, hcontent⟩
    simp only [unpack, hsplit, Exec.ok_bind, if_neg hpos, hparse, happend, hstart, hcontent, ne_eq,
      not_true_eq_false, if_false]

/-- **What a message has read, it reads again**: the lines are those of the first line and of headers, and a
message that was used before puts the headers into the map it has. -/
theorem exists_lines_of_unpack {parse : Line → Bytes → Exec (ℤ × Line)} {m₀ m : Message Line} {data : Bytes}
    (h : unpack parse m₀ data = .ok (.Success, m)) : ∃ pos first, ∃ its : List (Bytes × Bytes),
      SplitHttpOfCRLF data = .ok (pos, first :: its.map headerLine) ∧
      (∀ it ∈ its, search [58, 32] it.1 = none) ∧ parse m₀.line first = .ok (0, m.line) ∧
      m.heads_ = its.foldl (fun m it => m.insert it.1 it.2) m₀.heads_ ∧
      ∀ r line, parse r.line first = .ok (0, line) → unpack parse r data =
        .ok (.Success, ⟨line, its.foldl (fun m it => m.insert it.1 it.2) r.heads_, m.content_⟩) := by
  obtain ⟨pos, first, headList, start, hsplit, hpos, hparse, happend, hstart, hcontent⟩ :=
    unpack_eq_success_iff.mp h
  obtain ⟨its, rfl, hits, hheads⟩ := appendHeads_eq_zero_iff.mp happend
  refine ⟨pos, first, its, hsplit, hits, hparse, hheads, fun r line hline => ?_⟩
  exact unpack_eq_success_iff.mpr
    ⟨pos, first, _, start, hsplit, hpos, hline, appendHeads_headerLines hits _, hstart, hcontent⟩

/-- The content is a part of what is read. -/
theorem length_content_le {parse : Line → Bytes → Exec (ℤ × Line)} {m₀ m : Message Line} {data : Bytes}
    (h : unpack parse m₀ data = .ok (.Success, m)) : m.content_.length ≤ data.length := by
  obtain ⟨_, _, _, start, -, -, -, -, -, hcontent⟩ := unpack_eq_success_iff.mp h
  rw [substrFrom] at hcontent
  split at hcontent
  · rw [← Except.ok.inj hcontent, List.length_drop]
    exact Nat.sub_le _ _
  · cases hcontent

/-- The message in some bytes, when more come: they belong to the content, if there is one yet. -/
def extended (m : Message Line) (rst : ParseResult) (more : Bytes) : Message Line :=
  { m with content_ := if rst = .Success then m.content_ ++ more else m.content_ }

/-- **What was said of a head stays said when more bytes come**, and they are added to the content. -/
theorem unpack_append_of_ne {parse : Line → Bytes → Exec (ℤ × Line)} {m₀ m : Message Line} {data : Bytes}
    {rst : ParseResult} (h : unpack parse m₀ data = .ok (rst, m)) (hrst : rst ≠ .Fail) (more : Bytes) :
    unpack parse m₀ (data ++ more) = .ok (rst, m.extended rst more) := by
  obtain ⟨rfl, -⟩ | ⟨pos, first, headList, hsplit, hpos, hend⟩ := unpack_cases h
  · exact absurd rfl hrst
  rw [unpack_of_split (splitHttpOfCRLF_append hsplit hpos more) hpos]
  obtain ⟨code, hcode, hread, rfl⟩ | ⟨m₁, start, content, hread, hstart, hcontent, rfl, rfl⟩ := hend
  · rw [hread, Exec.ok_bind]
    exact if_pos hcode
  · -- the content begins at the same place
    have hmore : substrFrom (data ++ more) (toUInt64 start) = .ok (content ++ more) := by
      rw [substrFrom] at hcontent ⊢
      split at hcontent
      · next hin =>
        rw [Except.ok.injEq] at hcontent
        rw [if_pos (by rw [List.length_append]; omega), List.drop_append_of_le_length hin, hcontent]
      · cases hcontent
    rw [hread, Exec.ok_bind]
    simp only [ne_eq, not_true_eq_false, if_false, hstart, hmore, Exec.ok_bind]
    rfl

/-- What was read stays read. -/
theorem unpack_append {parse : Line → Bytes → Exec (ℤ × Line)} {m₀ m : Message Line} {data : Bytes}
    (h : unpack parse m₀ data = .ok (.Success, m)) (more : Bytes) :
    unpack parse m₀ (data ++ more) = .ok (.Success, { m with content_ := m.content_ ++ more }) :=
  unpack_append_of_ne h (by decide) more

/-- What is read begins behind the blank line: a place that is no `int` comes out as one behind the end. -/
theorem toUInt64_start {b : ℕ} {start : ℤ} {data content : Bytes} (hle : b + 4 ≤ data.length)
    (hdata : data.length < 2 ^ 32) (hstart : addInt (toInt32 b) 4 = .ok start)
    (hcontent : substrFrom data (toUInt64 start) = .ok content) : toUInt64 start = b + 4 := by
  have hlt : b < 2 ^ 31 := by
    by_contra hlong
    rw [toInt32_of_ge (Nat.le_of_not_lt hlong) (by omega), addInt] at hstart
    split at hstart
    · cases hstart
      rw [substrFrom, if_neg] at hcontent
      · cases hcontent
      · rw [toUInt64]
        split <;> omega
    · cases hstart
  rw [toInt32_of_lt hlt, addInt] at hstart
  split at hstart
  · cases hstart
    exact toUInt64_natCast (b + 4)
  · cases hstart

/-- **What is read begins with a head**, which is read in the same way when nothing has come behind it. -/
theorem exists_head_of_unpack {parse : Line → Bytes → Exec (ℤ × Line)} {m₀ m : Message Line} {data : Bytes}
    (hdata : data.length < 2 ^ 32) (h : unpack parse m₀ data = .ok (.Success, m)) :
    ∃ head, data = head ++ m.content_ ∧ unpack parse m₀ head = .ok (.Success, { m with content_ := [] }) := by
  obtain ⟨pos, first, headList, start, hsplit, hpos, hparse, happend, hstart, hcontent⟩ :=
    unpack_eq_success_iff.mp h
  have hsplit' := hsplit
  rw [splitHttpOfCRLF_eq, bytes_blank] at hsplit'
  cases hfind : find data [13, 10, 13, 10] 0 with
  | none =>
    rw [hfind] at hsplit'
    cases hsplit'
  | some b =>
    rw [hfind] at hsplit'
    simp only [Except.ok.injEq, Prod.mk.injEq] at hsplit'
    obtain ⟨rfl, hlines⟩ := hsplit'
    have hle : b + 4 ≤ data.length := find_add_length_le (by simp) hfind
    have hplace := toUInt64_start hle hdata hstart hcontent
    rw [hplace, substrFrom, if_pos hle, Except.ok.injEq] at hcontent
    refine ⟨data.take (b + 4), ?_, ?_⟩
    · rw [← hcontent, List.take_append_drop]
    · refine unpack_eq_success_iff.mpr ⟨toInt32 b, first, headList, start, ?_, hpos, hparse, happend, hstart, ?_⟩
      · have hfind' : find (data.take (b + 4)) [13, 10, 13, 10] 0 = some b := by
          obtain ⟨-, hblank, hfirst⟩ := (find_eq_some_iff (by simp)).mp hfind
          refine (find_eq_some_iff (by simp)).mpr ⟨Nat.zero_le b, ?_, fun j hj hjb hpre => hfirst j hj hjb ?_⟩
          · rw [List.drop_take, Nat.add_sub_cancel_left]
            exact List.prefix_take_iff.mpr ⟨hblank, le_rfl⟩
          · exact hpre.trans ((List.take_prefix _ _).drop j)
        rw [splitHttpOfCRLF_eq, bytes_blank, hfind']
        dsimp only
        rw [List.take_take, Nat.min_eq_left (Nat.le_add_right b 4), hlines]
      · rw [hplace, substrFrom, if_pos (by rw [List.length_take_of_le hle])]
        simp

end Message

end UvCpp.Http
