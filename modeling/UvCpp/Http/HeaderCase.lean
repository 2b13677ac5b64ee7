import UvCpp.Http.Completed
import UvCpp.Http.ChunkRounds

/-!
# The letter case of header names

In a header name a letter may be written small or as a capital. The code looks for `Content-Length`, then
for `content-length`, and for one spelling of `Transfer-Encoding`; under any other the header is not seen.

So how a message is spelled makes a difference, unless what the header says is what the code takes for
granted without it: that a request is whole, and a response is not (`letterCase_iff`).

Two spellings make no difference to a request when the lengths that the code finds in them both agree with the
content, or both do not (`Request.outcomes_eq_iff`), and none to a response when the names that the code knows
are written alike in both (`Response.outcomes_eq`).
-/

namespace UvCpp.Http

open UvCpp.Cpp

/-! ### Letters -/

/-- A byte; if it is a capital, the small letter. -/
def toLower (c : UInt8) : UInt8 := if 65 ≤ c ∧ c ≤ 90 then c + 32 else c

/-- A byte; if it is a small letter, the capital. -/
def toUpper (c : UInt8) : UInt8 := if 97 ≤ c ∧ c ≤ 122 then c - 32 else c

theorem toLower_toUpper (c : UInt8) : toLower (toUpper c) = toLower c := by
  unfold toUpper toLower
  grind

theorem toUpper_toLower (c : UInt8) : toUpper (toLower c) = toUpper c := by
  unfold toUpper toLower
  grind

theorem toLower_toLower (c : UInt8) : toLower (toLower c) = toLower c := by
  unfold toLower
  grind

/-- What is the same in small letters and in capitals is no letter. -/
theorem toLower_of_eq {c : UInt8} (h : toUpper c = toLower c) : toLower c = c := by
  unfold toUpper toLower at *
  grind

/-- Other bytes stay apart from letters. -/
theorem toLower_eq_iff {c d : UInt8} (hd : toUpper d = toLower d) : toLower c = d ↔ c = d := by
  unfold toUpper toLower at *
  grind

/-- A name in small letters. -/
def small (name : Bytes) : Bytes := name.map toLower

/-- A name in capitals. -/
def capital (name : Bytes) : Bytes := name.map toUpper

theorem small_small (name : Bytes) : small (small name) = small name := by
  rw [small, small, List.map_map]
  exact List.map_congr_left fun c _ => toLower_toLower c

theorem small_capital (name : Bytes) : small (capital name) = small name := by
  rw [small, capital, List.map_map]
  exact List.map_congr_left fun c _ => toLower_toUpper c

theorem capital_small (name : Bytes) : capital (small name) = capital name := by
  rw [small, capital, List.map_map]
  exact List.map_congr_left fun c _ => toUpper_toLower c

theorem capital_capital (name : Bytes) : capital (capital name) = capital name := by
  rw [← capital_small (capital name), small_capital, capital_small]

/-- A byte that is no letter stands in a name whatever its case is. -/
theorem mem_small_iff {d : UInt8} (hd : toUpper d = toLower d) {name : Bytes} : d ∈ small name ↔ d ∈ name := by
  rw [small, List.mem_map]
  simp only [toLower_eq_iff hd, exists_eq_right]

/-! ### Messages and how they are spelled -/

/-- The line of a header: its name, a colon, and the rest. -/
def fieldLine (f : Bytes × Bytes) : Bytes := f.1 ++ 58 :: f.2

/-- Headers with their names written in another way. -/
def spelled (spell : Bytes → Bytes) (fields : List (Bytes × Bytes)) : List (Bytes × Bytes) :=
  fields.map fun f => (spell f.1, f.2)

/-- Headers that differ in the letter case of their names only. -/
def Recased (fields fields' : List (Bytes × Bytes)) : Prop := spelled small fields' = spelled small fields

instance (fields fields' : List (Bytes × Bytes)) : Decidable (Recased fields fields') :=
  inferInstanceAs (Decidable (spelled small fields' = spelled small fields))

/-- The text of a message. -/
def text (line : Bytes) (fields : List (Bytes × Bytes)) (content : Bytes) : Bytes :=
  joinLines line (fields.map fieldLine) ++ 13 :: 10 :: 13 :: 10 :: content

/-- A message: its lines stay apart, no colon stands in a name, and no two names are equal up to case. -/
structure Written (line : Bytes) (fields : List (Bytes × Bytes)) : Prop where
  /-- The first line is one line. -/
  oneLine : search [13, 10] line = none
  /-- It is not empty. -/
  nonempty : line ≠ []
  /-- So is each header. -/
  oneLines : ∀ f ∈ fields, search [13, 10] (fieldLine f) = none
  /-- The first colon ends its name. -/
  names : ∀ f ∈ fields, 58 ∉ f.1
  /-- The names are different. -/
  distinct : ((spelled small fields).map Prod.fst).Nodup

section Spelled

variable {fields fields' : List (Bytes × Bytes)} {spell : Bytes → Bytes}

theorem spelled_spelled (spell spell' : Bytes → Bytes) (fields : List (Bytes × Bytes)) :
    spelled spell (spelled spell' fields) = spelled (fun name => spell (spell' name)) fields := by
  rw [spelled, spelled, List.map_map]
  rfl

theorem recased_spelled (hspell : ∀ name, small (spell name) = small name) :
    Recased fields (spelled spell fields) := by
  rw [Recased, spelled_spelled]
  simp only [hspell]

theorem Recased.symm (h : Recased fields fields') : Recased fields' fields := Eq.symm h

theorem Recased.trans {fields'' : List (Bytes × Bytes)} (h : Recased fields fields')
    (h' : Recased fields' fields'') : Recased fields fields'' := Eq.trans h' h

/-- In small letters, or in capitals, both are written alike. -/
theorem Recased.spelled_eq (h : Recased fields fields') (hspell : ∀ name, spell (small name) = spell name) :
    spelled spell fields' = spelled spell fields := by
  have heq (fields : List (Bytes × Bytes)) : spelled spell fields = spelled spell (spelled small fields) := by
    rw [spelled_spelled]
    simp only [hspell]
  rw [heq fields', heq fields, h]

/-- What is true of all headers in small letters is true of all headers. -/
theorem Recased.forall_mem (h : Recased fields fields') {p : Bytes × Bytes → Prop}
    (hp : ∀ f, p (small f.1, f.2) ↔ p f) (hfields : ∀ f ∈ fields, p f) : ∀ f ∈ fields', p f := by
  intro f hf
  have hmem : (small f.1, f.2) ∈ spelled small fields := h ▸ List.mem_map_of_mem hf
  obtain ⟨f₀, hf₀, heq⟩ := List.mem_map.mp hmem
  rw [← hp, ← heq, hp]
  exact hfields f₀ hf₀

theorem mem_spelled_iff {name rest : Bytes} :
    (name, rest) ∈ spelled spell fields ↔ ∃ name', (name', rest) ∈ fields ∧ spell name' = name := by
  simp [spelled]

/-- A header of another spelling. -/
theorem Recased.mem_small (h : Recased fields fields') {name rest : Bytes} (hmem : (name, rest) ∈ fields') :
    (small name, rest) ∈ spelled small fields := by
  rw [← h]
  exact List.mem_map_of_mem hmem

end Spelled

/-- A header in small letters is one line if it is one. -/
theorem search_fieldLine_small (f : Bytes × Bytes) :
    search [13, 10] (fieldLine (small f.1, f.2)) = none ↔ search [13, 10] (fieldLine f) = none := by
  have hname : search [13, 10] (small f.1) = search [13, 10] f.1 :=
    search_map (by simp [toLower_eq_iff (d := 13) rfl, toLower_eq_iff (d := 10) rfl]) f.1
  rw [fieldLine, fieldLine, search_pair_eq_none_iff (by decide) (by decide),
    search_pair_eq_none_iff (by decide) (by decide), hname]

/-- Whether the line of a header is refused depends on what stands behind its name. -/
theorem search_fieldLine {f : Bytes × Bytes} (hname : 58 ∉ f.1) :
    search [58, 32] (fieldLine f) = none ↔ search [58, 32] (58 :: f.2) = none := by
  rw [fieldLine, search_append hname, Option.map_eq_none_iff]

/-- The name of a header is told from what follows it. -/
theorem fieldLine_injective {f f' : Bytes × Bytes} (h : 58 ∉ f.1) (h' : 58 ∉ f'.1)
    (heq : fieldLine f = fieldLine f') : f = f' := by
  have hcolon (rest : Bytes) : search [58] (58 :: rest) = some 0 := search_append_self [58] rest
  have hlen : search [58] (fieldLine f) = search [58] (fieldLine f') := congrArg _ heq
  rw [fieldLine, fieldLine, search_append h, search_append h', hcolon, hcolon, Option.map_some, Option.map_some,
    Option.some.injEq] at hlen
  obtain ⟨hname, hrest⟩ := List.append_inj heq hlen
  exact Prod.ext hname (List.cons.inj hrest).2

theorem Written.recased {line : Bytes} {fields fields' : List (Bytes × Bytes)} (h : Written line fields)
    (hcase : Recased fields fields') : Written line fields' where
  oneLine := h.oneLine
  nonempty := h.nonempty
  oneLines := hcase.forall_mem search_fieldLine_small h.oneLines
  names := hcase.forall_mem (fun _ => not_congr (mem_small_iff rfl)) h.names
  distinct := hcase.symm ▸ h.distinct

/-- A message is split where it was put together. -/
theorem Written.split {line : Bytes} {fields : List (Bytes × Bytes)} (h : Written line fields) (content : Bytes) :
    SplitHttpOfCRLF (text line fields content) =
      .ok (toInt32 (joinLines line (fields.map fieldLine)).length, line :: fields.map fieldLine) := by
  apply splitHttpOfCRLF_joinLines h.oneLine h.nonempty
  exact List.forall_mem_map.mpr fun f hf => ⟨h.oneLines f hf, by simp [fieldLine]⟩

/-- The head is as long as it was. -/
theorem Recased.length_joinLines {fields fields' : List (Bytes × Bytes)} (h : Recased fields fields')
    (line : Bytes) : (joinLines line (fields'.map fieldLine)).length =
      (joinLines line (fields.map fieldLine)).length := by
  have heq (fields : List (Bytes × Bytes)) : (joinLines line (fields.map fieldLine)).length =
      (joinLines line ((spelled small fields).map fieldLine)).length := by
    rw [UvCpp.Http.length_joinLines, UvCpp.Http.length_joinLines, spelled]
    simp [Function.comp_def, fieldLine, small]
  rw [heq fields', heq fields, h]

theorem Recased.length_text {fields fields' : List (Bytes × Bytes)} (h : Recased fields fields')
    (line content : Bytes) : (text line fields' content).length = (text line fields content).length := by
  rw [text, text, List.length_append, List.length_append, h.length_joinLines line]

/-! ### The content -/

/-- What is taken as the content: all from four bytes behind the place of the blank line on, which is kept
as an `int`. -/
def taken (line : Bytes) (fields : List (Bytes × Bytes)) (content : Bytes) : Exec Bytes := do
  let start ← addInt (toInt32 (joinLines line (fields.map fieldLine)).length) 4
  substrFrom (text line fields content) (toUInt64 start)

/-- If the head is short, that is the content. -/
theorem taken_of_short {line content : Bytes} {fields : List (Bytes × Bytes)}
    (h : (joinLines line (fields.map fieldLine)).length + 4 < 2 ^ 31) :
    taken line fields content = .ok content := by
  set joined := joinLines line (fields.map fieldLine) with hj
  have hpos : toInt32 joined.length = joined.length := toInt32_of_lt (by omega)
  have hstart : addInt joined.length 4 = .ok ((joined.length + 4 : ℕ) : ℤ) := addInt_natCast h
  have htext : text line fields content = joined ++ [13, 10, 13, 10] ++ content := by
    rw [text, ← hj, List.append_assoc]
    rfl
  rw [taken, ← hj, hpos, hstart, Exec.ok_bind, toUInt64_natCast, htext, substrFrom, if_pos (by simp),
    List.drop_left' (by simp)]

/-- No letter of a name is taken for content. -/
def Unlettered (line : Bytes) (fields : List (Bytes × Bytes)) (content : Bytes) : Prop :=
  taken line (spelled capital fields) content = taken line (spelled small fields) content

/-- The bytes of a text, and whether they belong to a name. -/
def marked (line : Bytes) (fields : List (Bytes × Bytes)) (content : Bytes) : List (Bool × UInt8) :=
  line.map (Prod.mk false) ++
    (fields.flatMap fun f => ([13, 10].map (Prod.mk false) ++ f.1.map (Prod.mk true)) ++
      (58 :: f.2).map (Prod.mk false)) ++
    (13 :: 10 :: 13 :: 10 :: content).map (Prod.mk false)

/-- A text of which the names are changed byte by byte. -/
theorem text_spelled (f : UInt8 → UInt8) (line : Bytes) (fields : List (Bytes × Bytes)) (content : Bytes) :
    text line (spelled (List.map f) fields) content =
      (marked line fields content).map fun b => if b.1 then f b.2 else b.2 := by
  simp [text, joinLines, marked, spelled, fieldLine, List.map_flatMap, List.flatMap_map, Function.comp_def]

/-- From a place on, a text is the same in all spellings if it is in small letters and in capitals. -/
theorem drop_text {line content : Bytes} {fields : List (Bytes × Bytes)} {k : ℕ}
    (h : (text line (spelled capital fields) content).drop k = (text line (spelled small fields) content).drop k) :
    (text line fields content).drop k = (text line (spelled small fields) content).drop k := by
  have hid : spelled (List.map id) fields = fields := by simp [spelled]
  have hcapital := text_spelled toUpper line fields content
  have hsmall := text_spelled toLower line fields content
  have hsame := text_spelled id line fields content
  rw [hid] at hsame
  rw [show capital = List.map toUpper from rfl, show small = List.map toLower from rfl, hcapital, hsmall,
    ← List.map_drop, ← List.map_drop, List.map_inj_left] at h
  rw [show small = List.map toLower from rfl, hsmall, hsame, ← List.map_drop, ← List.map_drop, List.map_inj_left]
  rintro ⟨mark, c⟩ hb
  have hc := h _ hb
  cases mark with
  | false => rfl
  | true => exact (toLower_of_eq hc).symm

/-- It is taken from the same place in all spellings, or from none. -/
theorem taken_cases (line : Bytes) (fields : List (Bytes × Bytes)) (content : Bytes) :
    (∃ e, ∀ fields', Recased fields fields' → taken line fields' content = .error e) ∨
      ∃ k, ∀ fields', Recased fields fields' →
        taken line fields' content = .ok ((text line fields' content).drop k) := by
  cases hstart : addInt (toInt32 (joinLines line (fields.map fieldLine)).length) 4 with
  | error e =>
    refine .inl ⟨e, fun fields' h => ?_⟩
    rw [taken, h.length_joinLines line, hstart]
    rfl
  | ok start =>
    by_cases hle : toUInt64 start ≤ (text line fields content).length
    · refine .inr ⟨toUInt64 start, fun fields' h => ?_⟩
      rw [taken, h.length_joinLines line, hstart, Exec.ok_bind, substrFrom, h.length_text line content, if_pos hle]
    · refine .inl ⟨.thrown, fun fields' h => ?_⟩
      rw [taken, h.length_joinLines line, hstart, Exec.ok_bind, substrFrom, h.length_text line content, if_neg hle]

theorem length_le_of_taken {line content c : Bytes} {fields : List (Bytes × Bytes)}
    (h : taken line fields content = .ok c) : c.length ≤ (text line fields content).length := by
  obtain ⟨e, herror⟩ | ⟨k, hok⟩ := taken_cases line fields content
  · rw [herror fields rfl] at h
    cases h
  · rw [hok fields rfl, Except.ok.injEq] at h
    rw [← h, List.length_drop]
    exact Nat.sub_le _ k

/-- **Without letters in it, the content is the same in all spellings.** -/
theorem Unlettered.taken_eq {line content : Bytes} {fields fields' : List (Bytes × Bytes)}
    (h : Unlettered line fields content) (hcase : Recased fields fields') :
    taken line fields' content = taken line fields content := by
  have hsmall : Recased fields (spelled small fields) := recased_spelled small_small
  have hcapital : Recased fields (spelled capital fields) := recased_spelled small_capital
  obtain ⟨e, herror⟩ | ⟨k, hdrop⟩ := taken_cases line fields content
  · rw [herror fields' hcase, herror fields rfl]
  · rw [Unlettered, hdrop _ hcapital, hdrop _ hsmall, Except.ok.injEq] at h
    rw [hdrop fields' hcase, hdrop fields rfl, drop_text h, drop_text, hcase]
    rwa [hcase.spelled_eq capital_small, hcase]

/-! ### What is read -/

section Reads

variable {Line : Type} {parse : Line → Bytes → Exec (ℤ × Line)} {m₀ : Message Line} {line content c : Bytes}
  {fields fields' : List (Bytes × Bytes)}

/-- A message is read, and `c` is taken for its content. -/
structure Reads (parse : Line → Bytes → Exec (ℤ × Line)) (m₀ : Message Line) (line : Bytes)
    (fields : List (Bytes × Bytes)) (content c : Bytes) : Prop where
  /-- The place of the blank line is not the `int` that says that there is none. -/
  found : toInt32 (joinLines line (fields.map fieldLine)).length ≠ -1
  /-- The first line is accepted. -/
  first : ∃ line₁, parse m₀.line line = .ok (0, line₁)
  /-- There is a space behind a colon in each header. -/
  heads : ∀ f ∈ fields, search (bytes ": ") (fieldLine f) ≠ none
  /-- The content. -/
  content_eq : taken line fields content = .ok c

/-- A name has one value. -/
theorem Written.unique (h : Written line fields) {name rest rest' : Bytes} (hrest : (name, rest) ∈ fields)
    (hrest' : (name, rest') ∈ fields) : rest = rest' := by
  have hmem : (small name, rest) ∈ spelled small fields := List.mem_map_of_mem hrest
  have hmem' : (small name, rest') ∈ spelled small fields := List.mem_map_of_mem hrest'
  exact (Prod.mk.inj (List.inj_on_of_nodup_map h.distinct hmem hmem' rfl)).2

/-- The headers are those of the list, as far as their names have no colon. -/
def Lists (heads : StringMap) (fields : List (Bytes × Bytes)) : Prop :=
  ∀ name value, 58 ∉ name → (heads[name]? = some value ↔ (name, 32 :: value) ∈ fields)

/-- The headers that are read, by their names. -/
theorem exists_heads (h : Written line fields) (hread : ∀ f ∈ fields, search [58, 32] (fieldLine f) ≠ none) :
    ∃ heads, appendHeads (fields.map fieldLine) ∅ = .ok (0, heads) ∧ Lists heads fields := by
  obtain ⟨its, hlines, hits⟩ := exists_headerLines (List.forall_mem_map.mpr hread)
  -- a header without a colon in its name is read as it stands there
  have hmem (name value : Bytes) (hname : 58 ∉ name) : (name, value) ∈ its ↔ (name, 32 :: value) ∈ fields := by
    have hline : headerLine (name, value) = fieldLine (name, 32 :: value) := by
      rw [headerLine, bytes_colonSpace, List.append_assoc]
      rfl
    constructor
    · intro hit
      have hline' : fieldLine (name, 32 :: value) ∈ fields.map fieldLine := by
        rw [← hlines, ← hline]
        exact List.mem_map_of_mem hit
      obtain ⟨f, hf, heq⟩ := List.mem_map.mp hline'
      rwa [← fieldLine_injective (h.names f hf) hname heq]
    · intro hf
      have hline' : headerLine (name, value) ∈ its.map headerLine := by
        rw [hlines, hline]
        exact List.mem_map_of_mem hf
      obtain ⟨it, hit, heq⟩ := List.mem_map.mp hline'
      rwa [← headerLine_injective (hits it hit) (search_eq_none hname) heq]
  refine ⟨_, hlines ▸ appendHeads_headerLines hits ∅, fun name value hname => ?_⟩
  obtain ⟨v, hv, hget⟩ | ⟨hnone, hget⟩ := getElem?_foldl_insert its name
  · rw [hget, Option.some.injEq]
    constructor
    · rintro rfl
      exact (hmem name v hname).mp hv
    · intro hf
      exact (List.cons.inj (h.unique ((hmem name v hname).mp hv) hf)).2
  · rw [hget, Std.ExtTreeMap.getElem?_empty, ← hmem name value hname]
    exact iff_of_false (Option.some_ne_none value).symm (hnone value)

/-- A message that is read. -/
theorem Reads.unpack (hr : Reads parse m₀ line fields content c) (hnew : m₀.heads_ = ∅) (h : Written line fields) :
    ∃ m, Message.unpack parse m₀ (text line fields content) = .ok (.Success, m) ∧ m.content_ = c ∧
      Lists m.heads_ fields := by
  obtain ⟨line₁, hfirst⟩ := hr.first
  obtain ⟨heads, happend, hlists⟩ := exists_heads h (bytes_colonSpace ▸ hr.heads)
  have hcontent := hr.content_eq
  rw [taken, Exec.bind_eq_ok_iff] at hcontent
  obtain ⟨start, hstart, hcontent⟩ := hcontent
  exact ⟨⟨line₁, heads, c⟩, Message.unpack_eq_success_iff.mpr
    ⟨_, line, _, start, h.split content, hr.found, hfirst, hnew ▸ happend, hstart, hcontent⟩, rfl, hlists⟩

/-- The headers are read in all spellings, or in none. -/
theorem Written.heads_recased (h : Written line fields) (hcase : Recased fields fields')
    (hread : ∀ f ∈ fields, search [58, 32] (fieldLine f) ≠ none) :
    ∀ f ∈ fields', search [58, 32] (fieldLine f) ≠ none := by
  have hiff (f : Bytes × Bytes) : (58 ∉ small f.1 ∧ search [58, 32] (fieldLine (small f.1, f.2)) ≠ none) ↔
      (58 ∉ f.1 ∧ search [58, 32] (fieldLine f) ≠ none) := by
    have hname : 58 ∈ small f.1 ↔ 58 ∈ f.1 := mem_small_iff rfl
    by_cases hf : 58 ∈ f.1
    · simp [hname, hf]
    · rw [ne_eq, ne_eq, search_fieldLine hf, search_fieldLine (hname.not.mpr hf), hname]
  have hall := hcase.forall_mem (p := fun f => 58 ∉ f.1 ∧ search [58, 32] (fieldLine f) ≠ none) hiff
    fun f hf => ⟨h.names f hf, hread f hf⟩
  exact fun f hf => (hall f hf).2

theorem Reads.recased (hr : Reads parse m₀ line fields content c) (h : Written line fields)
    (hcase : Recased fields fields') {c' : Bytes} (htaken : taken line fields' content = .ok c') :
    Reads parse m₀ line fields' content c' where
  found := hcase.length_joinLines line ▸ hr.found
  first := hr.first
  heads := bytes_colonSpace ▸ h.heads_recased hcase (bytes_colonSpace ▸ hr.heads)
  content_eq := htaken

/-- A message with no letters in its content is read in all spellings. -/
theorem Reads.of_unlettered (hr : Reads parse m₀ line fields content c) (h : Written line fields)
    (hunlettered : Unlettered line fields content) (hcase : Recased fields fields') :
    Reads parse m₀ line fields' content c :=
  hr.recased h hcase ((hunlettered.taken_eq hcase).trans hr.content_eq)

/-- How a message is read whose blank line is found. -/
theorem Written.unpack_text (h : Written line fields)
    (hpos : toInt32 (joinLines line (fields.map fieldLine)).length ≠ -1) (m : Message Line) :
    Message.unpack parse m (text line fields content) = (do
      let (rst, m') ← Message.readHead parse m line (fields.map fieldLine)
      if rst ≠ 0 then .ok (.Error, m')
      else do
        let c ← taken line fields content
        .ok (.Success, { m' with content_ := c })) := by
  rw [Message.unpack_of_split (h.split content) hpos, taken]
  simp only [bind_assoc]

/-- A message that is not read is not read in any spelling, and the same is said of all of them. -/
theorem unpack_of_not_reads (hnew : m₀.heads_ = ∅) (hparse : (parse m₀.line line).Returns)
    (h : Written line fields) (hno : ∀ c, ¬ Reads parse m₀ line fields content c) :
    (∃ e, ∀ fields', Recased fields fields' →
      Message.unpack parse m₀ (text line fields' content) = .error e) ∨
    ∃ rst, rst ≠ .Success ∧ ∀ fields', Recased fields fields' →
      ∃ m, Message.unpack parse m₀ (text line fields' content) = .ok (rst, m) ∧ m.content_ = m₀.content_ := by
  by_cases hpos : toInt32 (joinLines line (fields.map fieldLine)).length = -1
  · refine .inr ⟨.Fail, by decide, fun fields' hcase => ⟨m₀, ?_, rfl⟩⟩
    rw [Message.unpack, (h.recased hcase).split content, hcase.length_joinLines line, hpos, Exec.ok_bind]
    exact if_pos rfl
  obtain ⟨⟨code, line₁⟩, hfirst⟩ := hparse
  have hunpack (fields' : List (Bytes × Bytes)) (hcase : Recased fields fields') :
      Message.unpack parse m₀ (text line fields' content) = _ :=
    (h.recased hcase).unpack_text (by rwa [hcase.length_joinLines line]) m₀
  by_cases hcode : code = 0
  · subst hcode
    by_cases hread : ∀ f ∈ fields, search [58, 32] (fieldLine f) ≠ none
    · obtain ⟨e, herror⟩ | ⟨k, hok⟩ := taken_cases line fields content
      · refine .inl ⟨e, fun fields' hcase => ?_⟩
        obtain ⟨heads, happend, -⟩ := exists_heads (h.recased hcase) (h.heads_recased hcase hread)
        rw [hunpack fields' hcase, herror fields' hcase, Message.readHead, hfirst, hnew]
        simp [happend]
      · exact absurd ⟨hpos, ⟨line₁, hfirst⟩, bytes_colonSpace ▸ hread, hok fields rfl⟩ (hno _)
    · refine .inr ⟨.Error, by decide, fun fields' hcase => ?_⟩
      have hread' : ¬ ∀ f ∈ fields', search [58, 32] (fieldLine f) ≠ none :=
        fun hall => hread ((h.recased hcase).heads_recased hcase.symm hall)
      simp only [not_forall, not_not] at hread'
      obtain ⟨f, hf, hnone⟩ := hread'
      obtain ⟨heads, happend⟩ := appendHeads_of_notFound (List.mem_map_of_mem hf) hnone ∅
      refine ⟨⟨line₁, heads, m₀.content_⟩, ?_, rfl⟩
      rw [hunpack fields' hcase, Message.readHead, hfirst, hnew]
      simp [happend]
  · refine .inr ⟨.Error, by decide, fun fields' hcase => ⟨{ m₀ with line := line₁ }, ?_, rfl⟩⟩
    rw [hunpack fields' hcase, Message.readHead, hfirst, hnew]
    simp [hcode]

/-- What the caller learns: the verdict and the content. -/
def outcome (x : Exec (ParseResult × Message Line)) : Exec (ParseResult × Bytes) := do
  let (rst, m) ← x
  .ok (rst, m.content_)

@[simp] theorem outcome_ok (rst : ParseResult) (m : Message Line) :
    outcome (.ok (rst, m)) = .ok (rst, m.content_) := rfl

@[simp] theorem outcome_error (e : Fault) :
    outcome (.error e : Exec (ParseResult × Message Line)) = .error e := rfl

theorem exists_of_outcome {x : Exec (ParseResult × Message Line)} {rst : ParseResult}
    (h : outcome x = .ok (rst, c)) : ∃ m, x = .ok (rst, m) ∧ m.content_ = c := by
  cases x with
  | error e => cases h
  | ok result =>
    obtain ⟨rst', m⟩ := result
    rw [outcome_ok, Except.ok.injEq, Prod.mk.injEq] at h
    exact ⟨m, by rw [h.1], h.2⟩

/-- The letter case of the names makes no difference to the caller. -/
def CaseBlind (whole : Bytes → Exec (ParseResult × Message Line)) (line : Bytes) (fields : List (Bytes × Bytes))
    (content : Bytes) : Prop :=
  ∀ fields', Recased fields fields' →
    outcome (whole (text line fields' content)) = outcome (whole (text line fields content))

/-- The caller learns the same of all spellings of a message that is not read. -/
theorem outcome_of_not_reads {whole : Bytes → Exec (ParseResult × Message Line)} (said : ParseResult → ParseResult)
    (herror : ∀ data e, Message.unpack parse m₀ data = .error e → whole data = .error e)
    (hne : ∀ data rst m, Message.unpack parse m₀ data = .ok (rst, m) → rst ≠ .Success →
      whole data = .ok (said rst, m))
    (hnew : m₀.heads_ = ∅) (hparse : (parse m₀.line line).Returns) (h : Written line fields)
    (hno : ∀ c, ¬ Reads parse m₀ line fields content c) :
    ∃ x, ∀ fields', Recased fields fields' → outcome (whole (text line fields' content)) = x := by
  obtain ⟨e, hthrown⟩ | ⟨rst, hrst, hsaid⟩ := unpack_of_not_reads hnew hparse h hno
  · refine ⟨.error e, fun fields' hcase => ?_⟩
    rw [herror _ e (hthrown fields' hcase), outcome_error]
  · refine ⟨.ok (said rst, m₀.content_), fun fields' hcase => ?_⟩
    obtain ⟨m, hm, hcontent⟩ := hsaid fields' hcase
    rw [hne _ rst m hm hrst, outcome_ok, hcontent]

/-- **When the case makes no difference**: if the same is said of each spelling as of the one in capitals. -/
theorem caseBlind_iff_of_capital (parse : Line → Bytes → Exec (ℤ × Line)) (m₀ : Message Line)
    {whole : Bytes → Exec (ParseResult × Message Line)} {base : ParseResult} (h : Written line fields)
    (hcapital : ∀ c, Reads parse m₀ line (spelled capital fields) content c →
      outcome (whole (text line (spelled capital fields) content)) = .ok (base, c))
    (hsmall : ∀ c, Reads parse m₀ line (spelled small fields) content c →
      ∃ rst, outcome (whole (text line (spelled small fields) content)) = .ok (rst, c))
    (hno : (∀ c, ¬ Reads parse m₀ line fields content c) →
      ∃ x, ∀ fields', Recased fields fields' → outcome (whole (text line fields' content)) = x) :
    CaseBlind whole line fields content ↔ ∀ c, Reads parse m₀ line fields content c →
      Unlettered line fields content ∧ ∀ fields', Recased fields fields' →
        Reads parse m₀ line fields' content c → outcome (whole (text line fields' content)) = .ok (base, c) := by
  constructor
  · intro hblind c hr
    obtain ⟨e, herror⟩ | ⟨k, hok⟩ := taken_cases line fields content
    · have htaken := hr.content_eq
      rw [herror fields rfl] at htaken
      cases htaken
    have hrecased : Recased fields (spelled capital fields) := recased_spelled small_capital
    have hrecased' : Recased fields (spelled small fields) := recased_spelled small_small
    have hbase := hcapital _ (hr.recased h hrecased (hok _ hrecased))
    obtain ⟨rst, hrst⟩ := hsmall _ (hr.recased h hrecased' (hok _ hrecased'))
    have heq := (hblind _ hrecased').trans (hblind _ hrecased).symm
    rw [hbase, hrst, Except.ok.injEq, Prod.mk.injEq] at heq
    have hunlettered : Unlettered line fields content := by
      rw [Unlettered, hok _ hrecased, hok _ hrecased', heq.2]
    have hc := (hok _ hrecased).symm.trans ((hunlettered.taken_eq hrecased).trans hr.content_eq)
    rw [Except.ok.inj hc] at hbase
    exact ⟨hunlettered, fun fields' hcase _ =>
      (hblind fields' hcase).trans ((hblind _ hrecased).symm.trans hbase)⟩
  · intro hall fields' hcase
    by_cases hreads : ∃ c, Reads parse m₀ line fields content c
    · obtain ⟨c, hr⟩ := hreads
      obtain ⟨hunlettered, hsame⟩ := hall c hr
      have htaken := (hunlettered.taken_eq hcase).trans hr.content_eq
      exact (hsame fields' hcase (hr.recased h hcase htaken)).trans (hsame fields rfl hr).symm
    · obtain ⟨x, hx⟩ := hno (not_exists.mp hreads)
      exact (hx fields' hcase).trans (hx fields rfl).symm

/-! ### The names that the code knows -/

/-- In capitals, no name is one that the code knows. -/
theorem capital_ne (name : Bytes) : capital name ≠ bytes "Content-Length" ∧
    capital name ≠ bytes "content-length" ∧ capital name ≠ bytes "Transfer-Encoding" := by
  have hne (known : Bytes) (hknown : capital known ≠ known) : capital name ≠ known := by
    rintro rfl
    exact hknown (capital_capital name)
  exact ⟨hne _ (by decide), hne _ (by decide), hne _ (by decide)⟩

variable {m : Message Line}

/-- A length that is read is that of the header of this name, in any case. -/
theorem Lists.mem_of_contentLength (hm : Lists m.heads_ fields') (hcase : Recased fields fields') {value : Bytes}
    (hvalue : m.contentLength = some value) :
    (bytes "content-length", 32 :: value) ∈ spelled small fields := by
  rw [Message.contentLength] at hvalue
  cases hlength : m.heads_[bytes "Content-Length"]? with
  | some v =>
    rw [hlength, Option.some.injEq] at hvalue
    subst hvalue
    exact hcase.mem_small ((hm _ _ (by decide)).mp hlength)
  | none =>
    rw [hlength] at hvalue
    exact hcase.mem_small ((hm _ _ (by decide)).mp hvalue)

/-- If no known name is among them, there is no length. -/
theorem Lists.contentLength_eq_none (hm : Lists m.heads_ fields)
    (hno : ∀ f ∈ fields, f.1 ≠ bytes "Content-Length" ∧ f.1 ≠ bytes "content-length") :
    m.contentLength = none := by
  rw [Message.contentLength]
  cases hlength : m.heads_[bytes "Content-Length"]? with
  | some v => exact absurd rfl (hno _ ((hm _ _ (by decide)).mp hlength)).1
  | none =>
    cases hlength' : m.heads_[bytes "content-length"]? with
    | some v => exact absurd rfl (hno _ ((hm _ _ (by decide)).mp hlength')).2
    | none => rfl

/-- In capitals there is none. -/
theorem Lists.contentLength_of_capital (hm : Lists m.heads_ (spelled capital fields)) : m.contentLength = none := by
  refine hm.contentLength_eq_none fun f hf => ?_
  obtain ⟨name, -, hname⟩ := mem_spelled_iff.mp hf
  exact hname ▸ ⟨(capital_ne name).1, (capital_ne name).2.1⟩

/-- In small letters the length is read. -/
theorem Lists.contentLength_of_small (hm : Lists m.heads_ (spelled small fields)) {value : Bytes}
    (hvalue : (bytes "content-length", 32 :: value) ∈ spelled small fields) : m.contentLength = some value := by
  rw [Message.contentLength]
  cases hlength : m.heads_[bytes "Content-Length"]? with
  | some v =>
    obtain ⟨name, -, hname⟩ := mem_spelled_iff.mp ((hm _ _ (by decide)).mp hlength)
    have hsmall := small_small name
    rw [hname] at hsmall
    exact absurd hsmall (by decide)
  | none => exact (hm _ _ (by decide)).mpr hvalue

end Reads

variable {line content c : Bytes} {fields fields' : List (Bytes × Bytes)}

/-! ### Requests -/

namespace Request

/-- A length that is no `int`, or that of the content, makes no difference to a request. -/
theorem measured_eq_success_iff {value : Bytes} :
    measured value c .Success = .Success ↔ ∀ z, stoi 10 value = .ok z → toUInt64 z = c.length := by
  rw [measured]
  cases stoi 10 value with
  | error e => simp
  | ok z => simp

/-- What the caller learns of a request that is read. -/
theorem exists_outcome (hr : Reads unpackUrl new line fields content c) (h : Written line fields) :
    ∃ m : Request, Lists m.heads_ fields ∧ outcome (unpackAndCompleted new (text line fields content)) =
      .ok (m.contentLength.elim .Success fun value => measured value c .Success, c) := by
  obtain ⟨m, hm, rfl, hlists⟩ := hr.unpack rfl h
  refine ⟨m, hlists, ?_⟩
  rw [unpackAndCompleted_of_success hm, outcome_ok]

/-- A request that is not read, or whose content is the same in all spellings and has the length that stands
under `content-length` in any case, if there is one. -/
def CaseFree (line : Bytes) (fields : List (Bytes × Bytes)) (content : Bytes) : Prop :=
  ∀ c, Reads unpackUrl new line fields content c → Unlettered line fields content ∧
    ∀ value, (bytes "content-length", 32 :: value) ∈ spelled small fields →
      ∀ z, stoi 10 value = .ok z → toUInt64 z = c.length

/-- In capitals, a request that is read counts as whole. -/
theorem outcome_capital (hr : Reads unpackUrl new line (spelled capital fields) content c)
    (h : Written line fields) :
    outcome (unpackAndCompleted new (text line (spelled capital fields) content)) = .ok (.Success, c) := by
  obtain ⟨m, hlists, hout⟩ := exists_outcome hr (h.recased (recased_spelled small_capital))
  rw [hout, hlists.contentLength_of_capital]
  rfl

/-- All spellings count as whole if the length does not say otherwise, as it does in small letters. -/
theorem outcomes_iff (h : Written line fields)
    (hreads : ∀ fields', Recased fields fields' → Reads unpackUrl new line fields' content c) :
    (∀ fields', Recased fields fields' → Reads unpackUrl new line fields' content c →
      outcome (unpackAndCompleted new (text line fields' content)) = .ok (.Success, c)) ↔
    ∀ value, (bytes "content-length", 32 :: value) ∈ spelled small fields →
      ∀ z, stoi 10 value = .ok z → toUInt64 z = c.length := by
  have hsmall : Recased fields (spelled small fields) := recased_spelled small_small
  constructor
  · intro hall value hvalue
    obtain ⟨m, hlists, hout⟩ := exists_outcome (hreads _ hsmall) (h.recased hsmall)
    rw [hall _ hsmall (hreads _ hsmall), hlists.contentLength_of_small hvalue, Except.ok.injEq,
      Prod.mk.injEq] at hout
    exact measured_eq_success_iff.mp hout.1.symm
  · intro hlength fields' hcase hr
    obtain ⟨m, hlists, hout⟩ := exists_outcome hr (h.recased hcase)
    rw [hout]
    cases hvalue : m.contentLength with
    | none => rfl
    | some value =>
      rw [Option.elim_some, measured_eq_success_iff.mpr (hlength value (hlists.mem_of_contentLength hcase hvalue))]

/-- **When the case makes no difference to a request.** -/
theorem caseBlind_iff (h : Written line fields) :
    CaseBlind (unpackAndCompleted new) line fields content ↔ CaseFree line fields content := by
  have hsmall : Recased fields (spelled small fields) := recased_spelled small_small
  refine (caseBlind_iff_of_capital unpackUrl new h (fun c hr => outcome_capital hr h) (fun c hr => ?_) ?_).trans ?_
  · obtain ⟨m, -, hout⟩ := exists_outcome hr (h.recased hsmall)
    exact ⟨_, hout⟩
  · apply outcome_of_not_reads id
    · exact fun _ _ => unpackAndCompleted_of_error
    · exact fun _ _ _ => unpackAndCompleted_of_ne
    · rfl
    · exact returns_unpackUrl new.line line
    · exact h
  · refine forall_congr' fun c => imp_congr_right fun hr => and_congr_right fun hunlettered => ?_
    exact outcomes_iff h fun fields' hcase => hr.of_unlettered h hunlettered hcase

end Request

/-! ### Responses -/

namespace Response

theorem measured_eq_fail_iff {value : Bytes} :
    measured value c .Fail = .Fail ↔ ∀ z, stoi 10 value = .ok z → toUInt64 z ≠ c.length := by
  rw [measured]
  cases stoi 10 value with
  | error e => simp
  | ok z => simp

/-- What the caller learns of a response that is read and has a length. -/
theorem exists_outcome (hr : Reads parseStatus new line fields content c) (h : Written line fields) :
    ∃ m : Response, Lists m.heads_ fields ∧ m.content_ = c ∧
      (∀ value, m.contentLength = some value →
        outcome (unpackAndCompleted new (text line fields content)) = .ok (measured value c .Fail, c)) ∧
      (m.contentLength = none → outcome (unpackAndCompleted new (text line fields content)) =
        if m.heads_[bytes "Transfer-Encoding"]? = some (bytes "chunked") then outcome (isCompletedChunked m)
        else .ok (.Fail, c)) := by
  obtain ⟨m, hm, rfl, hlists⟩ := hr.unpack rfl h
  refine ⟨m, hlists, rfl, fun value hvalue => ?_, fun hnone => ?_⟩
  · rw [unpackAndCompleted_of_length hm hvalue, outcome_ok]
  · rw [unpackAndCompleted_of_none hm hnone]
    split <;> rfl

/-- A chunked content is waited for if it breaks off. -/
theorem outcome_isCompletedChunked_iff {m : Response} (hlen : m.content_.length < 2 ^ 63) :
    outcome (isCompletedChunked m) = .ok (.Fail, m.content_) ↔ Unfinished m.content_ := by
  constructor
  · intro h
    obtain ⟨m', hm', -⟩ := exists_of_outcome h
    obtain ⟨content, hloop, -⟩ := isCompletedChunked_eq_ok hm'
    exact exists_breaksOff hlen hloop
  · intro h
    rw [(isCompletedChunked_eq_fail_iff hlen).mpr h, outcome_ok]

/-- The spelling in which the code knows this name, and no other. -/
def spellEncoding (name : Bytes) : Bytes :=
  if small name = bytes "transfer-encoding" then bytes "Transfer-Encoding" else capital name

theorem small_spellEncoding (name : Bytes) : small (spellEncoding name) = small name := by
  rw [spellEncoding]
  split
  · next h => rw [h]; decide
  · exact small_capital name

theorem spellEncoding_ne (name : Bytes) :
    spellEncoding name ≠ bytes "Content-Length" ∧ spellEncoding name ≠ bytes "content-length" := by
  rw [spellEncoding]
  split
  · decide
  · exact ⟨(capital_ne name).1, (capital_ne name).2.1⟩

/-- A response that is not read, or whose content is the same in all spellings, has not the length that stands
under `content-length` in any case, and breaks off if it is chunked by a header in any case. -/
def CaseFree (line : Bytes) (fields : List (Bytes × Bytes)) (content : Bytes) : Prop :=
  ∀ c, Reads parseStatus new line fields content c → Unlettered line fields content ∧
    (∀ value, (bytes "content-length", 32 :: value) ∈ spelled small fields →
      ∀ z, stoi 10 value = .ok z → toUInt64 z ≠ c.length) ∧
    ((bytes "transfer-encoding", 32 :: bytes "chunked") ∈ spelled small fields → Unfinished c)

/-- In capitals, no response counts as whole. -/
theorem outcome_capital (hr : Reads parseStatus new line (spelled capital fields) content c)
    (h : Written line fields) :
    outcome (unpackAndCompleted new (text line (spelled capital fields) content)) = .ok (.Fail, c) := by
  obtain ⟨m, hlists, -, -, hnone⟩ := exists_outcome hr (h.recased (recased_spelled small_capital))
  rw [hnone hlists.contentLength_of_capital, if_neg]
  intro hknown
  obtain ⟨name, -, hname⟩ := mem_spelled_iff.mp ((hlists _ _ (by decide)).mp hknown)
  exact (capital_ne name).2.2 hname

/-- In small letters, chunks are not put together. -/
theorem exists_outcome_small (hr : Reads parseStatus new line (spelled small fields) content c)
    (h : Written line fields) :
    ∃ rst, outcome (unpackAndCompleted new (text line (spelled small fields) content)) = .ok (rst, c) := by
  obtain ⟨m, hlists, -, hsome, hnone⟩ := exists_outcome hr (h.recased (recased_spelled small_small))
  cases hvalue : m.contentLength with
  | some value => exact ⟨_, hsome value hvalue⟩
  | none =>
    refine ⟨.Fail, ?_⟩
    rw [hnone hvalue, if_neg]
    intro hknown
    obtain ⟨name, -, hname⟩ := mem_spelled_iff.mp ((hlists _ _ (by decide)).mp hknown)
    have hsmall := small_small name
    rw [hname] at hsmall
    exact absurd hsmall (by decide)

/-- If no spelling counts as whole, the content has not the length that is read in small letters. -/
theorem length_ne_of_outcomes (h : Written line fields)
    (hall : ∀ fields', Recased fields fields' → Reads parseStatus new line fields' content c ∧
      outcome (unpackAndCompleted new (text line fields' content)) = .ok (.Fail, c)) {value : Bytes}
    (hvalue : (bytes "content-length", 32 :: value) ∈ spelled small fields) :
    ∀ z, stoi 10 value = .ok z → toUInt64 z ≠ c.length := by
  have hsmall : Recased fields (spelled small fields) := recased_spelled small_small
  obtain ⟨hr, hfail⟩ := hall _ hsmall
  obtain ⟨m, hlists, -, hlength, -⟩ := exists_outcome hr (h.recased hsmall)
  have hout := hlength value (hlists.contentLength_of_small hvalue)
  rw [hfail, Except.ok.injEq, Prod.mk.injEq] at hout
  exact measured_eq_fail_iff.mp hout.1.symm

/-- And if it is chunked, it breaks off: there is a spelling in which only that is read. -/
theorem unfinished_of_outcomes (h : Written line fields) (hlen : c.length < 2 ^ 63)
    (hall : ∀ fields', Recased fields fields' → Reads parseStatus new line fields' content c ∧
      outcome (unpackAndCompleted new (text line fields' content)) = .ok (.Fail, c))
    (hchunked : (bytes "transfer-encoding", 32 :: bytes "chunked") ∈ spelled small fields) : Unfinished c := by
  have hencoding : Recased fields (spelled spellEncoding fields) := recased_spelled small_spellEncoding
  obtain ⟨hr, hfail⟩ := hall _ hencoding
  obtain ⟨m, hlists, rfl, -, hnone⟩ := exists_outcome hr (h.recased hencoding)
  have hno : m.contentLength = none := by
    refine hlists.contentLength_eq_none fun f hf => ?_
    obtain ⟨name, -, hname⟩ := mem_spelled_iff.mp hf
    exact hname ▸ spellEncoding_ne name
  obtain ⟨name, hmem, hname⟩ := mem_spelled_iff.mp hchunked
  have hknown := (hlists (bytes "Transfer-Encoding") (bytes "chunked") (by decide)).mpr
    (mem_spelled_iff.mpr ⟨name, hmem, if_pos hname⟩)
  have hout := hnone hno
  rw [if_pos hknown, hfail] at hout
  exact (outcome_isCompletedChunked_iff hlen).mp hout.symm

/-- Else no spelling counts as whole. -/
theorem outcome_of_unfinished (h : Written line fields) (hlen : c.length < 2 ^ 63) (hcase : Recased fields fields')
    (hlength : ∀ value, (bytes "content-length", 32 :: value) ∈ spelled small fields →
      ∀ z, stoi 10 value = .ok z → toUInt64 z ≠ c.length)
    (hchunked : (bytes "transfer-encoding", 32 :: bytes "chunked") ∈ spelled small fields → Unfinished c)
    (hr : Reads parseStatus new line fields' content c) :
    outcome (unpackAndCompleted new (text line fields' content)) = .ok (.Fail, c) := by
  obtain ⟨m, hlists, rfl, hsome, hnone⟩ := exists_outcome hr (h.recased hcase)
  cases hvalue : m.contentLength with
  | some value =>
    rw [hsome value hvalue, measured_eq_fail_iff.mpr (hlength value (hlists.mem_of_contentLength hcase hvalue))]
  | none =>
    rw [hnone hvalue]
    split
    · next hknown =>
      have hmem := hcase.mem_small ((hlists _ _ (by decide)).mp hknown)
      exact (outcome_isCompletedChunked_iff hlen).mpr (hchunked hmem)
    · rfl

/-- **When the case makes no difference to a response.** -/
theorem caseBlind_iff (h : Written line fields) (hsize : (text line fields content).length < 2 ^ 63) :
    CaseBlind (unpackAndCompleted new) line fields content ↔ CaseFree line fields content := by
  refine (caseBlind_iff_of_capital parseStatus new h (fun c hr => outcome_capital hr h)
    (fun c hr => exists_outcome_small hr h) ?_).trans ?_
  · apply outcome_of_not_reads fun _ => .Fail
    · exact fun _ _ => unpackAndCompleted_of_error
    · exact fun _ _ _ => unpackAndCompleted_of_ne
    · rfl
    · exact returns_parseStatus new.line line
    · exact h
  refine forall_congr' fun c => imp_congr_right fun hr => and_congr_right fun hunlettered => ?_
  have hlen : c.length < 2 ^ 63 := Nat.lt_of_le_of_lt (length_le_of_taken hr.content_eq) hsize
  constructor
  · intro hall
    have hboth (fields' : List (Bytes × Bytes)) (hcase : Recased fields fields') :
        Reads parseStatus new line fields' content c ∧
          outcome (unpackAndCompleted new (text line fields' content)) = .ok (.Fail, c) :=
      ⟨hr.of_unlettered h hunlettered hcase, hall fields' hcase (hr.of_unlettered h hunlettered hcase)⟩
    exact ⟨fun value => length_ne_of_outcomes h hboth, unfinished_of_outcomes h hlen hboth⟩
  · rintro ⟨hlength, hchunked⟩ fields' hcase hr'
    exact outcome_of_unfinished h hlen hcase hlength hchunked hr'

end Response

/-! ### Both -/

/-- **When the letter case of header names makes no difference**: when what the headers say is what is taken for
granted without them. -/
theorem letterCase_iff (h : Written line fields) (hsize : (text line fields content).length < 2 ^ 63) :
    (CaseBlind (Request.unpackAndCompleted .new) line fields content ↔ Request.CaseFree line fields content) ∧
      (CaseBlind (Response.unpackAndCompleted .new) line fields content ↔ Response.CaseFree line fields content) :=
  ⟨Request.caseBlind_iff h, Response.caseBlind_iff h hsize⟩

/-- Headers of which the code knows none as they are written. -/
def sampleFields : List (Bytes × Bytes) :=
  [(bytes "TRANSFER-encoding", bytes " chunked"), (bytes "Content-length", bytes " 5"), (bytes "Host", bytes "a")]

theorem letterCase_iff_sample :
    (CaseBlind (Request.unpackAndCompleted .new) (bytes "PUT / HTTP/1.1") sampleFields (bytes "ab") ↔
      Request.CaseFree (bytes "PUT / HTTP/1.1") sampleFields (bytes "ab")) ∧
    (CaseBlind (Response.unpackAndCompleted .new) (bytes "PUT / HTTP/1.1") sampleFields (bytes "ab") ↔
      Response.CaseFree (bytes "PUT / HTTP/1.1") sampleFields (bytes "ab")) :=
  letterCase_iff ⟨by decide, by decide, by decide, by decide, by decide⟩ (by decide)

/-- **Capitals**: a request with three bytes to come counts as whole, and a response that is whole does not. -/
theorem not_letterCase :
    Written (bytes "PUT / HTTP/1.1") [(bytes "Content-Length", bytes " 5")] ∧
      ¬ CaseBlind (Request.unpackAndCompleted .new) (bytes "PUT / HTTP/1.1")
        [(bytes "Content-Length", bytes " 5")] (bytes "ab") ∧
    Written (bytes "HTTP/1.1 200 OK") [(bytes "Content-Length", bytes " 2")] ∧
      ¬ CaseBlind (Response.unpackAndCompleted .new) (bytes "HTTP/1.1 200 OK")
        [(bytes "Content-Length", bytes " 2")] (bytes "ab") := by
  refine ⟨⟨by decide, by decide, by decide, by decide, by decide⟩, fun hblind => ?_,
    ⟨by decide, by decide, by decide, by decide, by decide⟩, fun hblind => ?_⟩
  · have hsame := hblind [(bytes "CONTENT-LENGTH", bytes " 5")] (by decide)
    have hcapital : outcome (Request.unpackAndCompleted .new (text (bytes "PUT / HTTP/1.1")
      [(bytes "CONTENT-LENGTH", bytes " 5")] (bytes "ab"))) = .ok (.Success, bytes "ab") := rfl
    have hknown : outcome (Request.unpackAndCompleted .new (text (bytes "PUT / HTTP/1.1")
      [(bytes "Content-Length", bytes " 5")] (bytes "ab"))) = .ok (.Fail, bytes "ab") := rfl
    rw [hcapital, hknown] at hsame
    cases hsame
  · have hsame := hblind [(bytes "CONTENT-LENGTH", bytes " 2")] (by decide)
    have hcapital : outcome (Response.unpackAndCompleted .new (text (bytes "HTTP/1.1 200 OK")
      [(bytes "CONTENT-LENGTH", bytes " 2")] (bytes "ab"))) = .ok (.Fail, bytes "ab") := rfl
    have hknown : outcome (Response.unpackAndCompleted .new (text (bytes "HTTP/1.1 200 OK")
      [(bytes "Content-Length", bytes " 2")] (bytes "ab"))) = .ok (.Success, bytes "ab") := rfl
    rw [hcapital, hknown] at hsame
    cases hsame

/-! ### Two spellings -/

/-- The names that the code knows stand in both, before the same values, or in neither. -/
def Alike (fields fields' : List (Bytes × Bytes)) : Prop :=
  ∀ name ∈ [bytes "Content-Length", bytes "content-length", bytes "Transfer-Encoding"], ∀ value,
    (name, 32 :: value) ∈ fields' ↔ (name, 32 :: value) ∈ fields

/-- What is read under a name. -/
theorem Lists.getElem?_eq {heads heads' : StringMap} (hm : Lists heads fields) (hm' : Lists heads' fields')
    {name : Bytes} (hname : 58 ∉ name)
    (h : ∀ value, (name, 32 :: value) ∈ fields' ↔ (name, 32 :: value) ∈ fields) : heads'[name]? = heads[name]? := by
  refine Option.ext fun value => ?_
  rw [hm' name value hname, hm name value hname, h value]

/-- What is read of the length, where it is written alike. -/
theorem Lists.contentLength_eq {Line : Type} {m m' : Message Line} (hm : Lists m.heads_ fields)
    (hm' : Lists m'.heads_ fields') (h : Alike fields fields') : m'.contentLength = m.contentLength := by
  rw [Message.contentLength, Message.contentLength, hm.getElem?_eq hm' (by decide) (h _ (by simp)),
    hm.getElem?_eq hm' (by decide) (h _ (by simp))]

/-- The length that is read stands under one of the two names. -/
theorem Lists.contentLength_eq_some_iff {Line : Type} {m : Message Line} (hm : Lists m.heads_ fields)
    (h : Written line fields) {value : Bytes} : m.contentLength = some value ↔
      (bytes "Content-Length", 32 :: value) ∈ fields ∨ (bytes "content-length", 32 :: value) ∈ fields := by
  rw [← hm _ _ (by decide), ← hm _ _ (by decide), Message.contentLength]
  cases hlength : m.heads_[bytes "Content-Length"]? with
  | none => simp
  | some v =>
    -- the other name is the same up to case
    have hdistinct : (fields.map fun f => small f.1).Nodup := by
      simpa only [spelled, List.map_map, Function.comp_def] using h.distinct
    have hno : m.heads_[bytes "content-length"]? ≠ some value := by
      intro hother
      have hsmall : small (bytes "Content-Length") = small (bytes "content-length") := by decide
      have heq := List.inj_on_of_nodup_map hdistinct ((hm _ _ (by decide)).mp hlength)
        ((hm _ _ (by decide)).mp hother) hsmall
      exact absurd (Prod.mk.inj heq).1 (by decide)
    simp [hno]

namespace Request

/-- The length that the code finds is no `int`, or that of the content. -/
def LengthAgrees (fields : List (Bytes × Bytes)) (c : Bytes) : Prop :=
  ∀ value, (bytes "Content-Length", 32 :: value) ∈ fields ∨ (bytes "content-length", 32 :: value) ∈ fields →
    ∀ z, stoi 10 value = .ok z → toUInt64 z = c.length

/-- What the caller learns of a request that is read, by its headers. -/
theorem outcome_eq (hr : Reads unpackUrl new line fields content c) (h : Written line fields) : ∃ rst,
    outcome (unpackAndCompleted new (text line fields content)) = .ok (rst, c) ∧ (rst = .Success ∨ rst = .Fail) ∧
      (rst = .Success ↔ LengthAgrees fields c) := by
  obtain ⟨m, hlists, hout⟩ := exists_outcome hr h
  refine ⟨_, hout, ?_⟩
  rw [LengthAgrees]
  simp only [← hlists.contentLength_eq_some_iff h]
  cases hvalue : m.contentLength with
  | none => exact ⟨.inl rfl, by simp⟩
  | some value =>
    refine ⟨?_, ?_⟩
    · rw [Option.elim_some, measured]
      split
      · split
        · exact .inl rfl
        · exact .inr rfl
      · exact .inl rfl
    · rw [Option.elim_some, measured_eq_success_iff]
      simp only [Option.some.injEq, forall_eq']

/-- **When two spellings of a request make no difference**: when the length that the code finds in the one agrees
with the content as it does in the other. -/
theorem outcomes_eq_iff (h : Written line fields) (hcase : Recased fields fields')
    (hr : Reads unpackUrl new line fields content c) (hr' : Reads unpackUrl new line fields' content c) :
    outcome (unpackAndCompleted new (text line fields' content)) =
      outcome (unpackAndCompleted new (text line fields content)) ↔
        (LengthAgrees fields' c ↔ LengthAgrees fields c) := by
  obtain ⟨rst, hout, hrst, hiff⟩ := outcome_eq hr h
  obtain ⟨rst', hout', hrst', hiff'⟩ := outcome_eq hr' (h.recased hcase)
  rw [hout, hout', ← hiff, ← hiff', Except.ok.injEq, Prod.mk.injEq]
  obtain rfl | rfl := hrst <;> obtain rfl | rfl := hrst' <;> simp

end Request

namespace Response

/-- **Two spellings of a response make no difference** when the names that the code knows are written alike. -/
theorem outcomes_eq (h : Written line fields) (hcase : Recased fields fields') (halike : Alike fields fields')
    (hr : Reads parseStatus new line fields content c) (hr' : Reads parseStatus new line fields' content c) :
    outcome (unpackAndCompleted new (text line fields' content)) =
      outcome (unpackAndCompleted new (text line fields content)) := by
  obtain ⟨m, hlists, hc, hsome, hnone⟩ := exists_outcome hr h
  obtain ⟨m', hlists', hc', hsome', hnone'⟩ := exists_outcome hr' (h.recased hcase)
  have hlength := hlists.contentLength_eq hlists' halike
  cases hvalue : m.contentLength with
  | some value => rw [hsome value hvalue, hsome' value (hlength.trans hvalue)]
  | none =>
    have hwhole : outcome (isCompletedChunked m') = outcome (isCompletedChunked m) := by
      rw [isCompletedChunked, isCompletedChunked, hc, hc']
      cases chunkLoop c (chunkRounds c) 0 [] <;> rfl
    rw [hnone hvalue, hnone' (hlength.trans hvalue), hwhole,
      hlists.getElem?_eq hlists' (by decide) (halike _ (by simp))]

end Response

/-! ### Short heads -/

/-- In a short head no letter is taken for content. -/
theorem forall_reads_iff {Line : Type} {parse : Line → Bytes → Exec (ℤ × Line)} {m₀ : Message Line}
    (hshort : (joinLines line (fields.map fieldLine)).length + 4 < 2 ^ 31) {p : Bytes → Prop} :
    (∀ c, Reads parse m₀ line fields content c → Unlettered line fields content ∧ p c) ↔
      ((∃ line₁, parse m₀.line line = .ok (0, line₁)) →
        (∀ f ∈ fields, search (bytes ": ") (fieldLine f) ≠ none) → p content) := by
  have htaken (fields' : List (Bytes × Bytes)) (hcase : Recased fields fields') :
      taken line fields' content = .ok content :=
    taken_of_short (hcase.length_joinLines line ▸ hshort)
  constructor
  · intro hall hfirst hheads
    refine (hall content ⟨?_, hfirst, hheads, htaken fields rfl⟩).2
    rw [toInt32_of_lt (by omega)]
    omega
  · intro hall c hr
    have hc := (htaken fields rfl).symm.trans hr.content_eq
    rw [Except.ok.injEq] at hc
    subst hc
    refine ⟨?_, hall hr.first hr.heads⟩
    rw [Unlettered, htaken _ (recased_spelled small_capital), htaken _ (recased_spelled small_small)]

/-- **The case of a message with a short head**: it makes no difference to a request if the length, in any
case, is that of the content, and none to a response if it is not and the chunks break off. -/
theorem caseBlind_iff_of_short (h : Written line fields) (hsize : (text line fields content).length < 2 ^ 63)
    (hshort : (joinLines line (fields.map fieldLine)).length + 4 < 2 ^ 31)
    (hheads : ∀ f ∈ fields, search (bytes ": ") (fieldLine f) ≠ none) :
    (CaseBlind (Request.unpackAndCompleted .new) line fields content ↔
      ((∃ line₁, Request.unpackUrl Request.new.line line = .ok (0, line₁)) →
        ∀ value, (bytes "content-length", 32 :: value) ∈ spelled small fields →
          ∀ z, stoi 10 value = .ok z → toUInt64 z = content.length)) ∧
    (CaseBlind (Response.unpackAndCompleted .new) line fields content ↔
      (Response.AcceptsStatus line →
        (∀ value, (bytes "content-length", 32 :: value) ∈ spelled small fields →
          ∀ z, stoi 10 value = .ok z → toUInt64 z ≠ content.length) ∧
        ((bytes "transfer-encoding", 32 :: bytes "chunked") ∈ spelled small fields →
          Response.Unfinished content))) := by
  rw [Request.caseBlind_iff h, Response.caseBlind_iff h hsize, Request.CaseFree, Response.CaseFree,
    forall_reads_iff hshort, forall_reads_iff hshort, Response.parseStatus_eq_zero_iff]
  simp only [imp_iff_right hheads, and_self]

end UvCpp.Http
