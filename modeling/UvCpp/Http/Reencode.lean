import UvCpp.Http.Reparse
import Mathlib.Data.List.Perm.Subperm
import Mathlib.Algebra.Order.BigOperators.Group.List

/-!
# Writing what was read

`unpack` accepts more than `pack` writes: versions that are not known, targets that begin with another
character than a slash, targets with a value behind a colon, and parameters in any order, also twice. What
is read of a head stands there in pieces (`Parted`); so what is written of it has the same pieces, and is
never longer (`length_head_le`).

A request that was read is read again from what it writes, exactly if the version is known, the target
begins with a slash, and no colon stands in it but at its end (`reencode_iff`).
-/

namespace UvCpp.Http

open UvCpp.Cpp

/-! ### Entries that were put into a map -/

/-- Entries that were put into a map, in any order and some of them twice, are not fewer there. -/
theorem sum_toList_le (its : List (Bytes × Bytes)) (size : Bytes × Bytes → ℕ) :
    ((its.foldl (fun m it => m.insert it.1 it.2) (∅ : StringMap)).toList.map size).sum ≤ (its.map size).sum := by
  have hnodup : (its.foldl (fun m it => m.insert it.1 it.2) (∅ : StringMap)).toList.Nodup := by
    refine Std.ExtTreeMap.distinct_keys_toList.imp ?_
    rintro it it' hne rfl
    exact hne Std.ReflCmp.compare_self
  obtain ⟨l, hperm, hsub⟩ := List.subperm_of_subset hnodup fun it hit => mem_of_mem_toList_foldl hit
  rw [← (hperm.map size).sum_eq]
  exact (hsub.map size).sum_le_sum fun _ _ => Nat.zero_le _

namespace Request

/-! ### The pieces of a target -/

/-- The names and values that are read stand in the query. -/
theorem Parameters.pieces {q : Bytes} {params : List (Bytes × Bytes)} (h : Parameters q params) :
    ∀ ele ∈ params, (61 ∉ ele.1 ∧ 38 ∉ ele.2) ∧ ele.1 <:+: q ∧ ele.2 <:+: q := by
  induction h with
  | done => simp
  | @last key value hkey hvalue =>
    rw [List.forall_mem_singleton]
    exact ⟨⟨hkey, hvalue⟩, ⟨[], 61 :: value, by simp⟩, ⟨key ++ [61], [], by simp⟩⟩
  | @more key value q params hkey hvalue _ ih =>
    rw [List.forall_mem_cons]
    refine ⟨⟨⟨hkey, hvalue⟩, ⟨[], 61 :: (value ++ 38 :: q), by simp⟩, ⟨key ++ [61], 38 :: q, by simp⟩⟩, ?_⟩
    intro ele hele
    have hq : q <:+: key ++ 61 :: (value ++ 38 :: q) := ⟨key ++ 61 :: (value ++ [38]), [], by simp⟩
    obtain ⟨hplain, hname, hvalue⟩ := ih ele hele
    exact ⟨hplain, hname.trans hq, hvalue.trans hq⟩

/-- A parameter, written with the characters around it. -/
def paramLength (ele : Bytes × Bytes) : ℕ := ele.1.length + ele.2.length + 2

/-- They stand there side by side. -/
theorem Parameters.sum_le {q : Bytes} {params : List (Bytes × Bytes)} (h : Parameters q params) :
    (params.map paramLength).sum ≤ q.length + 1 := by
  induction h with
  | done => simp
  | last => simp [paramLength]
  | more _ _ _ ih =>
    simp [paramLength]
    omega

/-- How a target is parted: at its first colon, if it has one; else at its first question mark, if it has
one; else not at all. -/
inductive Parted : Bytes → Bytes → Bytes → List (Bytes × Bytes) → Prop where
  /-- A colon. -/
  | colon {a : Bytes} (b : Bytes) : 58 ∉ a → Parted (a ++ 58 :: b) (a ++ [58]) b []
  /-- A question mark. -/
  | query {t q : Bytes} {params : List (Bytes × Bytes)} : 58 ∉ t ++ 63 :: q → 63 ∉ t → Parameters q params →
      Parted (t ++ 63 :: q) t [] params
  /-- Neither. -/
  | path {t : Bytes} : 58 ∉ t → 63 ∉ t → Parted t t [] []

/-- **A request without a value reads a target by its parts.** -/
theorem exists_parted (str : Bytes) : ∃ path value params, Parted str path value params ∧
    ∀ r : RequestLine, r.value_ = [] → unpackPath r str = .ok (0, { r with
      path_ := path, value_ := value, urlParms_ := params.foldl (fun m ele => m.insert ele.1 ele.2) ∅ }) := by
  by_cases hcolon : 58 ∈ str
  · obtain ⟨a, b, rfl, ha⟩ := List.eq_append_cons_of_mem hcolon
    exact ⟨_, b, [], .colon b ha, fun r _ => unpackPath_of_colon ha b r⟩
  · by_cases hquestion : 63 ∈ str
    · obtain ⟨t, q, rfl, ht⟩ := List.eq_append_cons_of_mem hquestion
      obtain ⟨params, hparams⟩ := exists_parameters q
      refine ⟨t, [], params, .query hcolon ht hparams, fun r hr => ?_⟩
      rw [unpackPath_of_query hcolon ht hparams, ← hr]
    · refine ⟨str, [], [], .path hcolon hquestion, fun r hr => ?_⟩
      rw [unpackPath_of_path hcolon hquestion, ← hr]
      rfl

section Parted

variable {str path value : Bytes} {params : List (Bytes × Bytes)}

/-- The parts stand in the target. -/
theorem Parted.pieces (h : Parted str path value params) : path <:+: str ∧
    ∀ ele ∈ params, (61 ∉ ele.1 ∧ 38 ∉ ele.2) ∧ ele.1 <:+: str ∧ ele.2 <:+: str := by
  cases h with
  | colon => exact ⟨⟨[], value, by simp⟩, by simp⟩
  | @query _ q _ _ _ hparams =>
    refine ⟨⟨[], 63 :: q, by simp⟩, fun ele hele => ?_⟩
    have hq : q <:+: path ++ 63 :: q := ⟨path ++ [63], [], by simp⟩
    obtain ⟨hplain, hname, hvalue⟩ := hparams.pieces ele hele
    exact ⟨hplain, hname.trans hq, hvalue.trans hq⟩
  | path => exact ⟨List.infix_rfl, by simp⟩

/-- They stand there side by side. -/
theorem Parted.sum_le (h : Parted str path value params) :
    path.length + (params.map paramLength).sum ≤ str.length := by
  cases h with
  | colon => simp
  | query _ _ hparams =>
    have hle := hparams.sum_le
    rw [List.length_append, List.length_cons]
    omega
  | path => simp

/-- The path begins with a slash when the target does. -/
theorem Parted.head?_iff (h : Parted str path value params) : path.head? = some 47 ↔ str.head? = some 47 := by
  cases h with
  | @colon a => cases a <;> simp
  | query => cases path <;> simp
  | path => rfl

/-- Without a colon there is no value. -/
theorem Parted.of_notMem (h : Parted str path value params) (hcolon : 58 ∉ str) : 63 ∉ path ∧ value = [] := by
  cases h with
  | colon => simp at hcolon
  | query _ hquestion => exact ⟨hquestion, rfl⟩
  | path _ hquestion => exact ⟨hquestion, rfl⟩

/-- With a colon, the path ends with it, and what follows is the value. -/
theorem Parted.of_mem (h : Parted str path value params) (hcolon : 58 ∈ str) :
    params = [] ∧ ∃ a, 58 ∉ a ∧ path = a ++ [58] ∧ str = a ++ 58 :: value := by
  cases h with
  | @colon a _ ha => exact ⟨rfl, a, ha, rfl, rfl⟩
  | query hnot => exact absurd hcolon hnot
  | path hnot => exact absurd hcolon hnot

end Parted

/-! ### The target that is written -/

/-- No CRLF comes into a query where parameters are put together. -/
theorem search_query {a : Bytes} {c : UInt8} {params : List (Bytes × Bytes)} (ha : search [13, 10] a = none)
    (h13 : c ≠ 13) (h10 : c ≠ 10)
    (hparams : ∀ ele ∈ params, search [13, 10] ele.1 = none ∧ search [13, 10] ele.2 = none) :
    search [13, 10] (a ++ query c params) = none := by
  induction params generalizing a c with
  | nil => rwa [query, List.append_nil]
  | cons ele params ih =>
    obtain ⟨hname, hvalue⟩ := hparams ele List.mem_cons_self
    have hrest := ih (c := 38) hvalue (by decide) (by decide) fun e he => hparams e (List.mem_cons_of_mem ele he)
    rw [query, search_pair_eq_none_iff h13 h10, search_pair_eq_none_iff (by decide) (by decide)]
    exact ⟨ha, hname, hrest⟩

/-- How long a query is. -/
theorem length_query (c : UInt8) (params : List (Bytes × Bytes)) :
    (query c params).length = (params.map paramLength).sum := by
  induction params generalizing c with
  | nil => rfl
  | cons ele params ih =>
    simp only [query, List.length_cons, List.length_append, ih, List.map_cons, List.sum_cons, paramLength]
    omega

/-- A first line whose target was read from some bytes. -/
structure ReadFrom (r : RequestLine) (str : Bytes) (params : List (Bytes × Bytes)) : Prop where
  /-- The path and the value are parts of the bytes. -/
  parted : Parted str r.path_ r.value_ params
  /-- So are the parameters. -/
  urlParms : r.urlParms_ = params.foldl (fun m ele => m.insert ele.1 ele.2) ∅

section ReadFrom

variable {r : RequestLine} {str : Bytes} {params : List (Bytes × Bytes)}

theorem ReadFrom.pieces (h : ReadFrom r str params) : ∀ ele ∈ r.urlParms_.toList,
    (61 ∉ ele.1 ∧ 38 ∉ ele.2) ∧ ele.1 <:+: str ∧ ele.2 <:+: str := by
  intro ele hele
  rw [h.urlParms] at hele
  exact h.parted.pieces.2 ele (mem_of_mem_toList_foldl hele)

/-- What is written holds the characters that were read, and separators. -/
theorem ReadFrom.mem_target (h : ReadFrom r str params) :
    ∀ c ∈ target r, c = 63 ∨ c = 38 ∨ c = 61 ∨ c ∈ str := by
  intro c hc
  rcases List.mem_append.mp hc with hc | hc
  · exact .inr (.inr (.inr (h.parted.pieces.1.subset hc)))
  · refine query_all (P := fun c => c = 63 ∨ c = 38 ∨ c = 61 ∨ c ∈ str) (by simp) (by simp) (by simp) ?_ c hc
    intro ele hele x hx
    obtain ⟨-, hname, hvalue⟩ := h.pieces ele hele
    rcases List.mem_append.mp hx with hx | hx
    · exact .inr (.inr (.inr (hname.subset hx)))
    · exact .inr (.inr (.inr (hvalue.subset hx)))

/-- It is one line if that was one. -/
theorem ReadFrom.search_target (h : ReadFrom r str params) (hstr : search [13, 10] str = none) :
    search [13, 10] (target r) = none := by
  refine search_query (search_eq_none_of_isInfix (by simp) h.parted.pieces.1 hstr) (by decide)
    (by decide) fun ele hele => ?_
  obtain ⟨-, hname, hvalue⟩ := h.pieces ele hele
  exact ⟨search_eq_none_of_isInfix (by simp) hname hstr, search_eq_none_of_isInfix (by simp) hvalue hstr⟩

/-- It is not longer. -/
theorem ReadFrom.length_target (h : ReadFrom r str params) : (target r).length ≤ str.length := by
  have hparams := sum_toList_le params paramLength
  have hsum := h.parted.sum_le
  rw [← h.urlParms] at hparams
  rw [target, List.length_append, length_query]
  omega

/-- The first colon is the last character. -/
theorem dropLast_colon_iff {a b : Bytes} (ha : 58 ∉ a) : 58 ∉ (a ++ 58 :: b).dropLast ↔ b = [] := by
  rw [List.dropLast_append_of_ne_nil (by simp)]
  cases b with
  | nil => simpa using ha
  | cons => simp

/-- **It is read again**, if the path begins with a slash and there is no colon but at the end. -/
theorem ReadFrom.reread (h : ReadFrom r str params) (hcolon : 58 ∉ str.dropLast) {r₀ : RequestLine}
    (hr₀ : r₀.value_ = []) : unpackPath r₀ (target r) =
      .ok (0, { r₀ with path_ := r.path_, value_ := r.value_, urlParms_ := r.urlParms_ }) := by
  by_cases hmem : 58 ∈ str
  · obtain ⟨rfl, a, ha, hpath, hstr⟩ := h.parted.of_mem hmem
    have hnil : r.urlParms_ = ∅ := h.urlParms
    have hvalue : r.value_ = [] := (dropLast_colon_iff ha).mp (hstr ▸ hcolon)
    have htarget : target r = a ++ 58 :: [] := by
      rw [target, hpath, Std.ExtTreeMap.toList_eq_nil_iff.mpr hnil, query, List.append_nil]
    rw [htarget, unpackPath_of_colon ha, hpath, hvalue, hnil]
  · obtain ⟨hquestion, hvalue⟩ := h.parted.of_notMem hmem
    have hnot : 58 ∉ target r := fun hc => by simpa [hmem] using h.mem_target 58 hc
    rw [unpackPath_target hnot hquestion fun ele hele => (h.pieces ele hele).1, hvalue, ← hr₀]

end ReadFrom

/-! ### The head that is written -/

/-- The head that a request was read from. -/
structure Source (data : Bytes) (m : Request) (first : Bytes) (its : List (Bytes × Bytes))
    (methon target version : Bytes) (params : List (Bytes × Bytes)) : Prop where
  /-- Its lines. -/
  lines : ∃ pos, SplitHttpOfCRLF data = .ok (pos, first :: its.map headerLine)
  /-- The names of the headers. -/
  names : ∀ it ∈ its, search [58, 32] it.1 = none
  /-- The headers are in the map. -/
  heads : m.heads_ = its.foldl (fun m it => m.insert it.1 it.2) ∅
  /-- The words of the first line. -/
  words : ∃ code, SplitStrOfSpace first = .ok (code, [methon, target, version])
  /-- The first is a method. -/
  known : StrToMethon methon ≠ .Invalid
  /-- It is the method of the request. -/
  methon_eq : m.line.methon_ = StrToMethon methon
  /-- The last is its version. -/
  version_eq : m.line.version_ = GetHttpVersion version
  /-- The target is read. -/
  line : ReadFrom m.line target params

/-- A request that was read has one. -/
theorem exists_source {data : Bytes} {m : Request} (h : unpack new data = .ok (.Success, m)) :
    ∃ first its methon target version params, Source data m first its methon target version params := by
  obtain ⟨pos, first, its, hsplit, hits, hparse, hheads, -⟩ := Message.exists_lines_of_unpack h
  obtain ⟨code, methon, target, version, line, hwords, hmethon, hpath, hline⟩ := unpackUrl_eq_zero_iff.mp hparse
  obtain ⟨path, value, params, hparted, hread⟩ := exists_parted target
  have htarget := hread { new.line with methon_ := StrToMethon methon } rfl
  rw [hpath, Except.ok.injEq, Prod.mk.injEq] at htarget
  rw [htarget.2] at hline
  refine ⟨first, its, methon, target, version, params, ⟨pos, hsplit⟩, hits, hheads, ⟨code, hwords⟩, hmethon,
    ?_, ?_, ?_, ?_⟩
  · rw [hline]
  · rw [hline]
  · rw [hline]
    exact hparted
  · rw [hline]

section Source

variable {data : Bytes} {m : Request} {first : Bytes} {its : List (Bytes × Bytes)}
  {methon target version : Bytes} {params : List (Bytes × Bytes)}

/-- The target is a word in the first line. -/
theorem Source.target_word (h : Source data m first its methon target version params) :
    target ≠ [] ∧ 32 ∉ target ∧ search [13, 10] target = none := by
  obtain ⟨pos, hsplit⟩ := h.lines
  obtain ⟨code, hwords⟩ := h.words
  obtain ⟨s, s', hfirst, ⟨hne, -⟩, hword⟩ := exists_of_splitStrOfSpace hwords
  refine ⟨hword.1, hword.2, search_eq_none_of_isInfix (by simp) ?_ (isPrefix_of_split hsplit).2.1⟩
  -- the method stands in front of it, so that its line does not begin with it
  have hfront : s ++ methon ≠ [] := by simp [hne]
  obtain ⟨c, u, hcu⟩ := List.exists_cons_of_ne_nil hfront
  rw [← List.append_assoc, hcu] at hfirst
  exact ⟨u ++ 32 :: s', 32 :: version, by simp [hfirst]⟩

theorem Source.methon_ne (h : Source data m first its methon target version params) :
    m.line.methon_ ≠ .Invalid := h.methon_eq ▸ h.known

theorem Source.notMem_target (h : Source data m first its methon target version params) :
    32 ∉ Request.target m.line := fun hc => by simpa [h.target_word.2.1] using h.line.mem_target 32 hc

/-- **The lines stay apart** when they are written. -/
theorem Source.legible (h : Source data m first its methon target version params) :
    m.Legible (firstLine m.line) := by
  have htarget := h.line.search_target h.target_word.2.2
  have hwritten : search [13, 10] (written m.line) = none := by
    rw [written]
    split
    · exact htarget
    · exact (search_pair_eq_none_iff (by decide) (by decide) [] _).mpr ⟨rfl, htarget⟩
  have hmethon : 13 ∉ MethonToStr m.line.methon_ := by cases m.line.methon_ <;> decide
  have hversion : 13 ∉ HttpVersionToStr m.line.version_ := by cases m.line.version_ <;> decide
  refine ⟨?_, firstLine_ne_nil m.line, fun it hit => ?_⟩
  · rw [firstLine_eq, search_pair_eq_none_iff (by decide) (by decide),
      search_pair_eq_none_iff (by decide) (by decide)]
    exact ⟨search_eq_none hmethon, hwritten, search_eq_none hversion⟩
  · rw [h.heads] at hit
    have hmem := mem_of_mem_toList_foldl hit
    obtain ⟨pos, hsplit⟩ := h.lines
    exact ⟨h.names it hmem, (isPrefix_of_split hsplit).2.2 _ (List.mem_map_of_mem hmem)⟩

/-- **What is written is not longer** than what was read. -/
theorem Source.length_head_le (h : Source data m first its methon target version params)
    (hversion : m.line.version_ ≠ .Unknown) (hslash : m.line.path_.head? = some 47) :
    (m.head (firstLine m.line)).length ≤ data.length := by
  obtain ⟨pos, hsplit⟩ := h.lines
  obtain ⟨code, hwords⟩ := h.words
  obtain ⟨s, s', hfirst, -, -⟩ := exists_of_splitStrOfSpace hwords
  have hheads := sum_toList_le its fun it => (headerLine it).length + 2
  have htarget := h.line.length_target
  have hdata := (isPrefix_of_split hsplit).1.length_le
  have hmethon : MethonToStr m.line.methon_ = methon := by
    rw [h.methon_eq, methonToStr_strToMethon h.known]
  have hversion : HttpVersionToStr m.line.version_ = version := by
    rw [h.version_eq, toStr_getHttpVersion (h.version_eq ▸ hversion)]
  rw [← h.heads] at hheads
  rw [List.length_append, length_joinLines, List.map_map, hfirst] at hdata
  rw [Message.head, List.length_append, length_joinLines, List.map_map, firstLine_eq, written_of_slash hslash,
    hmethon, hversion]
  simp only [List.length_append, List.length_cons, Function.comp_def] at hdata ⊢
  omega

end Source

/-! ### The round trip -/

/-- Where the content begins is told right, if it is, by an `int`. -/
theorem short_of_substrFrom {joined : ℕ} {start : ℤ} {str content : Bytes}
    (hstart : addInt (toInt32 joined) 4 = .ok start) (hcontent : substrFrom str (toUInt64 start) = .ok content)
    (hlen : str.length = joined + 4 + content.length) (hsize : joined + 4 < 2 ^ 63) :
    joined + 4 < 2 ^ 31 := by
  rw [addInt] at hstart
  split at hstart
  · next hint =>
    rw [Except.ok.injEq] at hstart
    subst hstart
    rw [substrFrom] at hcontent
    split at hcontent
    · next hin =>
      have hdrop := congrArg List.length (Except.ok.inj hcontent)
      rw [List.length_drop] at hdrop
      have heq : toUInt64 (toInt32 joined + 4) = joined + 4 := by omega
      rw [IsInt] at hint
      rw [toUInt64] at heq
      split at heq
      · by_contra hlong
        have hne := toInt32_ne (n := joined)
        omega
      · omega
    · cases hcontent
  · cases hstart

/-- Bytes whose first line is written as it was read: the version is known, the target begins with a slash,
and there is no colon in it but at its end. -/
def Encodable (data : Bytes) : Prop :=
  ∃ methon target version, Words data methon target version ∧ GetHttpVersion version ≠ .Unknown ∧
    target.head? = some 47 ∧ 58 ∉ target.dropLast

section Source

variable {data : Bytes} {m : Request} {first : Bytes} {its : List (Bytes × Bytes)}
  {methon target version : Bytes} {params : List (Bytes × Bytes)}

theorem Source.encodable_iff (h : Source data m first its methon target version params) : Encodable data ↔
    m.line.version_ ≠ .Unknown ∧ m.line.path_.head? = some 47 ∧ 58 ∉ target.dropLast := by
  obtain ⟨pos, hsplit⟩ := h.lines
  obtain ⟨code, hwords⟩ := h.words
  simp only [Encodable, words_iff hsplit hwords, h.version_eq, h.line.parted.head?_iff]
  constructor
  · rintro ⟨_, _, _, ⟨rfl, rfl, rfl⟩, hrest⟩
    exact hrest
  · exact fun hrest => ⟨methon, target, version, ⟨rfl, rfl, rfl⟩, hrest⟩

/-- A first line that can be read is read as the same. -/
theorem Source.reread (h : Source data m first its methon target version params)
    (hversion : m.line.version_ ≠ .Unknown) (hslash : m.line.path_.head? = some 47)
    (hcolon : 58 ∉ target.dropLast) : unpackUrl new.line (firstLine m.line) = .ok (0, m.line) := by
  have hworded : Worded m.line := ⟨h.methon_ne, hversion, hslash, h.notMem_target⟩
  have hpath : unpackPath { new.line with methon_ := m.line.methon_ } (Request.target m.line) =
      .ok (0, { m.line with version_ := new.line.version_ }) := h.line.reread hcolon rfl
  have hread := hworded.unpackUrl hpath
  exact hread

/-- A first line that is read as the same has these properties. -/
theorem Source.of_reread (h : Source data m first its methon target version params)
    (hread : unpackUrl new.line (firstLine m.line) = .ok (0, m.line)) :
    m.line.version_ ≠ .Unknown ∧ m.line.path_.head? = some 47 ∧ 58 ∉ target.dropLast := by
  obtain ⟨code, _, str, _, line, hwords, -, hpath, hline⟩ := unpackUrl_eq_zero_iff.mp hread
  obtain ⟨hm1, hm2, -⟩ := methonToStr_word h.methon_ne
  have hwritten : written m.line ≠ [] ∧ 32 ∉ written m.line ∧ (written m.line).head? = some 47 := by
    rw [written]
    split
    · next hslash =>
      have hhead : (Request.target m.line).head? = some 47 := by
        rw [Request.target, List.head?_append, hslash]
        rfl
      exact ⟨fun hnil => by simp [hnil] at hhead, h.notMem_target, hhead⟩
    · exact ⟨by simp, by simp [h.notMem_target], rfl⟩
  obtain ⟨hw1, hw2, hw3⟩ := hwritten
  -- without a version there would be two words
  have hversion : m.line.version_ ≠ .Unknown := by
    intro hunknown
    rw [firstLine_eq, hunknown] at hwords
    have htwo := splitStrOfSpace_two hm1 hm2 hw1 hw2
    have hsame := htwo.symm.trans hwords
    simp at hsame
  obtain ⟨hv1, -, -⟩ := httpVersionToStr_word hversion
  rw [firstLine_eq, splitStrOfSpace_words hm1 hm2 hw1 hw2 hv1] at hwords
  simp only [Except.ok.injEq, Prod.mk.injEq, List.cons.injEq, and_true] at hwords
  obtain ⟨-, -, rfl, -⟩ := hwords
  -- the path that is read begins with a slash, because what is written does
  obtain ⟨path, value, params', hparted, hunpack⟩ := exists_parted (written m.line)
  rw [hunpack _ rfl, Except.ok.injEq, Prod.mk.injEq] at hpath
  have hpath' : m.line.path_ = path := by rw [hline, ← hpath.2]
  have hvalue' : m.line.value_ = value := by rw [hline, ← hpath.2]
  have hslash : m.line.path_.head? = some 47 := by rw [hpath', hparted.head?_iff, hw3]
  refine ⟨hversion, hslash, ?_⟩
  by_cases hmem : 58 ∈ target
  · -- the path that is read ends with the colon, and there is no value behind it
    obtain ⟨rfl, a, ha, hend, htarget⟩ := h.line.parted.of_mem hmem
    rw [htarget, dropLast_colon_iff ha]
    have hnil : m.line.urlParms_ = ∅ := h.line.urlParms
    rw [written_of_slash hslash, Request.target, hend, Std.ExtTreeMap.toList_eq_nil_iff.mpr hnil, query,
      List.append_nil] at hparted
    obtain ⟨-, a', ha', hend', hstr⟩ := hparted.of_mem (by simp)
    rw [← hpath', hend, List.append_left_inj] at hend'
    subst hend'
    rw [hvalue']
    simpa using hstr.symm
  · exact fun hlast => hmem (List.dropLast_subset target hlast)

end Source

/-- **When a request that was read can be written and read again**: if the version is known, the target begins
with a slash and no colon stands in it but at its end, and the head that is written is shorter than `2³¹`
bytes. -/
theorem reencode_iff (data : Bytes) (hdata : data.length < 2 ^ 63) (m : Request)
    (hm : unpack new data = .ok (.Success, m)) : unpack new (pack m) = .ok (.Success, m) ↔
      Encodable data ∧ (m.head (firstLine m.line)).length < 2 ^ 31 := by
  obtain ⟨first, its, methon, target, version, params, h⟩ := exists_source hm
  rw [h.encodable_iff]
  constructor
  · intro hagain
    obtain ⟨pos, first', headList, start, hsplit, -, hread, -, hstart, hcontent⟩ :=
      Message.unpack_eq_success_iff.mp hagain
    rw [pack, h.legible.split_pack, Except.ok.injEq, Prod.mk.injEq, List.cons.injEq] at hsplit
    obtain ⟨rfl, rfl, -⟩ := hsplit
    obtain ⟨hversion, hslash, hcolon⟩ := h.of_reread hread
    refine ⟨⟨hversion, hslash, hcolon⟩, ?_⟩
    have hle := h.length_head_le hversion hslash
    have hpack := congrArg List.length (Message.pack_eq (firstLine m.line) m)
    rw [Message.head] at hle hpack ⊢
    rw [List.length_append] at hle hpack ⊢
    rw [List.length_append] at hpack
    exact short_of_substrFrom hstart hcontent hpack (by
      simp only [List.length_cons, List.length_nil] at hle
      omega)
  · rintro ⟨⟨hversion, hslash, hcolon⟩, hshort⟩
    exact h.legible.unpack_pack hshort (h.reread hversion hslash hcolon) []

/-- A request with a header that comes twice, and parameters in another order than that of the map. -/
theorem reencode_iff_sample :
    ∃ m, unpack new (bytes "GET  /a?k=v&b=c HTTP/1.1\r\nB: c\r\nA: b\r\nB: d\r\n\r\nxyz") = .ok (.Success, m) ∧
      (unpack new (pack m) = .ok (.Success, m) ↔
        Encodable (bytes "GET  /a?k=v&b=c HTTP/1.1\r\nB: c\r\nA: b\r\nB: d\r\n\r\nxyz") ∧
          (m.head (firstLine m.line)).length < 2 ^ 31) := by
  have hm : unpack new (bytes "GET  /a?k=v&b=c HTTP/1.1\r\nB: c\r\nA: b\r\nB: d\r\n\r\nxyz") = .ok (.Success,
      ⟨⟨.Http1_1, .Get, bytes "/a", [], .ofList [(bytes "k", bytes "v"), (bytes "b", bytes "c")]⟩,
        .ofList [(bytes "B", bytes "c"), (bytes "A", bytes "b"), (bytes "B", bytes "d")], bytes "xyz"⟩) := rfl
  exact ⟨_, hm, reencode_iff _ (by decide) _ hm⟩

/-- **A version that is not known** is accepted; and it is written as nothing, which is refused. -/
theorem not_reencode : ∃ m, unpack new (bytes "GET /a HTTP/2.0\r\n\r\n") = .ok (.Success, m) ∧
    pack m = bytes "GET /a \r\n\r\n" ∧ (unpack new (pack m)).map Prod.fst = .ok .Error :=
  ⟨⟨⟨.Unknown, .Get, bytes "/a", [], ∅⟩, ∅, []⟩, rfl, rfl, rfl⟩

end Request

end UvCpp.Http
