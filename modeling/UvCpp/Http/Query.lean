import UvCpp.Http.Request
import Mathlib.Data.List.TakeWhile

/-!
# Queries

Behind a question mark a target holds parameters, in segments with an ampersand between them (`queryMap`).
The loop of `unpackPath` does not look for segments: it looks for the next equals sign, wherever that is, and
then for the next ampersand. So a segment without an equals sign becomes part of the name that follows it,
and the query is read as it should be only if no such segment stands before a parameter
(`unpackPath_segments_iff`).

A colon, too, is looked for in the whole target, and makes part of it a value. So a query with a colon in it
changes the path (`unpackPath_colon_iff`).
-/

namespace UvCpp.Http

open UvCpp.Cpp

/-- A segment of a query as a parameter: a name up to the first equals sign, if there is one, and a value. -/
def segmentParam (segment : Bytes) : Option (Bytes × Bytes) :=
  (search (bytes "=") segment).map fun p => (segment.take p, segment.drop (p + 1))

/-- The parameters in a query, segment by segment, a later one in place of an earlier one. -/
def queryMap (q : Bytes) : StringMap :=
  ((q.splitOn 38).filterMap segmentParam).foldl (fun m ele => m.insert ele.1 ele.2) ∅

/-- No segment without an equals sign stands before one with an equals sign. -/
def ParamsFirst (q : Bytes) : Prop := (q.splitOn 38).Pairwise fun s t => 61 ∈ t → 61 ∈ s

instance (q : Bytes) : Decidable (ParamsFirst q) := inferInstanceAs (Decidable (List.Pairwise _ _))

namespace Request

/-! ### Segments -/

theorem segmentParam_eq {key : Bytes} (hkey : 61 ∉ key) (value : Bytes) :
    segmentParam (key ++ 61 :: value) = some (key, value) := by
  have h0 : search [61] (61 :: value) = some 0 := search_append_self [61] value
  rw [segmentParam, bytes_equals, search_append hkey, h0]
  simp

theorem segmentParam_of_notMem {segment : Bytes} (h : 61 ∉ segment) : segmentParam segment = none := by
  rw [segmentParam, bytes_equals, search_eq_none h]
  rfl

/-- A name is a part of its segment. -/
theorem mem_of_segmentParam {segment : Bytes} {ele : Bytes × Bytes} (h : segmentParam segment = some ele)
    {c : UInt8} (hc : c ∈ ele.1) : c ∈ segment := by
  rw [segmentParam, Option.map_eq_some_iff] at h
  obtain ⟨p, -, rfl⟩ := h
  exact List.mem_of_mem_take hc

/-- A parameter without an ampersand in its name is a segment. -/
theorem splitOn_param {key value : Bytes} (hkey : 38 ∉ key) (hvalue : 38 ∉ value) (q : Bytes) :
    (key ++ 61 :: (value ++ 38 :: q)).splitOn 38 = (key ++ 61 :: value) :: q.splitOn 38 := by
  have hsegment : 38 ∉ key ++ 61 :: value := by simp [hkey, hvalue]
  have happend : key ++ 61 :: (value ++ 38 :: q) = (key ++ 61 :: value) ++ 38 :: q := by simp
  rw [happend, List.splitOn_append_cons_self_of_not_mem hsegment]

/-- An ampersand in the name of a parameter stands behind a segment without an equals sign. -/
theorem not_paramsFirst {key : Bytes} (hkey : 61 ∉ key) (hamp : 38 ∈ key) (rest : Bytes) :
    ¬ ParamsFirst (key ++ 61 :: rest) := by
  obtain ⟨a, b, rfl, ha⟩ := List.eq_append_cons_of_mem hamp
  have hequals : 61 ∈ b ++ 61 :: rest := by simp
  obtain ⟨t, ht, h61⟩ := (mem_iff_mem_splitOn (by decide : (61 : UInt8) ≠ 38)).mp hequals
  have hnot : 61 ∉ a := fun h => hkey (List.mem_append_left _ h)
  rw [ParamsFirst, List.append_assoc, List.cons_append, List.splitOn_append_cons_self_of_not_mem ha,
    List.pairwise_cons]
  exact fun hfirst => hnot (hfirst.1 t ht h61)

/-- **Where the loop reads the segments**: its names then hold no ampersand, and only then. -/
theorem Parameters.paramsFirst_iff {q : Bytes} {params : List (Bytes × Bytes)} (h : Parameters q params) :
    ParamsFirst q ↔ ∀ ele ∈ params, 38 ∉ ele.1 := by
  induction h with
  | @done q hq =>
    refine iff_of_true (List.pairwise_of_forall_mem_list fun s _ t ht h61 => ?_) (by simp)
    exact absurd ((mem_iff_mem_splitOn (by decide)).mpr ⟨t, ht, h61⟩) hq
  | @last key value hkey hvalue =>
    rw [List.forall_mem_singleton]
    by_cases hamp : 38 ∈ key
    · exact iff_of_false (not_paramsFirst hkey hamp value) (not_not.mpr hamp)
    · refine iff_of_true ?_ hamp
      rw [ParamsFirst, List.splitOn_eq_singleton (by simp [hamp, hvalue])]
      exact List.pairwise_singleton _ _
  | @more key value q params hkey hvalue _ ih =>
    rw [List.forall_mem_cons, ← ih]
    by_cases hamp : 38 ∈ key
    · exact iff_of_false (not_paramsFirst hkey hamp _) fun h => h.1 hamp
    · rw [ParamsFirst, splitOn_param hamp hvalue, List.pairwise_cons]
      simp [hamp, ParamsFirst]

/-- What the loop then reads. -/
theorem Parameters.filterMap_eq {q : Bytes} {params : List (Bytes × Bytes)} (h : Parameters q params)
    (hnames : ∀ ele ∈ params, 38 ∉ ele.1) : (q.splitOn 38).filterMap segmentParam = params := by
  induction h with
  | @done q hq =>
    rw [List.filterMap_eq_nil_iff]
    intro s hs
    exact segmentParam_of_notMem fun h61 => hq ((mem_iff_mem_splitOn (by decide)).mpr ⟨s, hs, h61⟩)
  | @last key value hkey hvalue =>
    have hamp := hnames (key, value) List.mem_cons_self
    rw [List.splitOn_eq_singleton (by simp [hamp, hvalue]), List.filterMap_cons, segmentParam_eq hkey]
    rfl
  | @more key value q params hkey hvalue _ ih =>
    have hamp := hnames (key, value) List.mem_cons_self
    rw [splitOn_param hamp hvalue, List.filterMap_cons, segmentParam_eq hkey,
      ih fun ele hele => hnames ele (List.mem_cons_of_mem _ hele)]

/-- **When the loop reads a query segment by segment.** -/
theorem Parameters.foldl_eq_iff {q : Bytes} {params : List (Bytes × Bytes)} (h : Parameters q params) :
    params.foldl (fun m ele => m.insert ele.1 ele.2) ∅ = queryMap q ↔ ParamsFirst q := by
  rw [h.paramsFirst_iff]
  constructor
  · intro heq ele hele hamp
    -- the name is one of the map, and those of the segments hold no ampersand
    obtain ⟨v, -, hget⟩ | ⟨hnone, -⟩ := getElem?_foldl_insert params ele.1
    · have hget := hget ∅
      rw [heq, queryMap] at hget
      have hmem := mem_of_mem_toList_foldl (Std.ExtTreeMap.mem_toList_iff_getElem?_eq_some.mpr hget)
      obtain ⟨s, hs, hparam⟩ := List.mem_filterMap.mp hmem
      exact notMem_of_mem_splitOn hs (mem_of_segmentParam hparam hamp)
    · exact hnone ele.2 hele
  · intro hnames
    rw [queryMap, h.filterMap_eq hnames]

/-- The path of a target: what stands before the first question mark. -/
def pathPart (str : Bytes) : Bytes := str.takeWhile (· ≠ 63)

/-- The query: what stands behind it. -/
def queryPart (str : Bytes) : Bytes := (str.dropWhile (· ≠ 63)).tail

theorem pathPart_append {t : Bytes} (ht : 63 ∉ t) (q : Bytes) : pathPart (t ++ 63 :: q) = t := by
  have hall : ∀ c ∈ t, decide (c ≠ 63) = true := fun c hc => decide_eq_true fun h => ht (h ▸ hc)
  rw [pathPart, List.takeWhile_append_of_pos hall, List.takeWhile_cons_of_neg (by simp), List.append_nil]

theorem queryPart_append {t : Bytes} (ht : 63 ∉ t) (q : Bytes) : queryPart (t ++ 63 :: q) = q := by
  have hall : ∀ c ∈ t, decide (c ≠ 63) = true := fun c hc => decide_eq_true fun h => ht (h ▸ hc)
  rw [queryPart, List.dropWhile_append_of_pos hall, List.dropWhile_cons_of_neg (by simp), List.tail_cons]

theorem parts_of_notMem {str : Bytes} (h : 63 ∉ str) : pathPart str = str ∧ queryPart str = [] := by
  have hall : ∀ c ∈ str, decide (c ≠ 63) = true := fun c hc => decide_eq_true fun heq => h (heq ▸ hc)
  rw [pathPart, queryPart, List.takeWhile_eq_self_iff.mpr hall, List.dropWhile_eq_nil_iff.mpr hall]
  exact ⟨rfl, rfl⟩

/-- **When a query is read segment by segment**: the path is what it should be for every target without a
colon; and the parameters are, exactly if no segment without an equals sign stands before a parameter. -/
theorem unpackPath_segments_iff (r : RequestLine) (str : Bytes) (hcolon : 58 ∉ str) :
    ∃ urlParms, unpackPath r str = .ok (0, { r with path_ := pathPart str, urlParms_ := urlParms }) ∧
      (urlParms = queryMap (queryPart str) ↔ ParamsFirst (queryPart str)) := by
  by_cases hquestion : 63 ∈ str
  · obtain ⟨t, q, rfl, ht⟩ := List.eq_append_cons_of_mem hquestion
    obtain ⟨params, hparams⟩ := exists_parameters q
    rw [pathPart_append ht, queryPart_append ht]
    exact ⟨_, unpackPath_of_query hcolon ht hparams r, hparams.foldl_eq_iff⟩
  · obtain ⟨hpath, hquery⟩ := parts_of_notMem hquestion
    rw [hpath, hquery]
    exact ⟨∅, unpackPath_of_path hcolon hquestion r, iff_of_true rfl (by decide)⟩

/-- Empty segments behind the parameters, and a name that comes twice. -/
theorem unpackPath_segments_iff_sample :
    ∃ urlParms, unpackPath Request.new.line (bytes "/x?k=v=&=&k=w&&z") =
        .ok (0, { Request.new.line with
          path_ := pathPart (bytes "/x?k=v=&=&k=w&&z"), urlParms_ := urlParms }) ∧
      (urlParms = queryMap (queryPart (bytes "/x?k=v=&=&k=w&&z")) ↔
        ParamsFirst (queryPart (bytes "/x?k=v=&=&k=w&&z"))) :=
  unpackPath_segments_iff _ _ (by decide)

/-- **A segment without an equals sign in front**: it becomes part of the name behind it, and there is no
parameter of that name. -/
theorem not_segments : ∃ line, unpackPath Request.new.line (bytes "/x?a&b=c") = .ok (0, line) ∧
    line.urlParms_[bytes "b"]? = none ∧ line.urlParms_[bytes "a&b"]? = some (bytes "c") ∧
      (queryMap (queryPart (bytes "/x?a&b=c")))[bytes "b"]? = some (bytes "c") := by
  refine ⟨⟨.Http1_1, .Get, bytes "/x", [], .ofList [(bytes "a&b", bytes "c")]⟩, rfl, ?_⟩
  decide +kernel

/-! ### Colons -/

/-- A target with a colon has a path with one. -/
theorem mem_path_of_colon {r line : RequestLine} {str : Bytes} (hcolon : 58 ∈ str)
    (h : unpackPath r str = .ok (0, line)) : 58 ∈ line.path_ := by
  obtain ⟨a, b, rfl, ha⟩ := List.eq_append_cons_of_mem hcolon
  rw [unpackPath_of_colon ha, Except.ok.injEq, Prod.mk.injEq] at h
  rw [← h.2]
  simp

/-- A path and a query are read as such: the path is what stands before the question mark, there is no
value, and the parameters are the segments if all of them are parameters. -/
def ReadsQuery (t q : Bytes) : Prop :=
  ∃ line, unpackPath Request.new.line (t ++ bytes "?" ++ q) = .ok (0, line) ∧
    line.path_ = t ∧ line.value_ = [] ∧
    ((∀ segment ∈ q.splitOn 38, 61 ∈ segment) → line.urlParms_ = queryMap q)

/-- Without a colon in the query, and only then, they are. -/
theorem readsQuery_iff {t : Bytes} (hcolon : 58 ∉ t) (hquestion : 63 ∉ t) (q : Bytes) :
    ReadsQuery t q ↔ 58 ∉ q := by
  have hstr : t ++ bytes "?" ++ q = t ++ 63 :: q := by simp
  rw [ReadsQuery, hstr]
  constructor
  · rintro ⟨line, hline, hpath, -⟩ hq
    have hmem := mem_path_of_colon (by simp [hq]) hline
    exact hcolon (hpath ▸ hmem)
  · intro hq
    obtain ⟨params, hparams⟩ := exists_parameters q
    refine ⟨_, unpackPath_of_query (by simp [hcolon, hq]) hquestion hparams _, rfl, rfl, fun hall => ?_⟩
    exact hparams.foldl_eq_iff.mpr (List.pairwise_of_forall_mem_list fun s hs _ _ _ => hall s hs)

/-- A first line that can be read back, but for colons in its parameters. -/
structure PlainPath (r : RequestLine) : Prop where
  /-- The method is one of the nine. -/
  methon : r.methon_ ≠ .Invalid
  /-- The version is known. -/
  version : r.version_ ≠ .Unknown
  /-- The path begins with a slash. -/
  slash : r.path_.head? = some 47
  /-- No space, colon, question mark, CR or LF in the path. -/
  path : ∀ c ∈ r.path_, c ≠ 32 ∧ c ≠ 58 ∧ c ≠ 63 ∧ c ≠ 13 ∧ c ≠ 10
  /-- No equals sign in a parameter's name, and no ampersand in its value. -/
  params : ∀ ele ∈ r.urlParms_.toList, 61 ∉ ele.1 ∧ 38 ∉ ele.2
  /-- No space, CR or LF in the parameters. -/
  chars : ∀ ele ∈ r.urlParms_.toList, ∀ c ∈ ele.1 ++ ele.2, c ≠ 32 ∧ c ≠ 13 ∧ c ≠ 10

theorem PlainPath.target {r : RequestLine} (h : PlainPath r) : ∀ c ∈ target r, c ≠ 32 ∧ c ≠ 13 ∧ c ≠ 10 := by
  rintro c hc
  rcases List.mem_append.mp hc with hc | hc
  · obtain ⟨h1, -, -, h3, h4⟩ := h.path c hc
    exact ⟨h1, h3, h4⟩
  · exact query_all (P := fun c => c ≠ 32 ∧ c ≠ 13 ∧ c ≠ 10) (by decide) (by decide) (by decide) h.chars c hc

theorem PlainPath.worded {r : RequestLine} (h : PlainPath r) : Worded r :=
  ⟨h.methon, h.version, h.slash, fun hc => (h.target 32 hc).1 rfl⟩

/-- The colons of the target are those of the parameters. -/
theorem PlainPath.colon_iff {r : RequestLine} (h : PlainPath r) :
    58 ∉ Request.target r ↔ ∀ ele ∈ r.urlParms_.toList, 58 ∉ ele.1 ++ ele.2 := by
  constructor
  · exact fun hnot ele hele hx => hnot (List.mem_append_right _ (mem_query hele hx))
  · intro hparams hc
    rcases List.mem_append.mp hc with hc | hc
    · exact (h.path 58 hc).2.1 rfl
    · refine query_all (P := (· ≠ 58)) (by decide) (by decide) (by decide) ?_ 58 hc rfl
      rintro ele hele x hx rfl
      exact hparams ele hele hx

/-- What a new request reads from a packed one: the same path and the same parameters. -/
def SameTarget (r : Request) : Prop :=
  ∃ m, unpack new (pack r) = .ok (.Success, m) ∧
    m.line.path_ = r.line.path_ ∧ m.line.urlParms_ = r.line.urlParms_

/-- Without a colon in the parameters, and only then, it does. -/
theorem sameTarget_iff {r : Request} (hline : PlainPath r.line) (hheads : PlainHeads r.heads_)
    (hshort : (r.head (firstLine r.line)).length < 2 ^ 31) :
    SameTarget r ↔ ∀ ele ∈ r.line.urlParms_.toList, 58 ∉ ele.1 ++ ele.2 := by
  have hworded := hline.worded
  have hread : r.Readable (firstLine r.line) :=
    ⟨hworded.notMem_firstLine fun hc => (hline.target 13 hc).2.1 rfl, firstLine_ne_nil _, hheads, hshort⟩
  obtain ⟨path, value, urlParms, htarget⟩ := exists_unpackPath (target r.line)
  have hunpack := Message.unpack_pack hread (hworded.unpackUrl (htarget { new.line with methon_ := _ })) []
  rw [← hline.colon_iff]
  constructor
  · rintro ⟨m, hm, hpath, -⟩ hcolon
    have hsame := hunpack.symm.trans hm
    rw [if_neg (by decide), Except.ok.injEq, Prod.mk.injEq] at hsame
    have hmpath : path = m.line.path_ := congrArg (fun m : Request => m.line.path_) hsame.2
    have hmem : 58 ∈ path := mem_path_of_colon hcolon (htarget new.line)
    exact (hline.path 58 (hpath ▸ hmpath ▸ hmem)).2.1 rfl
  · intro hcolon
    have hplain := unpackPath_target hcolon (fun hc => (hline.path 63 hc).2.2.1 rfl) hline.params new.line
    rw [htarget, Except.ok.injEq, Prod.mk.injEq, RequestLine.ext_iff] at hplain
    exact ⟨_, hunpack, hplain.2.2.2.1, hplain.2.2.2.2.2⟩

/-- **When colons in a query do no harm**: if there are none. A target `t?q` is then, and only then, read as
the path `t` and the query `q`; and a packed request is then, and only then, unpacked to the same path and
parameters. -/
theorem unpackPath_colon_iff (t q : Bytes) (hcolon : 58 ∉ t) (hquestion : 63 ∉ t) (r : Request)
    (hline : PlainPath r.line) (hheads : PlainHeads r.heads_)
    (hshort : (r.head (firstLine r.line)).length < 2 ^ 31) :
    (ReadsQuery t q ↔ 58 ∉ q) ∧ (SameTarget r ↔ ∀ ele ∈ r.line.urlParms_.toList, 58 ∉ ele.1 ++ ele.2) :=
  ⟨readsQuery_iff hcolon hquestion q, sameTarget_iff hline hheads hshort⟩

/-- A request with a time as a parameter. -/
def timedRequest : Request :=
  ⟨⟨.Http1_1, .Get, bytes "/a", [], .ofList [(bytes "t", bytes "1:2")]⟩,
    .ofList [(bytes "Host", bytes "x:80")], []⟩

theorem unpackPath_colon_iff_sample :
    (ReadsQuery (bytes "/a") (bytes "t=1:2") ↔ 58 ∉ bytes "t=1:2") ∧
      (SameTarget timedRequest ↔ ∀ ele ∈ timedRequest.line.urlParms_.toList, 58 ∉ ele.1 ++ ele.2) :=
  unpackPath_colon_iff _ _ (by decide) (by decide) timedRequest
    ⟨by decide, by decide, by decide, by decide +kernel, by decide +kernel, by decide +kernel⟩
    (by decide +kernel) (by decide +kernel)

/-- **A time as a parameter**: it is cut at its colon, and all that stands before that is the path. -/
theorem not_colon :
    ¬ ReadsQuery (bytes "/a") (bytes "t=1:2") ∧ ¬ SameTarget timedRequest ∧
      unpackPath Request.new.line (bytes "/a?t=1:2") =
        .ok (0, { Request.new.line with path_ := bytes "/a?t=1:", value_ := bytes "2" }) := by
  refine ⟨fun hreads => ?_, ?_, rfl⟩
  · exact (readsQuery_iff (by decide) (by decide) _).mp hreads (by decide)
  · rintro ⟨m, hm, hpath, -⟩
    have hunpack : unpack new (pack timedRequest) = .ok (.Success,
        ⟨⟨.Http1_1, .Get, bytes "/a?t=1:", bytes "2", ∅⟩, timedRequest.heads_, []⟩) := rfl
    rw [hunpack, Except.ok.injEq, Prod.mk.injEq] at hm
    rw [← hm.2] at hpath
    exact absurd hpath (by decide)

end Request

end UvCpp.Http
