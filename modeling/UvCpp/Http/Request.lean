import UvCpp.Http.Message

/-!
# Requests

The first line of a request is a method, a target and a version. The target is a path and,
behind a question mark, parameters; or, if it has a colon anywhere, a path up to the colon
and a value behind it. `unpackPath` reads a target with one loop over the parameters.

`request_roundtrip` is the round trip: what `pack` writes, `unpack` reads, for every request
whose parts do not hold the characters that separate them.
-/

namespace UvCpp.Http

open UvCpp.Cpp

/-- What a `Request` keeps of its first line. -/
@[ext]
structure RequestLine where
  /-- The version. -/
  version_ : HttpVersion
  /-- The method. -/
  methon_ : Methon
  /-- The path. -/
  path_ : Bytes
  /-- What follows a colon in the target. -/
  value_ : Bytes
  /-- The parameters. -/
  urlParms_ : StringMap

/-- `uv::http::Request`. -/
abbrev Request := Message RequestLine

namespace Request

/-- A new request. -/
def new : Request := ⟨⟨.Http1_1, .Get, [], [], ∅⟩, ∅, []⟩

/-- `MethonToStr`. -/
def MethonToStr : Methon → Bytes
  | .Get => bytes "GET"
  | .Post => bytes "POST"
  | .Head => bytes "HEAD"
  | .Put => bytes "PUT"
  | .Delete => bytes "DELETE"
  | .Connect => bytes "CONNECT"
  | .Options => bytes "OPTIONS"
  | .Trace => bytes "TRACE"
  | .Patch => bytes "PATCH"
  | .Invalid => []

/-- `StrToMethon`. -/
def StrToMethon (str : Bytes) : Methon :=
  if str = bytes "GET" then .Get
  else if str = bytes "POST" then .Post
  else if str = bytes "HEAD" then .Head
  else if str = bytes "PUT" then .Put
  else if str = bytes "DELETE" then .Delete
  else if str = bytes "CONNECT" then .Connect
  else if str = bytes "OPTIONS" then .Options
  else if str = bytes "TRACE" then .Trace
  else if str = bytes "PATCH" then .Patch
  else .Invalid

/-- `packPathParam`: the target, added to a string. -/
def packPathParam (r : RequestLine) (path : Bytes) : Bytes :=
  let path := if r.path_.head? ≠ some 47 then path ++ bytes "/" else path
  let path := path ++ r.path_
  if 0 < r.urlParms_.size then
    let path := path ++ bytes "?"
    let path := r.urlParms_.toList.foldl
      (fun path ele => path ++ ele.1 ++ bytes "=" ++ ele.2 ++ bytes "&") path
    path.dropLast
  else path

/-- The first line, as `pack` writes it. -/
def firstLine (r : RequestLine) : Bytes :=
  let data := MethonToStr r.methon_ ++ bytes " "
  let data := packPathParam r data
  data ++ bytes " " ++ HttpVersionToStr r.version_

/-- `pack`. -/
def pack (r : Request) : Bytes := Message.pack (firstLine r.line) r

/-- The loop of `unpackPath` over the parameters, for at most so many rounds, from the
question mark or ampersand at `i` on. -/
def unpackPathLoop (str : Bytes) : ℕ → ℕ → StringMap → Exec StringMap
  | 0, _, _ => .error .loops
  | fuel + 1, i, urlParms =>
    if i < str.length then
      match find str (bytes "=") i with
      | none => .ok urlParms
      | some p =>
        if usub p i < 1 then .ok urlParms
        else do
          let key ← substr str (i + 1) (usub (usub p i) 1)
          let i := p
          let p := (find str (bytes "&") i).getD str.length
          if usub p i < 1 then .ok urlParms
          else do
            let value ← substr str (i + 1) (usub (usub p i) 1)
            unpackPathLoop str fuel p (urlParms.insert key value)
    else .ok urlParms

/-- `unpackPath`: the return code, and the request. -/
def unpackPath (r : RequestLine) (str : Bytes) : Exec (ℤ × RequestLine) :=
  match find str (bytes ":") 0 with
  | some pos => do
    let path ← substr str 0 (pos + 1)
    let value ← substr str (pos + 1) (usub (usub str.length pos) 1)
    .ok (0, { r with urlParms_ := ∅, path_ := path, value_ := value })
  | none =>
    match find str (bytes "?") 0 with
    | none => .ok (0, { r with urlParms_ := ∅, path_ := str })
    | some pos => do
      let path ← substr str 0 pos
      let urlParms ← unpackPathLoop str (str.length + 1) pos ∅
      .ok (0, { r with urlParms_ := urlParms, path_ := path })

/-- `unpackUrl`: the return code, and the request. -/
def unpackUrl (r : RequestLine) (str : Bytes) : Exec (ℤ × RequestLine) := do
  let (_, out) ← SplitStrOfSpace str
  match out with
  | [methon, target, version] =>
    let r := { r with methon_ := StrToMethon methon }
    if r.methon_ = .Invalid then .ok (-1, r)
    else do
      let (rst, r) ← unpackPath r target
      if 0 ≠ rst then .ok (-1, r)
      else .ok (0, { r with version_ := GetHttpVersion version })
  | _ => .ok (-1, r)

/-- `unpack`. -/
def unpack (r : Request) (data : Bytes) : Exec (ParseResult × Request) :=
  Message.unpack unpackUrl r data

/-- `unpackAndCompleted`. -/
def unpackAndCompleted (r : Request) (data : Bytes) : Exec (ParseResult × Request) := do
  let (rst, r) ← unpack r data
  if rst = .Success then
    match r.contentLength with
    | some value =>
      Exec.catchAll
        (do
          let size ← stoi 10 value
          if toUInt64 size = r.content_.length then .ok (.Success, r) else .ok (.Fail, r))
        (.ok (.Success, r))
    | none => .ok (rst, r)
  else .ok (rst, r)

/-! ### The parameters -/

@[simp] theorem bytes_equals : bytes "=" = [61] := by decide

@[simp] theorem bytes_ampersand : bytes "&" = [38] := by decide

@[simp] theorem bytes_question : bytes "?" = [63] := by decide

@[simp] theorem bytes_colon : bytes ":" = [58] := by decide

/-- Parameters, as they are written: the first one behind `c`, the others behind an ampersand. -/
def query (c : UInt8) : List (Bytes × Bytes) → Bytes
  | [] => []
  | ele :: params => c :: (ele.1 ++ 61 :: (ele.2 ++ query 38 params))

/-- Writing parameters with an ampersand behind each, and dropping the last one. -/
theorem foldl_params {params : List (Bytes × Bytes)} (hne : params ≠ []) (path : Bytes) :
    (params.foldl (fun path ele => path ++ ele.1 ++ bytes "=" ++ ele.2 ++ bytes "&")
      (path ++ bytes "?")).dropLast = path ++ query 63 params := by
  have hfold (ps : List (Bytes × Bytes)) (path : Bytes) :
      ps.foldl (fun path ele => path ++ ele.1 ++ [61] ++ ele.2 ++ [38]) (path ++ [38]) =
        path ++ query 38 ps ++ [38] := by
    induction ps generalizing path with
    | nil => simp [query]
    | cons ele ps ih =>
      rw [List.foldl_cons, ih, query]
      simp
  cases params with
  | nil => exact absurd rfl hne
  | cons ele params =>
    simp only [bytes_equals, bytes_ampersand, bytes_question]
    rw [List.foldl_cons, hfold, List.dropLast_concat, query]
    simp

/-- What the loop of `unpackPath` reads behind a question mark or an ampersand: a name up to the next
equals sign and a value up to the next ampersand, as long as there is an equals sign. -/
inductive Parameters : Bytes → List (Bytes × Bytes) → Prop where
  /-- No equals sign. -/
  | done {q : Bytes} : 61 ∉ q → Parameters q []
  /-- No ampersand behind it. -/
  | last {key value : Bytes} : 61 ∉ key → 38 ∉ value → Parameters (key ++ 61 :: value) [(key, value)]
  /-- An ampersand, and what follows it. -/
  | more {key value q : Bytes} {params : List (Bytes × Bytes)} : 61 ∉ key → 38 ∉ value → Parameters q params →
      Parameters (key ++ 61 :: (value ++ 38 :: q)) ((key, value) :: params)

/-- Something is read, whatever there is. -/
theorem exists_parameters (q : Bytes) : ∃ params, Parameters q params := by
  induction hn : q.length using Nat.strongRecOn generalizing q with
  | ind n ih =>
    by_cases heq : 61 ∈ q
    · obtain ⟨key, rest, rfl, hkey⟩ := List.eq_append_cons_of_mem heq
      by_cases hamp : 38 ∈ rest
      · obtain ⟨value, q, rfl, hvalue⟩ := List.eq_append_cons_of_mem hamp
        obtain ⟨params, hparams⟩ := ih q.length (by simp [← hn]; omega) q rfl
        exact ⟨_, .more hkey hvalue hparams⟩
      · exact ⟨_, .last hkey hamp⟩
    · exact ⟨[], .done heq⟩

/-- A round of the loop reads a name and a value. -/
theorem unpackPathLoop_succ {str key value rest : Bytes} {fuel i : ℕ} {c : UInt8} {urlParms : StringMap}
    (hc : c ≠ 61) (hkey : 61 ∉ key) (hvalue : 38 ∉ value)
    (h : str.drop i = c :: (key ++ 61 :: (value ++ rest))) (hrest : rest = [] ∨ ∃ q, rest = 38 :: q) :
    unpackPathLoop str (fuel + 1) i urlParms =
      unpackPathLoop str fuel (i + (key.length + 1) + (value.length + 1)) (urlParms.insert key value) := by
  have hlen := congrArg List.length h
  simp only [List.length_drop, List.length_cons, List.length_append] at hlen
  -- the name, up to the equals sign
  have h : str.drop i = (c :: key) ++ 61 :: (value ++ rest) := h
  have hfind : find str [61] i = some (i + (key.length + 1)) :=
    find_of_drop (p := []) h (by simp [hkey, hc.symm])
  have hname : str.drop (i + 1) = key ++ (61 :: (value ++ rest)) := drop_add_of_drop (a := [c]) h
  -- the value, up to the next ampersand
  have heq : str.drop (i + (key.length + 1)) = (61 :: value) ++ rest := drop_add_of_drop (a := c :: key) h
  have hfind' : (find str [38] (i + (key.length + 1))).getD str.length =
      i + (key.length + 1) + (value.length + 1) := by
    obtain rfl | ⟨q, rfl⟩ := hrest
    · rw [find_of_drop_notMem heq (by simp [hvalue]), Option.getD_none]
      simp only [List.length_nil] at hlen
      omega
    · rw [find_of_drop (p := []) heq (by simp [hvalue])]
      rfl
  have hval : str.drop (i + (key.length + 1) + 1) = value ++ rest := drop_add_of_drop (a := [61]) heq
  have hs1 : usub (i + (key.length + 1)) i = key.length + 1 := by
    rw [usub_of_le (by omega)]
    omega
  have hs2 : usub (i + (key.length + 1) + (value.length + 1)) (i + (key.length + 1)) = value.length + 1 := by
    rw [usub_of_le (by omega)]
    omega
  have hs3 (n : ℕ) : usub (n + 1) 1 = n := usub_of_le (by omega)
  have hs4 (n : ℕ) : ¬ n + 1 < 1 := by omega
  rw [unpackPathLoop, if_pos (by omega), bytes_equals, hfind]
  simp only [hs1, hs3, hs4, if_false, bytes_ampersand, hfind', hs2]
  rw [substr_of_drop hname (by omega), Exec.ok_bind, substr_of_drop hval (by omega), Exec.ok_bind]

/-- Behind the last byte the loop ends. -/
theorem unpackPathLoop_end {str : Bytes} {fuel i : ℕ} (hi : str.length ≤ i) (hfuel : 0 < fuel)
    (urlParms : StringMap) : unpackPathLoop str fuel i urlParms = .ok urlParms := by
  obtain ⟨fuel, rfl⟩ := Nat.exists_eq_add_one_of_ne_zero hfuel.ne'
  rw [unpackPathLoop, if_neg (by omega)]

/-- **What the loop of `unpackPath` reads**, on any string. -/
theorem unpackPathLoop_eq {str q : Bytes} {params : List (Bytes × Bytes)} (hq : Parameters q params)
    {fuel i : ℕ} {c : UInt8} {urlParms : StringMap} (hc : c ≠ 61) (h : str.drop i = c :: q)
    (hfuel : str.length < fuel + i) :
    unpackPathLoop str fuel i urlParms =
      .ok (params.foldl (fun m ele => m.insert ele.1 ele.2) urlParms) := by
  induction hq generalizing fuel i c urlParms with
  | done hq =>
    have hi : i < str.length := by
      by_contra hge
      rw [List.drop_eq_nil_of_le (by omega)] at h
      cases h
    obtain ⟨fuel, rfl⟩ := Nat.exists_eq_add_one_of_ne_zero (show fuel ≠ 0 by omega)
    rw [unpackPathLoop, if_pos hi, bytes_equals, find_of_drop_notMem h (by simp [hq, hc.symm])]
    rfl
  | @last key value hkey hvalue =>
    have hlen := congrArg List.length h
    simp only [List.length_drop, List.length_cons, List.length_append] at hlen
    obtain ⟨fuel, rfl⟩ := Nat.exists_eq_add_one_of_ne_zero (show fuel ≠ 0 by omega)
    have h : str.drop i = c :: (key ++ 61 :: (value ++ [])) := by rw [h, List.append_nil]
    rw [unpackPathLoop_succ hc hkey hvalue h (.inl rfl), unpackPathLoop_end (by omega) (by omega)]
    rfl
  | @more key value q params hkey hvalue _ ih =>
    have hlen := congrArg List.length h
    simp only [List.length_drop, List.length_cons, List.length_append] at hlen
    obtain ⟨fuel, rfl⟩ := Nat.exists_eq_add_one_of_ne_zero (show fuel ≠ 0 by omega)
    have hrest : str.drop (i + (key.length + 1) + (value.length + 1)) = 38 :: q := by
      have heq : str.drop (i + (key.length + 1)) = (61 :: value) ++ 38 :: q :=
        drop_add_of_drop (a := c :: key) h
      exact drop_add_of_drop (a := 61 :: value) heq
    rw [unpackPathLoop_succ hc hkey hvalue h (.inr ⟨q, rfl⟩), ih (by decide) hrest (by omega)]
    rfl

/-- Written parameters are read, one by one. -/
theorem parameters_query {ele : Bytes × Bytes} {params : List (Bytes × Bytes)}
    (hparams : ∀ e ∈ ele :: params, 61 ∉ e.1 ∧ 38 ∉ e.2) :
    Parameters (ele.1 ++ 61 :: (ele.2 ++ query 38 params)) (ele :: params) := by
  induction params generalizing ele with
  | nil =>
    obtain ⟨hkey, hvalue⟩ := hparams ele List.mem_cons_self
    rw [query, List.append_nil]
    exact .last hkey hvalue
  | cons e params ih =>
    obtain ⟨hkey, hvalue⟩ := hparams ele List.mem_cons_self
    exact .more hkey hvalue (ih fun e' he' => hparams e' (List.mem_cons_of_mem ele he'))

/-! ### The target -/

/-- A target with a colon: the path ends with it, and what follows is the value. -/
theorem unpackPath_of_colon {a : Bytes} (ha : 58 ∉ a) (b : Bytes) (r : RequestLine) :
    unpackPath r (a ++ 58 :: b) = .ok (0, { r with urlParms_ := ∅, path_ := a ++ [58], value_ := b }) := by
  have hlen : (a ++ 58 :: b).length = a.length + 1 + b.length := by
    simp
    omega
  have hpath : substr (a ++ 58 :: b) 0 (a.length + 1) = .ok (a ++ [58]) := by
    have hcut := substr_of_drop (s := a ++ [58] ++ b) (i := 0) rfl (Nat.zero_le _)
    rwa [List.length_append, List.append_assoc] at hcut
  have hvalue : substr (a ++ 58 :: b) (a.length + 1) b.length = .ok b := by
    refine substr_of_drop (t := []) ?_ (by omega)
    rw [← List.drop_drop, List.drop_left, List.append_nil]
    rfl
  have hrest : usub (usub (a ++ 58 :: b).length a.length) 1 = b.length := by
    rw [hlen, usub_of_le (show a.length ≤ a.length + 1 + b.length by omega), usub_of_le (by omega)]
    omega
  rw [unpackPath, bytes_colon, find_of_drop (p := []) rfl ha, Nat.zero_add]
  simp only [hrest, hpath, hvalue, Exec.ok_bind]

/-- A target without a colon or a question mark is a path. -/
theorem unpackPath_of_path {str : Bytes} (hcolon : 58 ∉ str) (hquestion : 63 ∉ str) (r : RequestLine) :
    unpackPath r str = .ok (0, { r with urlParms_ := ∅, path_ := str }) := by
  rw [unpackPath, bytes_colon, find_of_drop_notMem rfl hcolon, bytes_question,
    find_of_drop_notMem rfl hquestion]

/-- A target with a question mark and no colon: a path, and parameters. -/
theorem unpackPath_of_query {t q : Bytes} {params : List (Bytes × Bytes)} (hcolon : 58 ∉ t ++ 63 :: q)
    (ht : 63 ∉ t) (hq : Parameters q params) (r : RequestLine) :
    unpackPath r (t ++ 63 :: q) =
      .ok (0, { r with urlParms_ := params.foldl (fun m ele => m.insert ele.1 ele.2) ∅, path_ := t }) := by
  have hfind : find (t ++ 63 :: q) [63] 0 = some t.length := by
    rw [find_of_drop (p := []) rfl ht, Nat.zero_add]
  have hloop : unpackPathLoop (t ++ 63 :: q) ((t ++ 63 :: q).length + 1) t.length ∅ =
      .ok (params.foldl (fun m ele => m.insert ele.1 ele.2) ∅) :=
    unpackPathLoop_eq hq (by decide) List.drop_left (by omega)
  rw [unpackPath, bytes_colon, find_of_drop_notMem rfl hcolon, bytes_question, hfind]
  simp only [hloop, Exec.ok_bind]
  rw [substr_of_drop (a := t) rfl (Nat.zero_le _)]
  rfl

/-- **What `unpackPath` takes from a target**: a path and parameters, and a value if there is a colon. -/
theorem exists_unpackPath (str : Bytes) : ∃ path value urlParms, ∀ r, unpackPath r str =
    .ok (0, { r with path_ := path, value_ := if 58 ∈ str then value else r.value_, urlParms_ := urlParms }) := by
  by_cases hcolon : 58 ∈ str
  · obtain ⟨a, b, rfl, ha⟩ := List.eq_append_cons_of_mem hcolon
    refine ⟨a ++ [58], b, ∅, fun r => ?_⟩
    rw [unpackPath_of_colon ha, if_pos hcolon]
  · by_cases hquestion : 63 ∈ str
    · obtain ⟨t, q, rfl, ht⟩ := List.eq_append_cons_of_mem hquestion
      obtain ⟨params, hparams⟩ := exists_parameters q
      refine ⟨t, [], params.foldl (fun m ele => m.insert ele.1 ele.2) ∅, fun r => ?_⟩
      rw [unpackPath_of_query hcolon ht hparams, if_neg hcolon]
    · refine ⟨str, [], ∅, fun r => ?_⟩
      rw [unpackPath_of_path hcolon hquestion, if_neg hcolon]

/-! ### The first line -/

/-- What there is in a first line that is read: three words, and the first is a method. -/
theorem unpackUrl_eq_zero_iff {r r' : RequestLine} {str : Bytes} : unpackUrl r str = .ok (0, r') ↔
    ∃ code methon target version line, SplitStrOfSpace str = .ok (code, [methon, target, version]) ∧
      StrToMethon methon ≠ .Invalid ∧ unpackPath { r with methon_ := StrToMethon methon } target = .ok (0, line) ∧
        r' = { line with version_ := GetHttpVersion version } := by
  constructor
  · intro h
    rw [unpackUrl, Exec.bind_eq_ok_iff] at h
    obtain ⟨⟨code, out⟩, hsplit, h⟩ := h
    simp only at h
    split at h
    · next methon target version =>
      split at h
      · simp at h
      next hmethon =>
      obtain ⟨path, value, urlParms, hpath⟩ := exists_unpackPath target
      have htarget := hpath { r with methon_ := StrToMethon methon }
      simp only [htarget, Exec.ok_bind, ne_eq, not_true_eq_false, if_false, Except.ok.injEq, Prod.mk.injEq,
        true_and] at h
      exact ⟨code, methon, target, version, _, hsplit, hmethon, htarget, h.symm⟩
    · simp at h
  · rintro ⟨code, methon, target, version, line, hsplit, hmethon, htarget, rfl⟩
    rw [unpackUrl, hsplit, Exec.ok_bind]
    simp only [if_neg hmethon, htarget, Exec.ok_bind, ne_eq, not_true_eq_false, if_false]

/-- The target of a request. -/
def target (r : RequestLine) : Bytes :=
  r.path_ ++ query 63 r.urlParms_.toList

/-- A first line that can be read back: a known method and version, a path that begins with a
slash, and no character in the parts that separates them. -/
structure Plain (r : RequestLine) : Prop where
  /-- The method is one of the nine. -/
  methon : r.methon_ ≠ .Invalid
  /-- The version is known. -/
  version : r.version_ ≠ .Unknown
  /-- The path begins with a slash. -/
  slash : r.path_.head? = some 47
  /-- No space, colon, question mark, CR or LF in the path. -/
  path : ∀ c ∈ r.path_, c ≠ 32 ∧ c ≠ 58 ∧ c ≠ 63 ∧ c ≠ 13 ∧ c ≠ 10
  /-- No equals sign in a parameter's name, and no ampersand in its value. -/
  params : ∀ ele ∈ r.urlParms_.toList, 61 ∉ ele.1 ∧ 38 ∉ ele.2
  /-- No space, colon, CR or LF in the parameters. -/
  chars : ∀ ele ∈ r.urlParms_.toList, ∀ c ∈ ele.1 ++ ele.2, c ≠ 32 ∧ c ≠ 58 ∧ c ≠ 13 ∧ c ≠ 10

/-- The target as it is written: with a slash in front, if the path has none. -/
def written (r : RequestLine) : Bytes := if r.path_.head? = some 47 then target r else 47 :: target r

theorem written_of_slash {r : RequestLine} (h : r.path_.head? = some 47) : written r = target r := if_pos h

theorem packPathParam_eq (r : RequestLine) (path : Bytes) : packPathParam r path = path ++ written r := by
  have hpath : (if r.path_.head? ≠ some 47 then path ++ bytes "/" else path) ++ target r = path ++ written r := by
    have hslash : bytes "/" = [47] := by decide
    rw [written, hslash]
    by_cases h : r.path_.head? = some 47
    · simp [h]
    · simp [h]
  rw [← hpath, packPathParam, target]
  simp only
  split
  · next hsize =>
    rw [foldl_params, List.append_assoc]
    rintro hnil
    rw [← Std.ExtTreeMap.length_toList, hnil] at hsize
    exact lt_irrefl _ hsize
  · next hsize =>
    have hnil : r.urlParms_.toList = [] := by
      rw [← List.length_eq_zero_iff, Std.ExtTreeMap.length_toList]
      omega
    rw [hnil, query, List.append_nil]

/-- What holds of the separators and of every character of the parameters holds of the query. -/
theorem query_all {P : UInt8 → Prop} {c : UInt8} {params : List (Bytes × Bytes)} (hc : P c) (h38 : P 38)
    (h61 : P 61) (h : ∀ ele ∈ params, ∀ x ∈ ele.1 ++ ele.2, P x) : ∀ x ∈ query c params, P x := by
  induction params generalizing c with
  | nil => simp [query]
  | cons ele params ih =>
    have ih := ih h38 fun e he => h e (List.mem_cons_of_mem ele he)
    have hele := h ele List.mem_cons_self
    rintro x hx
    simp only [query, List.mem_cons, List.mem_append] at hx
    rcases hx with rfl | hx | rfl | hx | hx
    · exact hc
    · exact hele x (List.mem_append_left _ hx)
    · exact h61
    · exact hele x (List.mem_append_right _ hx)
    · exact ih x hx

/-- Every character of the parameters is in the query. -/
theorem mem_query {x c : UInt8} {params : List (Bytes × Bytes)} {ele : Bytes × Bytes} (hele : ele ∈ params)
    (hx : x ∈ ele.1 ++ ele.2) : x ∈ query c params := by
  induction params generalizing c with
  | nil => cases hele
  | cons e params ih =>
    obtain rfl | hele := List.mem_cons.mp hele
    · rcases List.mem_append.mp hx with hx | hx <;> simp [query, hx]
    · simp [query, ih hele]

/-- No character that ends a target, or makes part of it a value, is in one. -/
theorem Plain.target {r : RequestLine} (h : Plain r) :
    ∀ c ∈ target r, c ≠ 32 ∧ c ≠ 58 ∧ c ≠ 13 ∧ c ≠ 10 := by
  rintro c hc
  rcases List.mem_append.mp hc with hc | hc
  · obtain ⟨h1, h2, -, h3, h4⟩ := h.path c hc
    exact ⟨h1, h2, h3, h4⟩
  · exact query_all (P := fun c => c ≠ 32 ∧ c ≠ 58 ∧ c ≠ 13 ∧ c ≠ 10) (by decide) (by decide)
      (by decide) h.chars c hc

/-- **A target is read as it was written**, unless there is a colon in it. -/
theorem unpackPath_target {r : RequestLine} (hcolon : 58 ∉ target r) (hpath : 63 ∉ r.path_)
    (hparams : ∀ ele ∈ r.urlParms_.toList, 61 ∉ ele.1 ∧ 38 ∉ ele.2) (r₀ : RequestLine) :
    unpackPath r₀ (target r) = .ok (0, { r₀ with path_ := r.path_, urlParms_ := r.urlParms_ }) := by
  have hmap := foldl_insert_toList r.urlParms_
  rw [target] at hcolon ⊢
  cases hlist : r.urlParms_.toList with
  | nil =>
    have hempty : r.urlParms_ = ∅ := Std.ExtTreeMap.toList_eq_nil_iff.mp hlist
    rw [hlist, query, List.append_nil] at hcolon
    rw [query, List.append_nil, unpackPath_of_path hcolon hpath, hempty]
  | cons ele params =>
    rw [hlist] at hcolon hmap hparams
    rw [query, unpackPath_of_query hcolon hpath (parameters_query hparams), hmap]

@[simp] theorem strToMethon_methonToStr (m : Methon) : StrToMethon (MethonToStr m) = m := by
  cases m <;> decide

theorem methonToStr_strToMethon {str : Bytes} (h : StrToMethon str ≠ .Invalid) :
    MethonToStr (StrToMethon str) = str := by
  have hcases : StrToMethon str = .Invalid ∨ str = MethonToStr (StrToMethon str) := by
    rw [StrToMethon]
    iterate 9
      apply iteInduction (motive := fun m => m = .Invalid ∨ str = MethonToStr m)
      · exact .inr
      intro _
    exact .inl rfl
  exact (hcases.resolve_left h).symm

theorem methonToStr_word {m : Methon} (h : m ≠ .Invalid) :
    MethonToStr m ≠ [] ∧ 32 ∉ MethonToStr m ∧ 13 ∉ MethonToStr m := by
  cases m <;> first | decide | exact absurd rfl h

theorem firstLine_eq (r : RequestLine) :
    firstLine r = MethonToStr r.methon_ ++ 32 :: (written r ++ 32 :: HttpVersionToStr r.version_) := by
  rw [firstLine, packPathParam_eq]
  simp

/-- A first line that is written as three words. -/
structure Worded (r : RequestLine) : Prop where
  /-- The method is one of the nine. -/
  methon : r.methon_ ≠ .Invalid
  /-- The version is known. -/
  version : r.version_ ≠ .Unknown
  /-- The path begins with a slash. -/
  slash : r.path_.head? = some 47
  /-- No space in the target. -/
  space : 32 ∉ target r

theorem Plain.worded {r : RequestLine} (h : Plain r) : Worded r :=
  ⟨h.methon, h.version, h.slash, fun hc => (h.target 32 hc).1 rfl⟩

theorem Worded.split {r : RequestLine} (h : Worded r) :
    SplitStrOfSpace (firstLine r) = .ok (0, [MethonToStr r.methon_, target r, HttpVersionToStr r.version_]) := by
  obtain ⟨hm1, hm2, -⟩ := methonToStr_word h.methon
  obtain ⟨hv1, -, -⟩ := httpVersionToStr_word h.version
  have ht : target r ≠ [] := by
    rintro hnil
    obtain ⟨hpath, -⟩ := List.append_eq_nil_iff.mp hnil
    simpa [hpath] using h.slash
  rw [firstLine_eq, written_of_slash h.slash, splitStrOfSpace_words hm1 hm2 ht h.space hv1]

/-- **A first line is read as far as its target is.** -/
theorem Worded.unpackUrl {r r₀ line : RequestLine} (h : Worded r)
    (hpath : unpackPath { r₀ with methon_ := r.methon_ } (target r) = .ok (0, line)) :
    unpackUrl r₀ (firstLine r) = .ok (0, { line with version_ := r.version_ }) := by
  refine unpackUrl_eq_zero_iff.mpr ⟨_, _, _, _, line, h.split, ?_, ?_, ?_⟩
  · rw [strToMethon_methonToStr]
    exact h.methon
  · rwa [strToMethon_methonToStr]
  · rw [getHttpVersion_toStr]

/-- **The first line is read as it was written.** -/
theorem unpackUrl_firstLine {r : RequestLine} (h : Plain r) (r₀ : RequestLine) :
    unpackUrl r₀ (firstLine r) = .ok (0, { r with value_ := r₀.value_ }) :=
  h.worded.unpackUrl (unpackPath_target (fun hc => (h.target 58 hc).2.1 rfl)
    (fun hc => (h.path 63 hc).2.2.1 rfl) h.params _)

theorem firstLine_ne_nil (r : RequestLine) : firstLine r ≠ [] := by
  rw [firstLine_eq]
  simp

/-- No CR stands in the first line outside the target. -/
theorem Worded.notMem_firstLine {r : RequestLine} (h : Worded r) (htarget : 13 ∉ target r) :
    13 ∉ firstLine r := by
  obtain ⟨-, -, hm⟩ := methonToStr_word h.methon
  obtain ⟨-, -, hv⟩ := httpVersionToStr_word h.version
  rw [firstLine_eq, written_of_slash h.slash]
  simp [hm, htarget, hv]

theorem Plain.firstLine {r : RequestLine} (h : Plain r) : 13 ∉ firstLine r ∧ firstLine r ≠ [] :=
  ⟨h.worded.notMem_firstLine fun hc => (h.target 13 hc).2.2.1 rfl, firstLine_ne_nil r⟩

/-! ### Whole requests -/

/-- A request whose headers give the length of its content: `Content-Length` is its decimal
size, or there is no such header and no content. -/
def Framed (r : Request) : Prop :=
  r.heads_[bytes "Content-Length"]? = some (numeral 10 r.content_.length) ∧ r.content_.length < 2 ^ 31 ∨
    r.contentLength = none ∧ r.content_ = []

/-- A request that can be sent: plain, with a content of the length its headers give, and with
a head of less than `2³¹` bytes. -/
structure Sendable (r : Request) : Prop where
  /-- The first line can be read back. -/
  line : Plain r.line
  /-- The headers can be read back. -/
  plainHeads : PlainHeads r.heads_
  /-- The headers give the length of the content. -/
  framed : Framed r
  /-- The content begins at a place that is an `int`. -/
  short : (r.head (firstLine r.line)).length < 2 ^ 31

theorem Sendable.readable {r : Request} (h : Sendable r) : r.Readable (firstLine r.line) :=
  ⟨h.line.firstLine.1, h.line.firstLine.2, h.plainHeads, h.short⟩

/-- The request that is received. -/
def received (r : Request) : Request := ⟨{ r.line with value_ := [] }, r.heads_, r.content_⟩

/-- A head that is read, and then any content. -/
theorem unpack_head {r : Request} {line : RequestLine} (h : r.Legible (firstLine r.line))
    (hshort : (r.head (firstLine r.line)).length < 2 ^ 31)
    (haccepted : unpackUrl new.line (firstLine r.line) = .ok (0, line)) (content : Bytes) :
    unpack new (r.head (firstLine r.line) ++ content) = .ok (.Success, ⟨line, r.heads_, content⟩) := by
  have hpack : r.head (firstLine r.line) ++ content =
      Message.pack (firstLine r.line) { r with content_ := content } :=
    (Message.pack_eq (firstLine r.line) { r with content_ := content }).symm
  have hread : ({ r with content_ := content } : Request).Legible (firstLine r.line) :=
    ⟨h.oneLine, h.nonempty, h.heads⟩
  rw [hpack]
  exact hread.unpack_pack hshort haccepted _

/-- A part of a head is not whole. -/
theorem unpackAndCompleted_of_short {r : Request} (h : r.Legible (firstLine r.line)) {data : Bytes}
    {content : Bytes} (hdata : data <+: r.head (firstLine r.line) ++ content)
    (hlt : data.length < (r.head (firstLine r.line)).length) :
    unpackAndCompleted new data = .ok (.Fail, new) := by
  have hread : ({ r with content_ := content } : Request).Legible (firstLine r.line) :=
    ⟨h.oneLine, h.nonempty, h.heads⟩
  have hpack : data <+: Message.pack (firstLine r.line) { r with content_ := content } := by
    rw [Message.pack_eq]
    exact hdata
  have hfail : unpack new data = .ok (.Fail, new) :=
    hread.unpack_of_isPrefix hpack hlt unpackUrl new
  rw [unpackAndCompleted, hfail]
  rfl

/-- A content of another length is not whole; the content of the length given is. -/
theorem unpackAndCompleted_head {r : Request} (h : Sendable r) (content : Bytes)
    (hlt : content.length ≤ r.content_.length) :
    unpackAndCompleted new (r.head (firstLine r.line) ++ content) =
      .ok (if content.length = r.content_.length then .Success else .Fail,
        { received r with content_ := content }) := by
  have hunpack : unpack new (r.head (firstLine r.line) ++ content) =
      .ok (.Success, { received r with content_ := content }) :=
    unpack_head h.readable.legible h.short (unpackUrl_firstLine h.line _) content
  rw [unpackAndCompleted, hunpack]
  simp only [Exec.ok_bind, if_true]
  have hlength : Message.contentLength { received r with content_ := content } = r.contentLength := rfl
  rw [hlength]
  obtain ⟨hlen, hsmall⟩ | ⟨hnone, hnil⟩ := h.framed
  · have hvalue : r.contentLength = some (numeral 10 r.content_.length) := by
      rw [Message.contentLength, hlen]
    rw [hvalue]
    simp only [stoi_numeral (by decide : 1 < 10) (by decide) hsmall, Exec.ok_bind, toUInt64_natCast]
    by_cases heq : content.length = r.content_.length
    · rw [if_pos heq, if_pos heq.symm]
      rfl
    · rw [if_neg heq, if_neg (Ne.symm heq)]
      rfl
  · rw [hnone, if_pos (by rw [hnil] at hlt ⊢; simpa using hlt)]

/-- **A request is whole when its last byte has come.** -/
theorem unpackAndCompleted_pack {r : Request} (h : Sendable r) :
    unpackAndCompleted new (pack r) = .ok (.Success, received r) := by
  have hwhole := unpackAndCompleted_head h r.content_ le_rfl
  rwa [if_pos rfl, ← Message.pack_eq] at hwhole

/-- **Before that it is neither whole nor an error.** -/
theorem unpackAndCompleted_of_isPrefix {r : Request} (h : Sendable r) {data : Bytes}
    (hdata : data <+: pack r) (hne : data ≠ pack r) :
    ∃ req, unpackAndCompleted new data = .ok (.Fail, req) := by
  have hpack : pack r = r.head (firstLine r.line) ++ r.content_ := Message.pack_eq (firstLine r.line) r
  by_cases hlt : data.length < (r.head (firstLine r.line)).length
  · exact ⟨new, unpackAndCompleted_of_short h.readable.legible (hpack ▸ hdata) hlt⟩
  · -- the head is whole, the content is not
    obtain ⟨t, ht⟩ := hdata
    obtain ⟨content, rfl⟩ : r.head (firstLine r.line) <+: data :=
      List.prefix_of_prefix_length_le (hpack ▸ List.prefix_append _ _) (ht ▸ List.prefix_append data t)
        (by omega)
    rw [hpack, List.append_assoc, List.append_cancel_left_eq] at ht
    have hle : content.length ≤ r.content_.length := by rw [← ht]; simp
    have hlt : content.length ≠ r.content_.length := by
      rintro heq
      apply hne
      rw [hpack, ← List.IsPrefix.eq_of_length ⟨t, ht⟩ heq]
    exact ⟨_, by rw [unpackAndCompleted_head h content hle, if_neg hlt]⟩

/-! ### Requests with bytes behind them -/

/-- A request whose end is told by its head: its lines stay apart, the first is read, as `line`, and the
length that the headers give is that of the content. -/
structure Delimited (r : Request) (line : RequestLine) : Prop where
  /-- The lines stay apart. -/
  legible : r.Legible (firstLine r.line)
  /-- The content begins at a place that is an `int`. -/
  short : (r.head (firstLine r.line)).length < 2 ^ 31
  /-- The first line is accepted. -/
  accepted : unpackUrl new.line (firstLine r.line) = .ok (0, line)
  /-- The headers give the length of the content. -/
  announced : ∃ value, r.contentLength = some value ∧ stoi 10 value = .ok (r.content_.length : ℤ)

/-- A request that can be sent and has a `Content-Length` is one. -/
theorem Sendable.delimited {r : Request} (h : Sendable r)
    (hlen : r.heads_[bytes "Content-Length"]? = some (numeral 10 r.content_.length))
    (hsmall : r.content_.length < 2 ^ 31) : Delimited r { r.line with value_ := [] } := by
  refine ⟨h.readable.legible, h.short, unpackUrl_firstLine h.line _, numeral 10 r.content_.length, ?_, ?_⟩
  · rw [Message.contentLength, hlen]
  · exact stoi_numeral (by decide) (by decide) hsmall

/-- The head of a request with a length, and some content: whole when the content has that length. -/
theorem Delimited.unpackAndCompleted_head {r : Request} {line : RequestLine} (h : Delimited r line)
    (content : Bytes) : unpackAndCompleted new (r.head (firstLine r.line) ++ content) =
      .ok (if content.length = r.content_.length then .Success else .Fail,
        ⟨line, r.heads_, content⟩) := by
  obtain ⟨value, hvalue, hsize⟩ := h.announced
  have hlength : Message.contentLength (⟨line, r.heads_, content⟩ : Request) = some value := hvalue
  rw [unpackAndCompleted, unpack_head h.legible h.short h.accepted]
  simp only [Exec.ok_bind, if_true, hlength, hsize, toUInt64_natCast]
  by_cases heq : content.length = r.content_.length
  · rw [if_pos heq, if_pos heq.symm]
    rfl
  · rw [if_neg heq, if_neg (Ne.symm heq)]
    rfl

/-- **The request itself is whole**, with its content. -/
theorem Delimited.unpackAndCompleted_pack {r : Request} {line : RequestLine} (h : Delimited r line) :
    unpackAndCompleted new (pack r) = .ok (.Success, ⟨line, r.heads_, r.content_⟩) := by
  have hwhole := h.unpackAndCompleted_head r.content_
  rwa [if_pos rfl, ← Message.pack_eq] at hwhole

/-- **With a byte too few or too many it is neither whole nor an error.** -/
theorem Delimited.unpackAndCompleted_of_ne {r : Request} {line : RequestLine} (h : Delimited r line)
    {data extra : Bytes} (hdata : data <+: pack r ++ extra) (hne : data.length ≠ (pack r).length) :
    ∃ req, unpackAndCompleted new data = .ok (.Fail, req) := by
  rw [pack, Message.pack_eq, List.append_assoc] at hdata
  rw [pack, Message.pack_eq, List.length_append] at hne
  by_cases hlt : data.length < (r.head (firstLine r.line)).length
  · exact ⟨new, unpackAndCompleted_of_short h.legible hdata hlt⟩
  · obtain ⟨content, rfl⟩ : r.head (firstLine r.line) <+: data :=
      List.prefix_of_prefix_length_le (List.prefix_append _ _) hdata (by omega)
    rw [List.length_append] at hne
    exact ⟨_, by rw [h.unpackAndCompleted_head, if_neg (by omega)]⟩

/-! ### The round trip -/

/-- **Requests round-trip.** A new request reads what a request with a plain first line and
plain headers has written, whatever its content, and keeps the same method, version, path,
parameters, headers and content. -/
theorem request_roundtrip (r : Request) (hline : Plain r.line) (hheads : PlainHeads r.heads_)
    (hlen : (r.head (firstLine r.line)).length < 2 ^ 31) :
    unpack new (pack r) = .ok (.Success, ⟨{ r.line with value_ := [] }, r.heads_, r.content_⟩) := by
  obtain ⟨h1, h2⟩ := hline.firstLine
  exact Message.unpack_pack ⟨h1, h2, hheads, hlen⟩ (unpackUrl_firstLine hline _) _

/-- A request with an empty parameter, an ampersand in a name, an equals sign in a value, and
a blank line in its content. -/
def sample : Request :=
  ⟨⟨.Http1_0, .Post, bytes "/a/b", [], .ofList [([], []), (bytes "k&", bytes "=v=")]⟩,
    .ofList [(bytes "Host:", bytes " x: y")], bytes "p\r\n\r\nq"⟩

theorem request_roundtrip_sample : unpack new (pack sample) =
    .ok (.Success, ⟨{ sample.line with value_ := [] }, sample.heads_, sample.content_⟩) :=
  request_roundtrip sample
    ⟨by decide, by decide, by decide, by decide +kernel, by decide, by decide +kernel⟩ (by decide)
    (by decide)

end Request

end UvCpp.Http
