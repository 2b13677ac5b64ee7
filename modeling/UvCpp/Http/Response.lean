import UvCpp.Http.Message

/-!
# Responses

The first line of a response is a version, a status code and a text. The content of a
response is whole when it has the length the headers give or, with
`Transfer-Encoding: chunked`, when its last chunk has come; `isCompletedChunked` then puts
the chunks together.

A response with a text is read as it was written. Without one, the first line ends with the
space before the missing text, which `SplitStrOfSpace` refuses; `response_roundtrip_iff` says
that this is the only exception.
-/

namespace UvCpp.Http

open UvCpp.Cpp

/-- What a `Response` keeps of its first line. -/
@[ext]
structure StatusLine where
  /-- The version. -/
  version_ : HttpVersion
  /-- The status code. -/
  statusCode_ : ℤ
  /-- The text. -/
  statusInfo_ : Bytes
  deriving DecidableEq

/-- `uv::http::Response`. -/
abbrev Response := Message StatusLine

/-- What a round of the loop of `isCompletedChunked` comes to. -/
inductive ChunkStep where
  /-- It returns, with this content. -/
  | done (rst : ParseResult) (content : Bytes)
  /-- It goes on, with these values of `p1` and `temp`. -/
  | next (p1 : ℕ) (temp : Bytes)

namespace Response

/-- A new response. -/
def new : Response := ⟨⟨.Http1_1, 200, []⟩, ∅, []⟩

/-- The first line, as `pack` writes it. -/
def firstLine (r : StatusLine) : Bytes :=
  HttpVersionToStr r.version_ ++ bytes " " ++ intToStr r.statusCode_ ++ bytes " " ++ r.statusInfo_

/-- `pack`. -/
def pack (r : Response) : Bytes := Message.pack (firstLine r.line) r

/-- `parseStatus`: the return code, and the response. -/
def parseStatus (r : StatusLine) (str : Bytes) : Exec (ℤ × StatusLine) := do
  let (_, out) ← SplitStrOfSpace str
  match out with
  | [version, code, info] =>
    let r := { r with version_ := GetHttpVersion version }
    Exec.catchAll
      (do
        let statusCode ← stoi 10 code
        .ok (0, { r with statusCode_ := statusCode, statusInfo_ := info }))
      (.ok (-1, r))
  | _ => .ok (-1, r)

/-- `unpack`. -/
def unpack (r : Response) (data : Bytes) : Exec (ParseResult × Response) :=
  Message.unpack parseStatus r data

/-- A round of the loop of `isCompletedChunked`. -/
def chunkStep (content : Bytes) (p1 : ℕ) (temp : Bytes) : Exec ChunkStep :=
  match find content (bytes "\r\n") (p1 + 1) with
  | none => .ok (.done .Fail content)
  | some p2 =>
    Exec.catchAll
      (do
        let str ← substr content p1 (usub p2 p1)
        let num := toUInt64 (← stoi 16 str)
        if num = 0 then .ok (.done .Success temp)
        else
          let p1 := (p2 + 2 + num) % 2 ^ 64
          if content.length < p1 then .ok (.done .Fail content)
          else do
            let chunk ← substr content (p2 + 2) num
            let temp ← plusAssign temp chunk
            .ok (.next p1 temp))
      (.ok (.done .Error content))

/-- The loop of `isCompletedChunked`, for at most so many rounds. -/
def chunkLoop (content : Bytes) : ℕ → ℕ → Bytes → Exec (ParseResult × Bytes)
  | 0, _, _ => .error .loops
  | fuel + 1, p1, temp => do
    match ← chunkStep content p1 temp with
    | .done rst content => .ok (rst, content)
    | .next p1 temp => chunkLoop content fuel p1 temp

/-- More rounds than there are places at which one can begin, and lengths of what is put together then. -/
def chunkRounds (content : Bytes) : ℕ := (content.length + 1) * 2 ^ 63

/-- `isCompletedChunked`. What a round comes to follows from where it begins and from the length of
what is put together; so after so many rounds the loop never ends. -/
def isCompletedChunked (r : Response) : Exec (ParseResult × Response) := do
  let (rst, content) ← chunkLoop r.content_ (chunkRounds r.content_) 0 []
  .ok (rst, { r with content_ := content })

/-- `unpackAndCompleted`. -/
def unpackAndCompleted (r : Response) (data : Bytes) : Exec (ParseResult × Response) := do
  let (rst, r) ← unpack r data
  if rst = .Success then
    match r.contentLength with
    | some value =>
      Exec.catchAll
        (do
          let size ← stoi 10 value
          if toUInt64 size = r.content_.length then .ok (.Success, r) else .ok (.Fail, r))
        (.ok (.Fail, r))
    | none =>
      if r.heads_[bytes "Transfer-Encoding"]? = some (bytes "chunked") then isCompletedChunked r
      else .ok (.Fail, r)
  else .ok (.Fail, r)

/-! ### The round trip -/

/-- A first line that holds no CR or LF, with a known version and a code that is an `int`. -/
structure Plain (r : StatusLine) : Prop where
  /-- The version is known. -/
  version : r.version_ ≠ .Unknown
  /-- The code is an `int`. -/
  code : IsInt r.statusCode_
  /-- No CR or LF in the text. -/
  info : 13 ∉ r.statusInfo_ ∧ 10 ∉ r.statusInfo_

/-- The text of a number is a word. -/
theorem intToStr_word (z : ℤ) : intToStr z ≠ [] ∧ 32 ∉ intToStr z ∧ 13 ∉ intToStr z := by
  have hdigit : ∀ d < 10, digitByte d ≠ 32 ∧ digitByte d ≠ 13 := by decide
  refine ⟨intToStr_ne_nil z, fun h => ?_, fun h => ?_⟩
  · obtain h | ⟨d, hd, h⟩ := mem_intToStr h
    · exact absurd h (by decide)
    · exact (hdigit d hd).1 h.symm
  · obtain h | ⟨d, hd, h⟩ := mem_intToStr h
    · exact absurd h (by decide)
    · exact (hdigit d hd).2 h.symm

/-- The first line without its text. -/
theorem firstLine_eq (r : StatusLine) :
    firstLine r = HttpVersionToStr r.version_ ++ 32 :: (intToStr r.statusCode_ ++ 32 :: r.statusInfo_) := by
  rw [firstLine]
  simp

/-- **A first line with a text is read as it was written.** -/
theorem parseStatus_of_ne {r : StatusLine} (h : Plain r) (hne : r.statusInfo_ ≠ []) (r₀ : StatusLine) :
    parseStatus r₀ (firstLine r) = .ok (0, r) := by
  obtain ⟨hv1, hv2, -⟩ := httpVersionToStr_word h.version
  obtain ⟨hc1, hc2, -⟩ := intToStr_word r.statusCode_
  rw [parseStatus, firstLine_eq, splitStrOfSpace_words hv1 hv2 hc1 hc2 hne]
  simp [stoi_intToStr h.code]

/-- **A first line without a text is refused.** -/
theorem parseStatus_of_eq_nil {r : StatusLine} (h : Plain r) (hnil : r.statusInfo_ = [])
    (r₀ : StatusLine) : parseStatus r₀ (firstLine r) = .ok (-1, r₀) := by
  obtain ⟨hv1, hv2, -⟩ := httpVersionToStr_word h.version
  obtain ⟨hc1, hc2, -⟩ := intToStr_word r.statusCode_
  rw [parseStatus, firstLine_eq, hnil, splitStrOfSpace_two hv1 hv2 hc1 hc2]
  simp

theorem Plain.firstLine {r : StatusLine} (h : Plain r) : 13 ∉ firstLine r ∧ firstLine r ≠ [] := by
  obtain ⟨hv1, -, hv3⟩ := httpVersionToStr_word h.version
  obtain ⟨-, -, hc3⟩ := intToStr_word r.statusCode_
  rw [firstLine_eq]
  constructor
  · simp [hv3, hc3, h.info.1]
  · simp [hv1]

/-- The head of a response can be read back. -/
structure Headed (r : Response) : Prop where
  /-- The first line can be read back. -/
  line : Plain r.line
  /-- It has a text. -/
  info : r.line.statusInfo_ ≠ []
  /-- The headers can be read back. -/
  plainHeads : PlainHeads r.heads_
  /-- The content begins at a place that is an `int`. -/
  short : (r.head (firstLine r.line)).length < 2 ^ 31

theorem Headed.readable {r : Response} (h : Headed r) : r.Readable (firstLine r.line) :=
  ⟨h.line.firstLine.1, h.line.firstLine.2, h.plainHeads, h.short⟩

/-- A head that is read, and then any content. -/
theorem Headed.unpack_head {r : Response} (h : Headed r) (content : Bytes) :
    unpack new (r.head (firstLine r.line) ++ content) = .ok (.Success, { r with content_ := content }) := by
  have hread : ({ r with content_ := content } : Response).Readable (firstLine r.line) :=
    ⟨h.readable.oneLine, h.readable.nonempty, h.plainHeads, h.short⟩
  have hpack : r.head (firstLine r.line) ++ content =
      Message.pack (firstLine r.line) { r with content_ := content } :=
    (Message.pack_eq (firstLine r.line) { r with content_ := content }).symm
  rw [hpack]
  exact Message.unpack_pack hread (parseStatus_of_ne h.line h.info new.line) []

/-- A head that has not come whole is waited for. -/
theorem Headed.unpack_of_isPrefix {r : Response} (h : Headed r) {content data : Bytes}
    (hdata : data <+: r.head (firstLine r.line) ++ content) (hlt : data.length < (r.head (firstLine r.line)).length) :
    unpack new data = .ok (.Fail, new) := by
  have hwithin := List.prefix_of_prefix_length_le hdata (List.prefix_append _ content) (Nat.le_of_lt hlt)
  refine h.readable.legible.unpack_of_isPrefix (hwithin.trans ?_) hlt parseStatus new
  rw [Message.pack_eq]
  exact List.prefix_append _ _

/-- **Responses round-trip when they have a text**, and only then. -/
theorem response_roundtrip_iff (r : Response) (hline : Plain r.line) (hheads : PlainHeads r.heads_)
    (hlen : (r.head (firstLine r.line)).length < 2 ^ 31) :
    unpack new (pack r) = .ok (.Success, r) ↔ r.line.statusInfo_ ≠ [] := by
  obtain ⟨h1, h2⟩ := hline.firstLine
  constructor
  · rintro h hnil
    rw [unpack, pack, new,
      Message.unpack_pack ⟨h1, h2, hheads, hlen⟩ (parseStatus_of_eq_nil hline hnil _)] at h
    simp at h
  · intro hne
    rw [unpack, pack, new, Message.unpack_pack ⟨h1, h2, hheads, hlen⟩ (parseStatus_of_ne hline hne _)]
    rfl

/-- A response with a negative code, a text that begins with a space, and a blank line in its
content. -/
def sample : Response :=
  ⟨⟨.Http1_0, -1, bytes " not here"⟩, .ofList [(bytes "A", []), ([], bytes "b: c")], bytes "\r\n\r\n"⟩

theorem response_roundtrip_iff_sample :
    unpack new (pack sample) = .ok (.Success, sample) ↔ sample.line.statusInfo_ ≠ [] :=
  response_roundtrip_iff sample ⟨by decide, by decide, by decide⟩ (by decide) (by decide)

/-- A new response is not read back. -/
theorem not_roundtrip_new : unpack new (pack new) ≠ .ok (.Success, new) := by
  have h : (unpack new (pack new)).map Prod.fst = .ok .Error := by decide
  intro hsuccess
  rw [hsuccess] at h
  cases h

end Response

end UvCpp.Http
