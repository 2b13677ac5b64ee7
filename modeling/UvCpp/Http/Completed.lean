import UvCpp.Http.Heads

/-!
# Whole messages

`unpackAndCompleted` reads the head, and then compares the content with the length in the head. The
classes `Request` and `Response` do so alike, with two differences.

A length that is no `int` makes `stoi` throw: the request then counts as whole and the response as not
whole (`measured`). So the length decides below `2³¹`, and above it only as far as these guesses are
right (`decides_iff`).

A head that is not one of a message is an error to `Request`; `Response` says of it, too, that it is not
whole yet (`reports_iff`).
-/

namespace UvCpp.Http

open UvCpp.Cpp

/-! ### The length in the head -/

/-- What a content is by the length in the head; `otherwise`, if that is no `int`. -/
def measured (value content : Bytes) (otherwise : ParseResult) : ParseResult :=
  match stoi 10 value with
  | .ok size => if toUInt64 size = content.length then .Success else .Fail
  | .error _ => otherwise

/-- A content that should have `n` bytes. -/
theorem measured_of_numeral {value : Bytes} {n : ℕ} (h : IsNumeral 10 value n) (content : Bytes)
    (otherwise : ParseResult) : measured value content otherwise =
      if n < 2 ^ 31 then if n = content.length then .Success else .Fail else otherwise := by
  rw [measured, h.stoi_eq_ite (by decide)]
  split_ifs <;> simp_all

/-- A content that counts as whole only if the length says so. -/
theorem measured_fail_eq_success_iff {value content : Bytes} :
    measured value content .Fail = .Success ↔ ∃ z, stoi 10 value = .ok z ∧ toUInt64 z = content.length := by
  rw [measured]
  cases stoi 10 value with
  | error e => simp
  | ok z => simp

/-- The comparison, as both classes make it. -/
theorem measured_eq {Line : Type} (value : Bytes) (m : Message Line) (otherwise : ParseResult) :
    Exec.catchAll
      (do
        let size ← stoi 10 value
        if toUInt64 size = m.content_.length then .ok (.Success, m) else .ok (.Fail, m))
      (.ok (otherwise, m)) = .ok (measured value m.content_ otherwise, m) := by
  rw [measured]
  obtain hz | ⟨z, -, hz⟩ := stoi_cases 10 value
  · rw [hz]
    rfl
  · rw [hz, Exec.ok_bind]
    dsimp only
    split <;> rfl

namespace Request

theorem unpackAndCompleted_of_success {r m : Request} {data : Bytes} (h : unpack r data = .ok (.Success, m)) :
    unpackAndCompleted r data =
      .ok (m.contentLength.elim .Success fun value => measured value m.content_ .Success, m) := by
  rw [unpackAndCompleted, h, Exec.ok_bind]
  simp only [if_true, measured_eq]
  cases m.contentLength <;> rfl

theorem unpackAndCompleted_of_error {r : Request} {data : Bytes} {e : Fault} (h : unpack r data = .error e) :
    unpackAndCompleted r data = .error e := by
  rw [unpackAndCompleted, h, Exec.error_bind]

theorem unpackAndCompleted_of_ne {r m : Request} {data : Bytes} {rst : ParseResult}
    (h : unpack r data = .ok (rst, m)) (hrst : rst ≠ .Success) :
    unpackAndCompleted r data = .ok (rst, m) := by
  rw [unpackAndCompleted, h, Exec.ok_bind]
  exact if_neg hrst

end Request

namespace Response

theorem unpackAndCompleted_of_length {r m : Response} {data value : Bytes}
    (h : unpack r data = .ok (.Success, m)) (hvalue : m.contentLength = some value) :
    unpackAndCompleted r data = .ok (measured value m.content_ .Fail, m) := by
  rw [unpackAndCompleted, h, Exec.ok_bind]
  simp only [if_true, hvalue, measured_eq]

/-- Without a length, a chunked content is put together. -/
theorem unpackAndCompleted_of_none {r m : Response} {data : Bytes} (h : unpack r data = .ok (.Success, m))
    (hnone : m.contentLength = none) : unpackAndCompleted r data =
      if m.heads_[bytes "Transfer-Encoding"]? = some (bytes "chunked") then isCompletedChunked m
      else .ok (.Fail, m) := by
  rw [unpackAndCompleted, h, Exec.ok_bind]
  simp only [if_true, hnone]

theorem unpackAndCompleted_of_error {r : Response} {data : Bytes} {e : Fault} (h : unpack r data = .error e) :
    unpackAndCompleted r data = .error e := by
  rw [unpackAndCompleted, h, Exec.error_bind]

theorem unpackAndCompleted_of_ne {r m : Response} {data : Bytes} {rst : ParseResult}
    (h : unpack r data = .ok (rst, m)) (hrst : rst ≠ .Success) :
    unpackAndCompleted r data = .ok (.Fail, m) := by
  rw [unpackAndCompleted, h, Exec.ok_bind]
  exact if_neg hrst

end Response

/-- A verdict on a content that should have `n` bytes: whole if it has them, and not if it has fewer. -/
def Decides (n : ℕ) (content : Bytes) (rst : ParseResult) : Prop :=
  (content.length = n → rst = .Success) ∧ (content.length < n → rst ≠ .Success)

/-- The verdict that counts a length above the `int`s as one that the content has. -/
theorem decides_measured_success_iff {value : Bytes} {n : ℕ} (h : IsNumeral 10 value n) (content : Bytes) :
    Decides n content (measured value content .Success) ↔ n < 2 ^ 31 ∨ n ≤ content.length := by
  rw [measured_of_numeral h, Decides]
  by_cases hn : n < 2 ^ 31
  · rw [if_pos hn]
    refine iff_of_true ⟨fun heq => if_pos heq.symm, fun hlt => ?_⟩ (.inl hn)
    rw [if_neg (by omega)]
    decide
  · rw [if_neg hn, or_iff_right hn]
    constructor
    · exact fun hdecides => not_lt.mp fun hlt => hdecides.2 hlt rfl
    · exact fun hle => ⟨fun _ => rfl, fun hlt => absurd hlt (not_lt.mpr hle)⟩

/-- The verdict that counts it as one that the content has not. -/
theorem decides_measured_fail_iff {value : Bytes} {n : ℕ} (h : IsNumeral 10 value n) (content : Bytes) :
    Decides n content (measured value content .Fail) ↔ n < 2 ^ 31 ∨ content.length ≠ n := by
  rw [measured_of_numeral h, Decides]
  by_cases hn : n < 2 ^ 31
  · rw [if_pos hn]
    refine iff_of_true ⟨fun heq => if_pos heq.symm, fun hlt => ?_⟩ (.inl hn)
    rw [if_neg (by omega)]
    decide
  · have hfail : ParseResult.Fail ≠ .Success := by decide
    rw [if_neg hn, or_iff_right hn]
    constructor
    · exact fun hdecides heq => hfail (hdecides.1 heq)
    · exact fun hne => ⟨fun heq => absurd heq hne, fun _ => hfail⟩

/-- **When the length in the head decides**: below `2³¹`; and from there on, for a request unless bytes
are missing, and for a response unless it is whole. -/
theorem decides_iff {value : Bytes} {n : ℕ} (hvalue : IsNumeral 10 value n) :
    (∀ data m, Request.unpack .new data = .ok (.Success, m) →
      m.heads_[bytes "Content-Length"]? = some value →
        ∃ rst, Request.unpackAndCompleted .new data = .ok (rst, m) ∧
          (Decides n m.content_ rst ↔ n < 2 ^ 31 ∨ n ≤ m.content_.length)) ∧
    ∀ data m, Response.unpack .new data = .ok (.Success, m) →
      m.heads_[bytes "Content-Length"]? = some value →
        ∃ rst, Response.unpackAndCompleted .new data = .ok (rst, m) ∧
          (Decides n m.content_ rst ↔ n < 2 ^ 31 ∨ m.content_.length ≠ n) := by
  constructor
  · intro data m hm hhead
    have hlength : m.contentLength = some value := by rw [Message.contentLength, hhead]
    refine ⟨_, Request.unpackAndCompleted_of_success hm, ?_⟩
    rw [hlength]
    exact decides_measured_success_iff hvalue m.content_
  · intro data m hm hhead
    have hlength : m.contentLength = some value := by rw [Message.contentLength, hhead]
    exact ⟨_, Response.unpackAndCompleted_of_length hm hlength, decides_measured_fail_iff hvalue m.content_⟩

/-- A request of which a byte is missing, and a response with a byte too many. -/
theorem decides_iff_sample :
    (∃ m rst, Request.unpack .new (bytes "PUT / HTTP/1.1\r\nContent-Length: 02\r\n\r\na") = .ok (.Success, m) ∧
      Request.unpackAndCompleted .new (bytes "PUT / HTTP/1.1\r\nContent-Length: 02\r\n\r\na") = .ok (rst, m) ∧
        (Decides 2 m.content_ rst ↔ 2 < 2 ^ 31 ∨ 2 ≤ m.content_.length)) ∧
    ∃ m rst, Response.unpack .new (bytes "HTTP/1.1 200 OK\r\nContent-Length: 02\r\n\r\nabc") = .ok (.Success, m) ∧
      Response.unpackAndCompleted .new (bytes "HTTP/1.1 200 OK\r\nContent-Length: 02\r\n\r\nabc") = .ok (rst, m) ∧
        (Decides 2 m.content_ rst ↔ 2 < 2 ^ 31 ∨ m.content_.length ≠ 2) := by
  have hvalue : IsNumeral 10 (bytes "02") 2 := ⟨by decide, by decide +kernel, by decide⟩
  have hrequest : Request.unpack .new (bytes "PUT / HTTP/1.1\r\nContent-Length: 02\r\n\r\na") = .ok (.Success,
      ⟨⟨.Http1_1, .Put, bytes "/", [], ∅⟩, .ofList [(bytes "Content-Length", bytes "02")], bytes "a"⟩) := rfl
  have hresponse : Response.unpack .new (bytes "HTTP/1.1 200 OK\r\nContent-Length: 02\r\n\r\nabc") = .ok (.Success,
      ⟨⟨.Http1_1, 200, bytes "OK"⟩, .ofList [(bytes "Content-Length", bytes "02")], bytes "abc"⟩) := rfl
  obtain ⟨rst, hwhole, hiff⟩ := (decides_iff hvalue).1 _ _ hrequest rfl
  obtain ⟨rst', hwhole', hiff'⟩ := (decides_iff hvalue).2 _ _ hresponse rfl
  exact ⟨⟨_, rst, hrequest, hwhole, hiff⟩, _, rst', hresponse, hwhole', hiff'⟩

/-- **A length that is no `int`**: a request with `2³¹` bytes to come counts as whole before the first of
them. -/
theorem not_decides :
    ∃ m, Request.unpack .new (bytes "PUT / HTTP/1.1\r\nContent-Length: 2147483648\r\n\r\n") = .ok (.Success, m) ∧
      m.heads_[bytes "Content-Length"]? = some (numeral 10 (2 ^ 31)) ∧ m.heads_[bytes "content-length"]? = none ∧
      Request.unpackAndCompleted .new (bytes "PUT / HTTP/1.1\r\nContent-Length: 2147483648\r\n\r\n") =
        .ok (.Success, m) ∧ ¬ Decides (2 ^ 31) m.content_ .Success := by
  refine ⟨⟨⟨.Http1_1, .Put, bytes "/", [], ∅⟩, .ofList [(bytes "Content-Length", bytes "2147483648")], []⟩,
    rfl, by decide +kernel, by decide +kernel, rfl, ?_⟩
  exact fun hdecides => hdecides.2 (by decide) rfl

/-! ### Verdicts -/

/-- Whoever says that bytes are no message, or not a whole one yet, is heard. -/
def Reports {Line : Type} (head whole : Exec (ParseResult × Message Line)) : Prop :=
  ∀ rst m, head = .ok (rst, m) → rst ≠ .Success → ∃ m', whole = .ok (rst, m')

/-- A first line that a response accepts: three words, and the second begins with an `int`. -/
def Response.AcceptsStatus (str : Bytes) : Prop :=
  ∃ code version status info z,
    SplitStrOfSpace str = .ok (code, [version, status, info]) ∧ stoi 10 status = .ok z

/-- A first line is accepted or refused whatever the response is. -/
theorem Response.parseStatus_eq_zero_iff {r : StatusLine} {str : Bytes} :
    (∃ r', parseStatus r str = .ok (0, r')) ↔ AcceptsStatus str := by
  obtain ⟨⟨code, out⟩, hsplit⟩ := returns_splitStrOfSpace str
  rw [parseStatus, hsplit, Exec.ok_bind, AcceptsStatus, hsplit]
  simp only
  split
  · next version status info =>
    obtain hz | ⟨z, -, hz⟩ := stoi_cases 10 status
    · simp [hz]
    · simp [hz]
  · next hwords =>
    simp only [Except.ok.injEq, Prod.mk.injEq, Int.reduceNeg, Int.neg_eq_zero, one_ne_zero, false_and,
      exists_false, false_iff, not_exists, not_and]
    rintro _ version status info z ⟨-, rfl⟩
    exact absurd rfl (hwords version status info)

/-- The lines of a head are read, or refused, whatever the response is. -/
theorem Response.exists_readHead (r : Response) (first : Bytes) (headList : List Bytes) :
    ∃ code m, Message.readHead parseStatus r first headList = .ok (code, m) ∧
      (code = 0 ↔ AcceptsStatus first ∧ ∀ l ∈ headList, search [58, 32] l ≠ none) := by
  obtain ⟨⟨code, line⟩, hparse⟩ := returns_parseStatus r.line first
  rw [Message.readHead, hparse, Exec.ok_bind]
  by_cases hcode : code = 0
  · subst hcode
    have haccepts : AcceptsStatus first := parseStatus_eq_zero_iff.mp ⟨line, hparse⟩
    obtain ⟨⟨code, heads⟩, happend⟩ := returns_appendHeads headList r.heads_
    simp only [ne_eq, not_true_eq_false, if_false, happend, Exec.ok_bind]
    refine ⟨code, _, rfl, ?_, ?_⟩
    · rintro rfl
      obtain ⟨its, rfl, hits, -⟩ := appendHeads_eq_zero_iff.mp happend
      refine ⟨haccepts, fun l hl => ?_⟩
      obtain ⟨it, -, rfl⟩ := List.mem_map.mp hl
      exact search_headerLine_ne_none it
    · rintro ⟨-, hlines⟩
      obtain ⟨its, rfl, hits⟩ := exists_headerLines hlines
      rw [appendHeads_headerLines hits] at happend
      simp only [Except.ok.injEq, Prod.mk.injEq] at happend
      exact happend.1.symm
  · simp only [ne_eq, hcode, not_false_eq_true, if_true]
    refine ⟨code, _, rfl, fun h => absurd h hcode, ?_⟩
    rintro ⟨haccepts, -⟩
    obtain ⟨line', hparse'⟩ := parseStatus_eq_zero_iff (r := r.line).mpr haccepts
    rw [hparse, Except.ok.injEq, Prod.mk.injEq] at hparse'
    exact hparse'.1

/-- **Which verdicts reach the caller**: all those on requests; and those on responses if the first line,
and each line behind it, is accepted. -/
theorem reports_iff (data : Bytes) :
    Reports (Request.unpack .new data) (Request.unpackAndCompleted .new data) ∧
      (Reports (Response.unpack .new data) (Response.unpackAndCompleted .new data) ↔
        ∀ pos first headList, SplitHttpOfCRLF data = .ok (pos, first :: headList) → pos ≠ -1 →
          Response.AcceptsStatus first ∧ ∀ l ∈ headList, search (bytes ": ") l ≠ none) := by
  refine ⟨fun rst m hm hrst => ⟨m, Request.unpackAndCompleted_of_ne hm hrst⟩, ?_⟩
  rw [bytes_colonSpace]
  constructor
  · intro hreports pos first headList hsplit hpos
    obtain ⟨code, m, hread, hiff⟩ := Response.exists_readHead .new first headList
    refine hiff.mp ?_
    -- otherwise `unpack` says that this is no message
    by_contra hcode
    have herror : Response.unpack .new data = .ok (.Error, m) := by
      rw [Response.unpack, Message.unpack_of_split hsplit hpos, hread, Exec.ok_bind]
      exact if_pos hcode
    obtain ⟨m', hwhole⟩ := hreports .Error m herror (by decide)
    rw [Response.unpackAndCompleted_of_ne herror (by decide)] at hwhole
    simp at hwhole
  · intro haccepts rst m hm hrst
    obtain ⟨rfl, -, -⟩ | ⟨pos, first, headList, hsplit, hpos, ⟨code, hcode, hread, rfl⟩ |
      ⟨_, _, _, -, -, -, hsuccess, -⟩⟩ := Message.unpack_cases hm
    · exact ⟨m, Response.unpackAndCompleted_of_ne hm hrst⟩
    · obtain ⟨code', m', hread', hiff⟩ := Response.exists_readHead .new first headList
      rw [hread, Except.ok.injEq, Prod.mk.injEq] at hread'
      exact absurd (hread'.1.trans (hiff.mpr (haccepts pos first headList hsplit hpos))) hcode
    · exact absurd hsuccess hrst

/-- **A response that is none**: it is an error to `unpack`, and to the caller it is not whole yet. -/
theorem not_reports :
    ¬ Reports (Response.unpack .new (bytes "x\r\n\r\n"))
      (Response.unpackAndCompleted .new (bytes "x\r\n\r\n")) := by
  intro hreports
  obtain ⟨m, hm⟩ := hreports .Error Response.new rfl (by decide)
  have hwhole : Response.unpackAndCompleted .new (bytes "x\r\n\r\n") = .ok (.Fail, Response.new) := rfl
  rw [hwhole] at hm
  cases hm

end UvCpp.Http
