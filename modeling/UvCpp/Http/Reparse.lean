import UvCpp.Http.Heads

/-!
# Reading a head again

The server and the client read the head of a message on each arrival, from all the bytes that have come.
What was said of it stays said when more bytes come (`unpack_stable`): the search for the blank line and
the cutting of the lines do not look behind it.

An object that was used before keeps what it has read. Reading succeeds whenever it does for a new object
(`reuse_iff`); but the headers are added to those that are there, and the value of a request is only
written if the target has a colon.
-/

namespace UvCpp.Http

open UvCpp.Cpp

/-- **Heads are read once and for all.** From bytes that do not begin with a blank line, and have a short
head, both `unpack`s return; and unless the head is not whole, more bytes change nothing but the content. -/
theorem unpack_stable (a b : Bytes) (hblank : ¬ [13, 10, 13, 10] <+: a) (hshort : ShortHead a) :
    (∃ rst m, Request.unpack Request.new a = .ok (rst, m) ∧
      (rst ≠ .Fail → Request.unpack Request.new (a ++ b) = .ok (rst, m.extended rst b))) ∧
    ∃ rst m, Response.unpack Response.new a = .ok (rst, m) ∧
      (rst ≠ .Fail → Response.unpack Response.new (a ++ b) = .ok (rst, m.extended rst b)) := by
  obtain ⟨⟨rst, m⟩, hrequest⟩ := (returns_unpack_iff Request.returns_unpackUrl Request.new hshort).mpr hblank
  obtain ⟨⟨rst', m'⟩, hresponse⟩ :=
    (returns_unpack_iff Response.returns_parseStatus Response.new hshort).mpr hblank
  exact ⟨⟨rst, m, hrequest, fun hrst => Message.unpack_append_of_ne hrequest hrst b⟩,
    rst', m', hresponse, fun hrst => Message.unpack_append_of_ne hresponse hrst b⟩

/-- The head of a request whose last line is refused, and one more byte. -/
theorem unpack_stable_sample :
    (∃ rst m, Request.unpack Request.new (bytes "GET / HTTP/1.1\r\nA\r\n\r\n") = .ok (rst, m) ∧
      (rst ≠ .Fail → Request.unpack Request.new (bytes "GET / HTTP/1.1\r\nA\r\n\r\n" ++ [120]) =
        .ok (rst, m.extended rst [120]))) ∧
    ∃ rst m, Response.unpack Response.new (bytes "GET / HTTP/1.1\r\nA\r\n\r\n") = .ok (rst, m) ∧
      (rst ≠ .Fail → Response.unpack Response.new (bytes "GET / HTTP/1.1\r\nA\r\n\r\n" ++ [120]) =
        .ok (rst, m.extended rst [120])) :=
  unpack_stable _ _ (by decide) (shortHead_of_lt (by decide))

/-! ### Objects that were used before -/

/-- A header of some bytes has the given name. -/
def Named (data key : Bytes) : Prop :=
  ∃ pos first headList value, SplitHttpOfCRLF data = .ok (pos, first :: headList) ∧
    headerLine (key, value) ∈ headList ∧ search (bytes ": ") key = none

/-- The words of the first line of some bytes. -/
def Words (data methon target version : Bytes) : Prop :=
  ∃ pos first headList code, SplitHttpOfCRLF data = .ok (pos, first :: headList) ∧
    SplitStrOfSpace first = .ok (code, [methon, target, version])

/-- The names of the headers that are read. -/
theorem named_iff {data first : Bytes} {pos : ℤ} {its : List (Bytes × Bytes)}
    (hsplit : SplitHttpOfCRLF data = .ok (pos, first :: its.map headerLine))
    (hits : ∀ it ∈ its, search [58, 32] it.1 = none) (key : Bytes) :
    Named data key ↔ ∃ value, (key, value) ∈ its := by
  rw [Named, bytes_colonSpace]
  constructor
  · rintro ⟨pos', first', headList, value, hsplit', hmem, hkey⟩
    rw [hsplit, Except.ok.injEq, Prod.mk.injEq, List.cons.injEq] at hsplit'
    obtain ⟨-, -, rfl⟩ := hsplit'
    obtain ⟨it, hit, heq⟩ := List.mem_map.mp hmem
    exact ⟨value, headerLine_injective (hits it hit) hkey heq ▸ hit⟩
  · rintro ⟨value, hmem⟩
    exact ⟨pos, first, _, value, hsplit, List.mem_map_of_mem hmem, hits _ hmem⟩

/-- A used object and a new one, when they read the same. -/
theorem heads_eq_iff {data first : Bytes} {pos : ℤ} {its : List (Bytes × Bytes)}
    (hsplit : SplitHttpOfCRLF data = .ok (pos, first :: its.map headerLine))
    (hits : ∀ it ∈ its, search [58, 32] it.1 = none) (heads : StringMap) :
    its.foldl (fun m it => m.insert it.1 it.2) heads = its.foldl (fun m it => m.insert it.1 it.2) ∅ ↔
      ∀ key ∈ heads, Named data key := by
  rw [foldl_insert_eq_iff]
  simp only [named_iff hsplit hits]

/-- There is one first line, and it is cut in one way. -/
theorem words_iff {data first : Bytes} {pos code : ℤ} {headList : List Bytes} {methon target version : Bytes}
    (hsplit : SplitHttpOfCRLF data = .ok (pos, first :: headList))
    (hwords : SplitStrOfSpace first = .ok (code, [methon, target, version])) (a b c : Bytes) :
    Words data a b c ↔ a = methon ∧ b = target ∧ c = version := by
  constructor
  · rintro ⟨pos', first', headList', code', hsplit', hwords'⟩
    rw [hsplit, Except.ok.injEq, Prod.mk.injEq, List.cons.injEq] at hsplit'
    obtain ⟨-, rfl, -⟩ := hsplit'
    rw [hwords, Except.ok.injEq, Prod.mk.injEq] at hwords'
    simpa [eq_comm] using hwords'.2
  · rintro ⟨rfl, rfl, rfl⟩
    exact ⟨pos, first, headList, code, hsplit, hwords⟩

/-- A first line of a request, read by one that was used before. -/
theorem Request.unpackUrl_used {r₀ line : RequestLine} {str : Bytes} (h : unpackUrl r₀ str = .ok (0, line)) :
    ∃ code methon target version, SplitStrOfSpace str = .ok (code, [methon, target, version]) ∧
      ∀ r, unpackUrl r str =
        .ok (0, { line with value_ := if 58 ∈ target then line.value_ else r.value_ }) := by
  obtain ⟨code, methon, target, version, line, hsplit, hmethon, hpath, rfl⟩ := unpackUrl_eq_zero_iff.mp h
  obtain ⟨path, value, urlParms, htarget⟩ := exists_unpackPath target
  rw [htarget, Except.ok.injEq, Prod.mk.injEq] at hpath
  obtain ⟨-, rfl⟩ := hpath
  refine ⟨code, methon, target, version, hsplit, fun r => ?_⟩
  refine unpackUrl_eq_zero_iff.mpr ⟨code, methon, target, version, _, hsplit, hmethon, htarget _, ?_⟩
  split <;> simp_all

/-- A first line of a response leaves nothing of what was there. -/
theorem Response.parseStatus_used {r₀ line : StatusLine} {str : Bytes} (h : parseStatus r₀ str = .ok (0, line))
    (r : StatusLine) : parseStatus r str = .ok (0, line) := by
  rw [parseStatus, Exec.bind_eq_ok_iff] at h
  obtain ⟨⟨code, out⟩, hsplit, h⟩ := h
  rw [parseStatus, hsplit, Exec.ok_bind]
  simp only at h ⊢
  split at h
  · next version status info =>
    obtain hz | ⟨z, -, hz⟩ := stoi_cases 10 status
    · simp [hz] at h
    · simp only [hz, Exec.ok_bind, Exec.catchAll_ok, Except.ok.injEq, Prod.mk.injEq, true_and] at h ⊢
      exact h
  · simp at h

/-- **When an object can be used again.** Reading succeeds whenever it does for a new object; and it reads the
same exactly if each header that is there is read again and, for a request, if it has no value or the target
has a colon. -/
theorem reuse_iff (data : Bytes) :
    (∀ r m, Request.unpack Request.new data = .ok (.Success, m) →
      ∃ m', Request.unpack r data = .ok (.Success, m') ∧
        (m' = m ↔ (∀ key ∈ r.heads_, Named data key) ∧
          (r.line.value_ = [] ∨ ∃ methon target version, Words data methon target version ∧ 58 ∈ target))) ∧
    ∀ r m, Response.unpack Response.new data = .ok (.Success, m) →
      ∃ m', Response.unpack r data = .ok (.Success, m') ∧ (m' = m ↔ ∀ key ∈ r.heads_, Named data key) := by
  constructor
  · intro r m hm
    obtain ⟨pos, first, its, hsplit, hits, hparse, hheads, hused⟩ := Message.exists_lines_of_unpack hm
    obtain ⟨code, methon, target, version, hwords, hline⟩ := Request.unpackUrl_used hparse
    refine ⟨_, hused r _ (hline r.line), ?_⟩
    have hvalue : (if 58 ∈ target then m.line.value_ else r.line.value_) = m.line.value_ ↔
        r.line.value_ = [] ∨ 58 ∈ target := by
      by_cases hcolon : 58 ∈ target
      · simp [hcolon]
      · -- a new request has no value then
        have hnew := hline Request.new.line
        rw [hparse, if_neg hcolon, Except.ok.injEq, Prod.mk.injEq] at hnew
        have hnil : m.line.value_ = [] := congrArg RequestLine.value_ hnew.2
        simp [hcolon, hnil]
    have htarget : (∃ methon target version, Words data methon target version ∧ 58 ∈ target) ↔ 58 ∈ target := by
      simp only [words_iff hsplit hwords]
      simp
    rw [htarget, ← hvalue, ← heads_eq_iff hsplit hits, Message.ext_iff, RequestLine.ext_iff, hheads]
    simp only [Request.new, and_true, true_and]
    exact and_comm
  · intro r m hm
    obtain ⟨pos, first, its, hsplit, hits, hparse, hheads, hused⟩ := Message.exists_lines_of_unpack hm
    refine ⟨_, hused r _ (Response.parseStatus_used hparse r.line), ?_⟩
    rw [← heads_eq_iff hsplit hits, Message.ext_iff, hheads]
    simp [Response.new]

/-- A request with a header that is read again and a value, and a target without a colon. -/
def usedRequest : Request :=
  ⟨⟨.Http1_0, .Put, bytes "/x", bytes "v", ∅⟩, .ofList [(bytes "A", bytes "c")], []⟩

theorem reuse_iff_sample : ∃ m m',
    Request.unpack Request.new (bytes "GET / HTTP/1.1\r\nA: b\r\n\r\n") = .ok (.Success, m) ∧
    usedRequest.unpack (bytes "GET / HTTP/1.1\r\nA: b\r\n\r\n") = .ok (.Success, m') ∧
      (m' = m ↔ (∀ key ∈ usedRequest.heads_, Named (bytes "GET / HTTP/1.1\r\nA: b\r\n\r\n") key) ∧
        (usedRequest.line.value_ = [] ∨ ∃ methon target version,
          Words (bytes "GET / HTTP/1.1\r\nA: b\r\n\r\n") methon target version ∧ 58 ∈ target)) := by
  have hm : Request.unpack Request.new (bytes "GET / HTTP/1.1\r\nA: b\r\n\r\n") =
      .ok (.Success, ⟨⟨.Http1_1, .Get, bytes "/", [], ∅⟩, .ofList [(bytes "A", bytes "b")], []⟩) := rfl
  obtain ⟨m', hm', hiff⟩ := (reuse_iff _).1 usedRequest _ hm
  exact ⟨_, m', hm, hm', hiff⟩

/-- **A header that was left**: a request that had a content of five bytes takes the next one, which has no
content, for one of which five bytes are missing. -/
theorem not_reuse : ∃ m m' r : Request, r.heads_[bytes "Content-Length"]? = some (bytes "5") ∧
    Request.unpack Request.new (bytes "GET / HTTP/1.1\r\n\r\n") = .ok (.Success, m) ∧
    r.unpack (bytes "GET / HTTP/1.1\r\n\r\n") = .ok (.Success, m') ∧ m'.heads_ ≠ m.heads_ ∧
    Request.unpackAndCompleted Request.new (bytes "GET / HTTP/1.1\r\n\r\n") = .ok (.Success, m) ∧
      r.unpackAndCompleted (bytes "GET / HTTP/1.1\r\n\r\n") = .ok (.Fail, m') := by
  refine ⟨⟨⟨.Http1_1, .Get, bytes "/", [], ∅⟩, ∅, []⟩,
    ⟨⟨.Http1_1, .Get, bytes "/", [], ∅⟩, .ofList [(bytes "Content-Length", bytes "5")], []⟩,
    ⟨⟨.Http1_1, .Post, bytes "/", [], ∅⟩, .ofList [(bytes "Content-Length", bytes "5")], bytes "hello"⟩,
    by decide, rfl, rfl, ?_, rfl, rfl⟩
  intro heq
  have hget := congrArg (fun heads : StringMap => heads[bytes "Content-Length"]?) heq
  exact absurd hget (by decide)

end UvCpp.Http
