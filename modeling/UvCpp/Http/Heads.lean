import UvCpp.Http.Request
import UvCpp.Http.Response

/-!
# Any bytes as a head

What comes in may be anything. The functions that read a head cut strings only at places that they have
found in them, so each of them returns, on every string (`returns_splitStrOfSpace`,
`Request.returns_unpackUrl`, `Response.returns_parseStatus`, `returns_appendHeads`). `unpack` also takes
the first of the lines that `SplitHttpOfCRLF` has cut, and there is none if the string begins with the
blank line (`returns_unpack_iff`).
-/

namespace UvCpp.Http

open UvCpp.Cpp Exec

/-- What is found stands where it was looked for, and in the string. -/
theorem find_byte {s : Bytes} {c : UInt8} {i k : ℕ} (h : find s [c] i = some k) : i ≤ k ∧ k < s.length :=
  ⟨((find_eq_some_iff (by simp)).mp h).1, find_add_length_le (by simp) h⟩

/-! ### Words -/

/-- The loop of `SplitStrOfSpace` ends, at a place in the string if it does not fail. -/
theorem exists_splitSpaceLoop {str : Bytes} {fuel i : ℕ} {last : Option ℕ} (out : List Bytes)
    (hlast : nextPos last ≤ str.length) (hfuel : str.length + 1 < fuel + nextPos last)
    (hi : 2 ≤ i → last ≠ none) :
    ∃ pos out', splitSpaceLoop str fuel i last out = .ok (pos, out') ∧ nextPos pos ≤ str.length := by
  induction fuel generalizing i last out with
  | zero => omega
  | succ fuel ih =>
    rw [splitSpaceLoop]
    by_cases hlt : i < 2
    · rw [if_pos hlt, bytes_space]
      cases hfind : find str [32] (nextPos last) with
      | none => exact ⟨none, out, rfl, Nat.zero_le _⟩
      | some pos =>
        obtain ⟨hle, hpos⟩ := find_byte hfind
        have hfuel' : str.length + 1 < fuel + nextPos (some pos) := by
          rw [nextPos]
          omega
        simp only
        split
        · exact ih out hpos hfuel' fun _ => Option.some_ne_none pos
        · obtain ⟨word, hword⟩ := returns_substr hlast (usub pos (nextPos last))
          rw [hword, Exec.ok_bind]
          exact ih _ hpos hfuel' fun _ => Option.some_ne_none pos
    · rw [if_neg hlt]
      exact ⟨last, out, rfl, hlast⟩

/-- **Any string is cut into words**, or refused. -/
theorem returns_splitStrOfSpace (str : Bytes) : (SplitStrOfSpace str).Returns := by
  have hfuel : str.length + 1 < str.length + 2 + nextPos none := Nat.lt_succ_self _
  obtain ⟨pos, out, hloop, hpos⟩ := exists_splitSpaceLoop [] (Nat.zero_le _) hfuel (by decide : 2 ≤ 0 → _)
  rw [SplitStrOfSpace, hloop, Exec.ok_bind]
  cases pos with
  | none => exact returns_ok _
  | some pos =>
    simp only
    split
    · exact returns_ok _
    · exact (returns_substr hpos _).bind fun _ _ => returns_ok _

/-! ### The target of a request -/

namespace Request

theorem returns_unpackPath (r : RequestLine) (str : Bytes) : (unpackPath r str).Returns := by
  obtain ⟨_, _, _, hpath⟩ := exists_unpackPath str
  exact ⟨_, hpath r⟩

/-- **Any first line of a request is read**, or refused. -/
theorem returns_unpackUrl (r : RequestLine) (str : Bytes) : (unpackUrl r str).Returns := by
  refine (returns_splitStrOfSpace str).bind ?_
  rintro ⟨rst, out⟩ -
  simp only
  split
  · split
    · exact returns_ok _
    · refine (returns_unpackPath _ _).bind ?_
      rintro ⟨rst, r⟩ -
      simp only
      split
      · exact returns_ok _
      · exact returns_ok _
  · exact returns_ok _

end Request

/-- **Any first line of a response is read**, or refused. -/
theorem Response.returns_parseStatus (r : StatusLine) (str : Bytes) : (Response.parseStatus r str).Returns := by
  refine (returns_splitStrOfSpace str).bind ?_
  rintro ⟨rst, out⟩ -
  simp only
  split
  · next version code info =>
    refine returns_catchAll ?_ (returns_ok _)
    obtain hthrown | ⟨z, -, hz⟩ := stoi_cases 10 code
    · rw [hthrown]
      exact .inl rfl
    · rw [hz]
      exact .inr (returns_ok _)
  · exact returns_ok _

/-! ### Headers and lines -/

theorem returns_appendHead (str : Bytes) (heads : StringMap) : (AppendHead str heads).Returns := by
  rw [AppendHead]
  cases hfind : find str (bytes ": ") 0 with
  | none => exact returns_ok _
  | some pos =>
    have hpos : pos + 2 ≤ str.length := find_add_length_le (by decide) hfind
    exact (returns_substr (Nat.zero_le _) _).bind fun _ _ => (returns_substrFrom hpos).bind fun _ _ => returns_ok _

theorem returns_appendHeads (headList : List Bytes) (heads : StringMap) :
    (appendHeads headList heads).Returns := by
  induction headList generalizing heads with
  | nil => exact returns_ok _
  | cons str headList ih =>
    refine (returns_appendHead str heads).bind ?_
    rintro ⟨rst, heads⟩ -
    simp only
    split
    · exact returns_ok _
    · exact ih heads

/-- A head has lines if it has a byte. -/
theorem headLines_eq_nil_iff {h : Bytes} : headLines h = [] ↔ h = [] := by
  cases h with
  | nil => exact iff_of_true rfl rfl
  | cons c t =>
    refine iff_of_false ?_ (List.cons_ne_nil c t)
    rw [headLines, List.modifyHead_eq_nil_iff]
    exact cutLines_ne_nil t

/-- The blank line stands at the very beginning. -/
theorem find_blank_eq_zero_iff {data : Bytes} :
    find data (bytes "\r\n\r\n") 0 = some 0 ↔ [13, 10, 13, 10] <+: data := by
  rw [bytes_blank, find_eq_some_iff (by simp)]
  simp

/-- The head in some bytes, if it has ended there, is shorter than `2³¹` bytes. -/
def ShortHead (data : Bytes) : Prop := ∀ b, find data (bytes "\r\n\r\n") 0 = some b → b + 4 < 2 ^ 31

theorem shortHead_of_lt {data : Bytes} (h : data.length < 2 ^ 31) : ShortHead data := by
  intro b hb
  have hle : b + 4 ≤ data.length := find_add_length_le (by decide) hb
  omega

/-- **`SplitHttpOfCRLF` returns, and cuts at least one line** if it finds a blank line, unless that stands at
the very beginning. -/
theorem splitHttpOfCRLF_safe_iff {data : Bytes} (hdata : ShortHead data) :
    ∃ pos headList, SplitHttpOfCRLF data = .ok (pos, headList) ∧
      (pos = -1 ∨ ∃ b : ℕ, pos = b ∧ b + 4 ≤ data.length ∧ b + 4 < 2 ^ 31) ∧
        ((pos ≠ -1 → headList ≠ []) ↔ ¬ [13, 10, 13, 10] <+: data) := by
  rw [splitHttpOfCRLF_eq, ← find_blank_eq_zero_iff]
  cases hfind : find data (bytes "\r\n\r\n") 0 with
  | none => exact ⟨-1, [], rfl, .inl rfl, iff_of_true (fun h => absurd rfl h) nofun⟩
  | some b =>
    have hb : b + 4 ≤ data.length := find_add_length_le (by decide) hfind
    have hshort := hdata b hfind
    have hcode : toInt32 b = b := toInt32_of_lt (by omega)
    refine ⟨b, headLines (data.take b), by simp only [hcode], .inr ⟨b, rfl, hb, hshort⟩, ?_⟩
    rw [ne_eq (headLines _), headLines_eq_nil_iff, List.take_eq_nil_iff]
    have hpos : (b : ℤ) ≠ -1 := by omega
    have hne : data ≠ [] := List.ne_nil_of_length_pos (by omega)
    simp [hpos, hne]

variable {Line : Type} {parse : Line → Bytes → Exec (ℤ × Line)}

/-- **Whether `unpack` returns**: it does not if the blank line stands at the very beginning. -/
theorem returns_unpack_iff (hparse : ∀ line str, (parse line str).Returns) (m : Message Line) {data : Bytes}
    (hdata : ShortHead data) :
    (Message.unpack parse m data).Returns ↔ ¬ [13, 10, 13, 10] <+: data := by
  obtain ⟨pos, headList, hsplit, hinside, hiff⟩ := splitHttpOfCRLF_safe_iff hdata
  rw [← hiff, Message.unpack, hsplit, Exec.ok_bind]
  simp only
  by_cases hpos : pos = -1
  · rw [if_pos hpos]
    exact iff_of_true (returns_ok _) fun h => absurd hpos h
  · rw [if_neg hpos]
    cases headList with
    | nil =>
      refine iff_of_false ?_ fun h => h hpos rfl
      rintro ⟨_, h⟩
      cases h
    | cons first headList =>
      refine iff_of_true ?_ fun _ => List.cons_ne_nil _ _
      refine (hparse m.line first).bind ?_
      rintro ⟨rst, line⟩ -
      simp only
      split
      · exact returns_ok _
      refine (returns_appendHeads headList m.heads_).bind ?_
      rintro ⟨rst', heads⟩ -
      simp only
      split
      · exact returns_ok _
      -- the content begins behind the blank line
      obtain ⟨b, rfl, hb, hshort⟩ := hinside.resolve_left hpos
      have hstart : addInt b 4 = .ok ((b + 4 : ℕ) : ℤ) := addInt_natCast hshort
      rw [hstart, Exec.ok_bind, toUInt64_natCast]
      exact (returns_substrFrom hb).bind fun _ _ => returns_ok _

/-- **When reading a head is safe**: both `unpack`s return and find the lines they take, exactly if the
bytes do not begin with a blank line. -/
theorem unpack_safe_iff (data : {d : Bytes // d.length < 2 ^ 31}) (request : Request) (response : Response) :
    ((∃ rst r, request.unpack data.1 = .ok (rst, r)) ∧ (∃ rst r, response.unpack data.1 = .ok (rst, r)) ∧
        ∃ pos headList, SplitHttpOfCRLF data.1 = .ok (pos, headList) ∧ (pos ≠ -1 → headList ≠ [])) ↔
      ¬ [13, 10, 13, 10] <+: data.1 := by
  have hshort := shortHead_of_lt data.2
  have hrequest := returns_unpack_iff Request.returns_unpackUrl request hshort
  have hresponse := returns_unpack_iff Response.returns_parseStatus response hshort
  obtain ⟨pos, headList, hsplit, -, hiff⟩ := splitHttpOfCRLF_safe_iff hshort
  constructor
  · rintro ⟨⟨rst, r, h⟩, -⟩
    exact hrequest.mp ⟨_, h⟩
  · intro hblank
    obtain ⟨⟨rst, r⟩, h⟩ := hrequest.mpr hblank
    obtain ⟨⟨rst', r'⟩, h'⟩ := hresponse.mpr hblank
    exact ⟨⟨rst, r, h⟩, ⟨rst', r', h'⟩, pos, headList, hsplit, hiff.mpr hblank⟩

/-- **A blank line, and nothing before it**: `SplitHttpOfCRLF` finds it and cuts no line, and the first line
is taken of none. -/
theorem not_unpack_safe : SplitHttpOfCRLF (bytes "\r\n\r\n") = .ok (0, []) ∧
    Request.unpack .new (bytes "\r\n\r\n") = .error .undefined ∧
      Response.unpack .new (bytes "\r\n\r\n") = .error .undefined := ⟨rfl, rfl, rfl⟩

end UvCpp.Http
